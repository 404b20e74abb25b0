/-!
# Directive lines

A program may start with a line `#!…` that says how to run it. The grammar does not know such lines:
they are taken off before reading and put back, as they were, after printing.
-/

namespace Downlevel

/-- A text with its directive line, if it has one, taken off. -/
structure Directive.Split where
  directive : Option (List Char)
  body : List Char
deriving DecidableEq

namespace Directive

def isLineEnd (c : Char) : Bool :=
  c = '\n' || c = '\r'

/-- The length of the line end a text starts with, if it starts with one. -/
def lineEnd : List Char → Nat
  | [] => 0
  | c :: cs =>
    if c = '\n' then 1
    else if c = '\r' then if cs.head? = some '\n' then 2 else 1
    else 0

/-- Takes off a directive line together with its line end. -/
def strip (source : List Char) : Split :=
  if "#!".toList.isPrefixOf source then
    let line := source.takeWhile (!isLineEnd ·)
    let n := line.length + lineEnd (source.drop line.length)
    ⟨some (source.take n), source.drop n⟩
  else ⟨none, source⟩

/-- How many lines the body starts further down in the whole text. -/
def Split.lineOffset (s : Split) : Nat :=
  if s.directive.isSome then 1 else 0

/-- Puts a directive back before a text. One without a line end gets one, if a text follows. -/
def reattach (directive : Option (List Char)) (code : List Char) : List Char :=
  match directive with
  | none => code
  | some d =>
    if code.isEmpty || d.getLast?.any isLineEnd then d ++ code else d ++ '\n' :: code

end Directive

end Downlevel
