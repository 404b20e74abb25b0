import Downlevel.Lowering.Basic

/-!
# Template literals

A template becomes a sum of strings and its substitutions: `"a" + b + "c"`. The first string is kept
even if it is empty, so that the sum is always one of strings; later empty strings are left out.
-/

namespace Downlevel.Lowering

open Store (alloc)

/-- The source of a template text as the source of a string with the same value. What a template need
not escape but a string must is escaped, and escaped line ends, which stand for nothing, go. -/
def quoted : List Char → List Char
  | [] => []
  | c :: cs =>
    if c = '\\' then
      match cs with
      | [] => ['\\', '\\']
      | d :: ds =>
        if d = '`' || d = '$' then d :: quoted ds
        else if d = '\n' || d = '\u2028' || d = '\u2029' then quoted ds
        else if d = '\r' then
          match ds with
          | [] => []
          | e :: es => if e = '\n' then quoted es else quoted (e :: es)
        else '\\' :: d :: quoted ds
    else if c = '"' then '\\' :: '"' :: quoted cs
    else if c = '\n' then '\\' :: 'n' :: quoted cs
    else if c = '\r' then '\\' :: 'r' :: quoted cs
    else c :: quoted cs

def quotedString (raw : String) : String :=
  String.ofList (quoted raw.toList)

/-- Adds the remaining substitutions and texts of a template to a sum. The last sum is not stored: it
takes the place of the template. -/
def sum (span : Span) (total : Kind NodeId) :
    List NodeId → List String → StateM Store (Kind NodeId)
  | [], _ => return total
  | e :: es, texts => do
    let left ← alloc total span
    let total := .binary .add left e
    match texts with
    | [] => sum span total es []
    | text :: texts =>
      if text.isEmpty then sum span total es texts
      else
        let left ← alloc total span
        let right ← alloc (.string text) span
        sum span (.binary .add left right) es texts

def lowerTemplate (id : NodeId) : StateM Store Unit := do
  let s ← get
  match s.kind id with
  | .template quasis expressions =>
    let texts := quasis.map quotedString
    let total ← sum (s.span id) (.string (texts.headD "")) expressions texts.tail
    replace id total
  | _ => return

def templateLiterals : Plugin where
  name := "strings.template"
  description := "Rewrite template literals as string concatenation"
  Context := Unit
  initial := ()
  leave := hook lowerTemplate

end Downlevel.Lowering
