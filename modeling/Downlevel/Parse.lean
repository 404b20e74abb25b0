import Downlevel.Dialect
import Downlevel.Grammar.Body
import Downlevel.Peg.Run
import Downlevel.Syntax.Store

/-!
# Reading programs

`parse` reads a whole source text in a dialect into a stored tree. A text that does not match the
grammar is rejected at the furthest place that was reached, with the rules that could have gone on
from there; one that matches, at its first fault; and in the stable dialect, at the first construct
that only the next dialect has.
-/

namespace Downlevel

/-- Why a text was rejected. -/
inductive ParseError.Cause where
  | expected (rules : List Rule)
  | fault (cause : Fault.Cause)
  | unsupported (feature : Feature)
deriving DecidableEq

/-- A rejected text: why, and where, with lines and columns counted from one. -/
structure ParseError where
  cause : ParseError.Cause
  line : Nat
  column : Nat
deriving DecidableEq

namespace ParseError

/-- Alternatives as they are listed in a message. -/
def alternatives : List String → String
  | [] => ""
  | [a] => a
  | [a, b] => a ++ " or " ++ b
  | a :: as => ", ".intercalate (a :: as.dropLast) ++ ", or " ++ as.getLastD ""

def Cause.message : Cause → String
  | expected [] => "unknown parsing error"
  | expected rules => "expected " ++ alternatives (rules.map Rule.label)
  | fault cause => cause.message
  | unsupported feature => feature.text ++ " not supported by the stable dialect"

def message (e : ParseError) : String :=
  e.cause.message

/-- The message followed by its place. -/
def display (e : ParseError) : String :=
  e.message ++ " (" ++ toString e.line ++ ":" ++ toString e.column ++ ")"

/-- An error at a position. Columns of errors are counted from one. -/
def ofPosition (cause : Cause) (position : Position) : ParseError :=
  ⟨cause, position.line, position.column + 1⟩

/-- The same error in a text with `n` more lines before it. -/
def shift (e : ParseError) (n : Nat) : ParseError :=
  { e with line := e.line + n }

end ParseError

/-- Matches the rule for a whole program. No rule calls itself again before a character has been
consumed, which bounds how deep calls are nested. -/
def matchProgram (source : List Char) : Reply Rule Built :=
  echoGrammar.call source.length (Rule.all.length * (source.length + 1)) .program ⟨source, 0⟩ {}

/-- The tree of a program in the next dialect, with its places still given by offsets. -/
def parseRaw (source : List Char) : Except (ParseError.Cause × Nat) RawTree :=
  match matchProgram source with
  | ⟨some (.ok tree, _), _⟩ => .ok tree
  | ⟨some (.error fault, _), _⟩ => .error (.fault fault.cause, fault.offset)
  | ⟨none, tracker⟩ =>
    .error (.expected (Rule.all.filter (tracker.expected.contains ·)), tracker.offset)

/-- Rejects a tree of the stable dialect at its first construct of the next dialect. -/
def checkDialect (dialect : Dialect) (tree : RawTree) :
    Except (ParseError.Cause × Nat) RawTree :=
  match dialect, tree.features with
  | .stable, (range, feature) :: _ => .error (.unsupported feature, range.start)
  | _, _ => .ok tree

/-- The tree of a program. -/
def parseTree (source : String) (dialect : Dialect) : Except ParseError (Tree Span) :=
  let chars := source.toList
  let index := LineIndex.ofText chars
  match parseRaw chars >>= checkDialect dialect with
  | .ok tree => .ok (tree.map index.span)
  | .error (cause, offset) => .error (.ofPosition cause (index.position offset))

/-- Reads a source text as a whole program. -/
def parse (source : String) (dialect : Dialect) : Except ParseError Store :=
  (parseTree source dialect).map Store.ofTree

end Downlevel
