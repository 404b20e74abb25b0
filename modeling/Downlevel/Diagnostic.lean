/-!
# Diagnostics

Problems that do not stop a conversion, reported next to its result.
-/

namespace Downlevel

/-- Where a diagnostic points: line counted from one, column counted from zero. -/
structure Location where
  line : Nat
  column : Nat
deriving DecidableEq, Inhabited

structure Diagnostic where
  kind : String
  message : String
  location : Location
deriving DecidableEq, Inhabited

/-- The same diagnostic in a text with `n` more lines before it. -/
def Diagnostic.shift (d : Diagnostic) (n : Nat) : Diagnostic :=
  { d with location.line := d.location.line + n }

/-- One line of a report: where, then what kind, then what. -/
def Diagnostic.format (d : Diagnostic) (path : String) : String :=
  path ++ ":" ++ toString d.location.line ++ ":" ++ toString d.location.column ++ ": " ++ d.kind
    ++ ": " ++ d.message

/-- A program as text, and what there is to say about it. -/
structure Rendered where
  code : String
  warnings : List Diagnostic
deriving DecidableEq, Inhabited

end Downlevel
