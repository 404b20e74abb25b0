import Downlevel.Diagnostic
import Downlevel.Log
import Downlevel.Parse

/-!
# Checking converted text

Converted text must be a program of the stable dialect. If it is not, that is reported as a
diagnostic, with the column counted from zero as everywhere in diagnostics.
-/

namespace Downlevel

/-- The kind of diagnostic for converted text outside the stable dialect. -/
def outputValidationFailure : String := "output-validation-failure"

/-- What is wrong with a converted text, and the log entry that tells about the check. -/
def validate (code : String) : Option Diagnostic × Log.Event :=
  match parse code .stable with
  | .ok _ => (none, .outputValidated code.utf8ByteSize)
  | .error e =>
    (some ⟨outputValidationFailure, e.message, e.line, e.column - 1⟩,
      .outputRejected e.line e.column e.message)

end Downlevel
