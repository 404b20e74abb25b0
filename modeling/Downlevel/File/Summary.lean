import Downlevel.Convert
import Downlevel.File.System

/-!
# Reports on files

Why a file was not converted, and what there is to say about a number of files together.
-/

namespace Downlevel

/-- Why files could not be converted. -/
inductive FileError where
  | unreadable (path : Path) (cause : OsError)
  /-- The text of this name could not be converted. -/
  | unconvertible (name : String) (cause : ConvertError)
  | unwritable (path : Path) (cause : OsError)
  | os (cause : OsError)
  | noSource (path : Path)
  | notAFile (path : Path)
deriving DecidableEq

def FileError.message : FileError → String
  | unreadable path cause => "failed to read " ++ path.text ++ ": " ++ cause.message
  | unconvertible name cause => "failed to convert " ++ name ++ ": " ++ cause.message
  | unwritable path cause => "failed to write " ++ path.text ++ ": " ++ cause.message
  | os cause => cause.message
  | noSource path => "Source directory does not exist: " ++ path.text
  | notAFile path => "not a file: " ++ path.text

/-- A warning from the conversion of a file. -/
structure FileWarning where
  path : Path
  diagnostic : Diagnostic
deriving DecidableEq

def FileWarning.format (w : FileWarning) : String :=
  w.diagnostic.format w.path.text

/-- What became of a number of files. -/
structure Summary where
  processed : Nat := 0
  converted : Nat := 0
  warnings : List FileWarning := []
  errors : List FileError := []
deriving DecidableEq

namespace Summary

/-- The summary of the files of two summaries. -/
def merge (s t : Summary) : Summary where
  processed := s.processed + t.processed
  converted := s.converted + t.converted
  warnings := s.warnings ++ t.warnings
  errors := s.errors ++ t.errors

def success (s : Summary) : Bool :=
  s.errors.isEmpty

/-- One file, converted with these warnings. -/
def ofConverted (path : Path) (warnings : List Diagnostic) : Summary where
  processed := 1
  converted := 1
  warnings := warnings.map fun diagnostic => { path, diagnostic }

/-- One file that could not be converted. -/
def ofFailed (e : FileError) : Summary where
  processed := 1
  errors := [e]

end Summary

end Downlevel
