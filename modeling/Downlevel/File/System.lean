import Downlevel.File.Path

/-!
# File systems

What a conversion asks of a file system, as an interface: programs run it on the machine's files, and
`FileTree` is one that is a plain value.
-/

namespace Downlevel

/-- Why an operation on files failed. -/
inductive OsError where
  | notFound
  | denied
  | exists
  | notADirectory
  | isADirectory
  | nameTooLong
  | nulInName
  | invalidText
  | other (text : String)
deriving DecidableEq

def OsError.message : OsError → String
  | notFound => "No such file or directory (os error 2)"
  | denied => "Permission denied (os error 13)"
  | .exists => "File exists (os error 17)"
  | notADirectory => "Not a directory (os error 20)"
  | isADirectory => "Is a directory (os error 21)"
  | nameTooLong => "File name too long (os error 36)"
  | nulInName => "file name contained an unexpected NUL byte"
  | invalidText => "stream did not contain valid UTF-8"
  | other text => text

/-- Operations on files, by path. -/
class FileSystem (m : Type → Type) where
  isDirectory : Path → m Bool
  /-- The names in a directory, in any order. -/
  list : Path → m (Except OsError (List String))
  read : Path → m (Except OsError ByteArray)
  /-- Writes a file, over what it held before. -/
  write : Path → ByteArray → m (Except OsError Unit)
  /-- Makes a directory and those above it, as far as they are missing. -/
  createDirectories : Path → m (Except OsError Unit)

/-- The text that bytes encode. -/
def decodeText (bytes : ByteArray) : Except OsError String :=
  match String.fromUTF8? bytes with
  | some s => .ok s
  | none => .error .invalidText

end Downlevel
