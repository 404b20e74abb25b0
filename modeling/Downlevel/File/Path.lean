import Downlevel.Text.Pieces

/-!
# Paths

A path is a text of segments between slashes. It is kept as written, because messages show it so;
empty segments and `.` are passed over where its parts matter.
-/

namespace Downlevel

structure Path where
  text : String
deriving DecidableEq, Inhabited

namespace Path

def segments (p : Path) : List String :=
  Text.pieces '/' p.text

def ofSegments (segments : List String) : Path :=
  ⟨"/".intercalate segments⟩

def isAbsolute (p : Path) : Bool :=
  p.text.toList.head? = some '/'

/-- Whether a segment adds nothing to the path before it. -/
def isIdle (segment : String) : Bool :=
  segment = "" || segment = "."

/-- Segments without the idle ones at the end. The first segment stays if it is `.`, or stands for
the root. -/
def trimIdle : List String → List String
  | [] => []
  | first :: rest => first :: (rest.reverse.dropWhile isIdle).reverse

/-- The segments up to the last one that counts; none for an empty path and for the root. -/
def trimmed (p : Path) : List String :=
  match trimIdle p.segments with
  | [""] => []
  | segments => segments

/-- The name of the file or directory a path leads to, unless it ends in `.` or `..` or at the
root. -/
def fileName? (p : Path) : Option String :=
  match p.trimmed.getLast? with
  | some "." | some ".." | none => none
  | some name => some name

/-- The path of segments that end where it does. An empty one alone stands for the root. -/
def ofTrimmed : List String → Path
  | [""] => ⟨"/"⟩
  | segments => ofSegments segments

/-- The path without its last segment. -/
def parent? (p : Path) : Option Path :=
  match p.trimmed with
  | [] => none
  | segments => some (ofTrimmed (trimIdle segments.dropLast))

/-- A path below another. An absolute path stays as it is. -/
def join (p q : Path) : Path :=
  if q.isAbsolute || p.text = "" then q
  else if p.text.toList.getLast? = some '/' then ⟨p.text ++ q.text⟩
  else ⟨p.text ++ "/" ++ q.text⟩

/-- A file name before and after its last dot. A name that starts with its only dot has no
extension. -/
def splitExtension (name : String) : String × Option String :=
  let reversed := name.toList.reverse
  let extension := reversed.takeWhile (· ≠ '.')
  match reversed.drop extension.length with
  | [] | [_] => (name, none)
  | _ :: stem =>
    if name = ".." then (name, none)
    else (String.ofList stem.reverse, some (String.ofList extension.reverse))

/-- What follows the last dot of the file name. -/
def extension? (p : Path) : Option String :=
  p.fileName?.bind fun name => (splitExtension name).2

/-- A file name with another extension; with an empty one, without any. The name `..x` is `..` once
its extension is taken off, and that can have none. -/
def replaceExtension (name extension : String) : String :=
  match splitExtension name with
  | (".", some _) => ".."
  | (stem, _) => if extension = "" then stem else stem ++ "." ++ extension

/-- The path with another extension. -/
def withExtension (p : Path) (extension : String) : Path :=
  match p.fileName? with
  | none => p
  | some name => ofSegments (p.trimmed.dropLast ++ [replaceExtension name extension])

end Path

end Downlevel
