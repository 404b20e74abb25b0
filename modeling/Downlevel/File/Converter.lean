import Downlevel.File.Summary
import Downlevel.Text.LetterCase

/-!
# Converting files

`Converter.convertFile` converts one file and `Converter.convertDirectory` all files of a directory,
at any depth, that have one of the converter's extensions. A directory is listed when the walk gets
to it and its entries are visited in order of their names; a file that fails is noted, and the walk
goes on.
-/

namespace Downlevel

/-- How to convert files, and where to put the results. -/
structure Converter where
  options : Options := {}
  /-- The extensions of the files to convert in a directory, in any letter case. -/
  extensions : List String := ["echo"]
  /-- The extension of written files, if it is not the one they had. -/
  outputExtension : Option String := none
  /-- Whether a written file has the place below the output directory that its source has below the
  source directory. Otherwise it lies directly in the output directory. -/
  keepPlaces : Bool := true

namespace Converter

/-- No path is longer, so no directory lies deeper. -/
def deepest : Nat := 4096

/-- A path with the extension of written files. -/
def renamed (c : Converter) (p : Path) : Path :=
  match c.outputExtension with
  | some extension => p.withExtension extension
  | none => p

/-- Where a file is written that goes directly into a directory. -/
def targetIn (c : Converter) (p directory : Path) : Except FileError Path :=
  match p.fileName? with
  | some name => .ok (c.renamed (directory.join ⟨name⟩))
  | none => .error (.notAFile p)

/-- Where a file of a directory is written that is reached there by a route of names. -/
def target (c : Converter) (p directory : Path) (route : List String) : Except FileError Path :=
  if c.keepPlaces then .ok (c.renamed (directory.join (Path.ofSegments route)))
  else c.targetIn p directory

/-- Whether a file of a directory is to be converted. -/
def selects (c : Converter) (p : Path) : Bool :=
  match p.extension? with
  | some extension =>
    c.extensions.any fun candidate => LetterCase.lower candidate = LetterCase.lower extension
  | none => false

/-- Converts a text, which errors speak of by name. -/
def convertText (c : Converter) (name source : String) : Except FileError Rendered :=
  (convert source c.options).result.mapError (.unconvertible name)

/-- Puts a name into a list before the first name that is not below it. -/
def insertName (name : String) : List String → List String
  | [] => [name]
  | other :: names =>
    if other < name then other :: insertName name names else name :: other :: names

/-- Names in the order in which a walk visits them. -/
def sortNames (names : List String) : List String :=
  names.foldr insertName []

variable {m : Type → Type} [Monad m] [FileSystem m]

/-- An operation on files, whose failure is told in the words of a conversion. -/
def perform {α : Type} (explain : OsError → FileError) (operation : m (Except OsError α)) :
    ExceptT FileError m α :=
  ExceptT.mk (Except.mapError explain <$> operation)

/-- Reads and converts a file. -/
def load (c : Converter) (source : Path) : ExceptT FileError m Rendered := do
  let bytes ← perform (.unreadable source) (FileSystem.read source)
  match decodeText bytes with
  | .ok text => liftExcept (c.convertText source.text text)
  | .error cause => throw (.unreadable source cause)

/-- Writes a text to a file, in a directory that is made if need be. -/
def store (target : Path) (code : String) : ExceptT FileError m Unit := do
  if let some parent := target.parent? then
    perform .os (FileSystem.createDirectories parent)
  perform (.unwritable target) (FileSystem.write target code.toUTF8)

/-- Converts one file. Nothing is written unless it can be read and converted. -/
def convertFile (c : Converter) (source target : Path) : ExceptT FileError m Summary := do
  let result ← c.load source
  store target result.code
  return .ofConverted source result.warnings

/-- Converts a file, or notes that it failed. -/
def attempt (c : Converter) (source target : Path) : m Summary := do
  match ← (c.convertFile source target).run with
  | .ok summary => return summary
  | .error e => return .ofFailed e

/-- Converts the files of a directory that is reached from the source directory by a route of names
and holds at most `depth` more levels. -/
def convertWithin (c : Converter) (output : Path) :
    Nat → Path → List String → ExceptT FileError m Summary
  | 0, _, _ => throw (.os .nameTooLong)
  | depth + 1, directory, route => do
    let names ← perform .os (FileSystem.list directory)
    (sortNames names).foldlM (fun summary name => do
      let path := directory.join ⟨name⟩
      let route := route ++ [name]
      if ← (FileSystem.isDirectory path : m Bool) then
        return summary.merge (← c.convertWithin output depth path route)
      else if c.selects path then
        let target ← liftExcept (c.target path output route)
        return summary.merge (← (c.attempt path target : m Summary))
      else return summary) {}

/-- Converts the files of a directory. -/
def convertDirectory (c : Converter) (source output : Path) : ExceptT FileError m Summary := do
  if ← (FileSystem.isDirectory source : m Bool) then
    perform .os (FileSystem.createDirectories output)
    c.convertWithin output deepest source []
  else throw (.noSource source)

end Converter

end Downlevel
