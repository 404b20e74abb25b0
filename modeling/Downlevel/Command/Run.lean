import Downlevel.Command.Arguments
import Downlevel.Text.JsonValue

/-!
# Running the command

`Arguments.run` does what the arguments ask for. It writes to two streams: converted text and reports
for other programs to the one, warnings and errors to the other. What was written before a failure
stays written.
-/

namespace Downlevel

/-- Why a run failed. -/
inductive RunError where
  | unknownPlugin (e : Arguments.UnknownPlugin)
  | file (e : FileError)
  /-- A directory was given, and no place for what becomes of its files. -/
  | directory (path : Path)
  /-- So many files of directories were not converted. -/
  | failures (count : Nat)
deriving DecidableEq

def RunError.message : RunError → String
  | unknownPlugin e => e.message
  | file e => e.message
  | directory path => path.text ++ " is a directory; pass --write or --out-dir"
  | failures count => toString count ++ " file(s) failed to convert"

/-! ### Reports -/

def Location.toJson (l : Location) : JsonValue :=
  .object [("line", .number l.line), ("column", .number l.column)]

def Diagnostic.fields (d : Diagnostic) : List (String × JsonValue) :=
  [("kind", .string d.kind), ("message", .string d.message), ("location", d.location.toJson)]

def Rendered.toJson (r : Rendered) : JsonValue :=
  .object [("code", .string r.code), ("warnings", .array (r.warnings.map fun d => .object d.fields))]

def FileWarning.toJson (w : FileWarning) : JsonValue :=
  .object (("path", .string w.path.text) :: w.diagnostic.fields)

def Summary.toJson (s : Summary) : JsonValue :=
  .object [("files_processed", .number s.processed), ("files_converted", .number s.converted),
    ("warnings", .array (s.warnings.map FileWarning.toJson)),
    ("errors", .array (s.errors.map fun e => .string e.message))]

/-- What a run has written to its streams. -/
structure Streams where
  out : String := ""
  err : String := ""
deriving DecidableEq

namespace Streams

def print (s : Streams) (text : String) : Streams :=
  { s with out := s.out ++ text }

def printLine (s : Streams) (line : String) : Streams :=
  s.print (line ++ "\n")

def warnLine (s : Streams) (line : String) : Streams :=
  { s with err := s.err ++ line ++ "\n" }

/-- Gives out a converted text of some name. -/
def emit (s : Streams) (json : Bool) (name : String) (r : Rendered) : Streams :=
  if json then s.printLine r.toJson.pretty
  else r.warnings.foldl (fun s d => s.warnLine (d.format name)) (s.print r.code)

/-- Tells what became of the files that were to be written. -/
def report (s : Streams) (json : Bool) (summary : Summary) : Streams :=
  let s :=
    if json then s.printLine summary.toJson.pretty
    else summary.warnings.foldl (fun s w => s.warnLine w.format) s
  summary.errors.foldl (fun s e => s.warnLine ("error: " ++ e.message)) s

/-- One line for each plugin. -/
def listPlugins (s : Streams) : Streams :=
  catalog.foldl (fun s p => s.printLine (Text.padRight 26 p.name ++ p.description)) s

end Streams

/-- What warnings call the text read from the standard input. -/
def standardInput : String := "<stdin>"

/-- Effects of a run: it changes files, writes to streams, and may fail. -/
abbrev RunM (m : Type → Type) := ExceptT RunError (StateT Streams m)

namespace Arguments

variable {m : Type → Type} [Monad m] [FileSystem m]

/-- Work on files, as part of a run. -/
def onFiles {α : Type} (work : ExceptT FileError m α) : RunM m α :=
  ExceptT.mk (StateT.lift (Except.mapError .file <$> work.run))

/-- Converts the standard input. -/
def runOnInput (args : Arguments) (c : Converter) (input : m ByteArray) : RunM m Unit := do
  let bytes ← ExceptT.lift (StateT.lift input)
  let r ← onFiles (liftExcept do
    let text ← (decodeText bytes).mapError .os
    c.convertText standardInput text)
  modify (·.emit args.json standardInput r)

/-- The directory that results go to when the input is a directory. -/
def directoryTarget (args : Arguments) (p : Path) : Except RunError Path :=
  match args.outDir, args.write with
  | some directory, _ => .ok directory
  | none, true => .ok p
  | none, false => .error (.directory p)

/-- The directory that the result goes to when the input is a file, if it goes to a file. -/
def fileTarget? (args : Arguments) (p : Path) : Option Path :=
  match args.outDir, args.write with
  | some directory, _ => some directory
  | none, true => some (p.parent?.getD ⟨""⟩)
  | none, false => none

/-- Converts a file or directory. Says what became of the files that were to be written, if any. -/
def runOnPath (args : Arguments) (c : Converter) (p : Path) : RunM m (Option Summary) := do
  if ← ExceptT.lift (StateT.lift (FileSystem.isDirectory p)) then
    let target ← liftExcept (args.directoryTarget p)
    return some (← onFiles (c.convertDirectory p target))
  else match args.fileTarget? p with
    | some directory =>
      return some (← onFiles do
        let target ← liftExcept (c.targetIn p directory)
        c.convertFile p target)
    | none =>
      let r ← onFiles (c.load p)
      modify (·.emit args.json p.text r)
      return none

/-- Converts files and directories one after another. -/
def runOnPaths (args : Arguments) (c : Converter) (paths : List Path) : RunM m (Option Summary) :=
  paths.foldlM (fun (total : Option Summary) p => do
    match total, ← args.runOnPath c p with
    | total, none => return total
    | none, some summary => return some summary
    | some total, some summary => return some (total.merge summary)) none

/-- The whole run, given the standard input. -/
def runM (args : Arguments) (input : m ByteArray) : RunM m Unit := do
  if args.listPlugins then modify Streams.listPlugins
  else
    let c ← liftExcept (args.converter.mapError RunError.unknownPlugin)
    if args.files.isEmpty then args.runOnInput c input
    else if let some summary ← args.runOnPaths c args.files then
      modify (·.report args.json summary)
      unless summary.success do throw (.failures summary.errors.length)

/-- Does what the arguments ask for. -/
def run (args : Arguments) (input : m ByteArray) : m (Except RunError Unit × Streams) :=
  (args.runM input).run.run {}

end Arguments

end Downlevel
