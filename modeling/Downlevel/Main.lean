import Downlevel.Command.Run

/-!
# The command

Runs the command on the machine's files and standard streams.
-/

namespace Downlevel

/-- What the machine says about a failed operation on files. -/
def OsError.ofSystem : IO.Error → OsError
  | .noFileOrDirectory .. => .notFound
  | .permissionDenied .. => .denied
  | .alreadyExists .. => .exists
  | .inappropriateType .. => .isADirectory
  | e => .other (toString e)

/-- Runs an operation on files, with its failure as a value. -/
def asValue {α : Type} (operation : IO α) : IO (Except OsError α) := do
  try return .ok (← operation)
  catch e => return .error (.ofSystem e)

instance : FileSystem IO where
  isDirectory p := do ((← IO.currentDir) / p.text).isDir
  list p := asValue do
    return (← ((← IO.currentDir) / p.text).readDir).toList.map (·.fileName)
  read p := asValue (IO.FS.readBinFile p.text)
  write p bytes := asValue (IO.FS.writeBinFile p.text bytes)
  createDirectories p := asValue do
    unless p.text = "" do IO.FS.createDirAll p.text

def usage : String :=
  "Convert Echo Next source to the stable Echo dialect\n\n" ++
  "Usage: downlevel [OPTIONS] [FILES]...\n\n" ++
  "  -w, --write            Overwrite each input with its converted output\n" ++
  "  -o, --out-dir <DIR>    Write converted files under DIR\n" ++
  "      --ext <EXTS>       Extensions picked up in directories, between commas\n" ++
  "      --out-ext <EXT>    Extension for written files\n" ++
  "      --flat             Write every file directly into the output directory\n" ++
  "      --no-validate      Do not check the output\n" ++
  "      --plugins <NAMES>  Plugins to run, in order, between commas\n" ++
  "      --list-plugins     List the plugins and exit\n" ++
  "      --json             Print results as JSON\n" ++
  "      --debug            Enable debug logging\n" ++
  "  -h, --help             Print help\n" ++
  "  -V, --version          Print version\n"

def UsageError.message : UsageError → String
  | unknownOption text => "error: unexpected argument '" ++ text ++ "' found\n"
  | invalidValue name => "error: a value is required for '" ++ name ++ "'\n"
  | unexpectedValue name => "error: unexpected value for '" ++ name ++ "'\n"
  | conflict name => "error: the argument '" ++ name ++ "' cannot be used here\n"
  | help => usage
  | version => "downlevel " ++ Downlevel.version ++ "\n"

/-- Runs the command; the result is its exit code. -/
def runCommand (texts : List String) : IO UInt32 := do
  match Arguments.ofList texts with
  | .error e =>
    if e = .help ∨ e = .version then
      IO.print e.message
      return 0
    IO.eprint e.message
    return 2
  | .ok args =>
    let (result, streams) ← args.run (do (← IO.getStdin).readBinToEnd)
    IO.print streams.out
    IO.eprint streams.err
    match result with
    | .ok () => return 0
    | .error e =>
      IO.eprintln ("Error: " ++ e.message)
      return 1

end Downlevel

def main (args : List String) : IO UInt32 :=
  Downlevel.runCommand args
