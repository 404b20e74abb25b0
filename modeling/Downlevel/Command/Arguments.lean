import Downlevel.File.Converter
import Downlevel.Text.Pieces

/-!
# The command line

`Arguments.ofList` reads the arguments of the command. An argument is first cut into items, without
regard to those around it; then the items take effect one after another. An option's value may be
the next argument, so what was read last stays pending until a later item settles it, and what is
wrong with it shows only then.
-/

namespace Downlevel

/-- Why a command line asks for no run. -/
inductive UsageError where
  | unknownOption (text : String)
  | invalidValue (name : String)
  | unexpectedValue (name : String)
  | conflict (name : String)
  | help
  | version
deriving DecidableEq

namespace Command

/-- Options that are given or not. -/
inductive Switch where
  | write
  | flat
  | noValidate
  | listPlugins
  | json
  | debug
deriving DecidableEq

namespace Switch

def name : Switch → String
  | write => "--write"
  | flat => "--flat"
  | noValidate => "--no-validate"
  | listPlugins => "--list-plugins"
  | json => "--json"
  | debug => "--debug"

def all : List Switch :=
  [write, flat, noValidate, listPlugins, json, debug]

end Switch

/-- Options with a value. -/
inductive Setting where
  | outDir
  | extensions
  | outputExtension
  | plugins
deriving DecidableEq

namespace Setting

def name : Setting → String
  | outDir => "--out-dir"
  | extensions => "--ext"
  | outputExtension => "--out-ext"
  | plugins => "--plugins"

def all : List Setting :=
  [outDir, extensions, outputExtension, plugins]

/-- A path has to be something; any other text is a value. -/
def accepts : Setting → String → Bool
  | outDir, value => value ≠ ""
  | _, _ => true

end Setting

/-- What an option does. -/
inductive Choice where
  | switch (s : Switch)
  | setting (s : Setting)
  | stop (e : UsageError)
deriving DecidableEq

namespace Choice

/-- The options by their long names, which have to be spelled out. -/
def longNames : List (String × Choice) :=
  Switch.all.map (fun s => (s.name, switch s)) ++ Setting.all.map (fun s => (s.name, setting s))
    ++ [("--help", stop .help), ("--version", stop .version)]

/-- The option with a short name. -/
def ofLetter? : Char → Option Choice
  | 'w' => some (switch .write)
  | 'o' => some (setting .outDir)
  | 'h' => some (stop .help)
  | 'V' => some (stop .version)
  | _ => none

end Choice

/-- What an argument says. -/
inductive Item where
  /-- From here on there are only file names. -/
  | noMoreOptions
  | plain (text : String)
  | switch (s : Switch)
  /-- An option with a value, attached to it or to come. -/
  | setting (s : Setting) (value : Option String)
  | stop (e : UsageError)
  /-- A mistake that nothing before it can excuse. -/
  | mistake (e : UsageError)
deriving DecidableEq

namespace Item

/-- An argument that starts with two dashes: a name, and perhaps a value after a sign. -/
def ofLong (text : String) : Item :=
  let name := String.ofList (text.toList.takeWhile (· ≠ '='))
  let value : Option String :=
    match text.toList.dropWhile (· ≠ '=') with
    | [] => none
    | _ :: value => some (String.ofList value)
  match Choice.longNames.lookup name, value with
  | none, _ => mistake (.unknownOption name)
  | some (.setting s), _ => setting s value
  | some _, some _ => mistake (.unexpectedValue name)
  | some (.switch s), none => switch s
  | some (.stop e), none => stop e

/-- Letters after one dash. What follows the letter of an option with a value is its value, after a
sign or not. -/
def ofLetters : List Char → List Item
  | [] => []
  | letter :: letters =>
    match Choice.ofLetter? letter with
    | none => [mistake (.unknownOption (String.ofList ['-', letter]))]
    | some (.switch s) => switch s :: ofLetters letters
    | some (.stop e) => stop e :: ofLetters letters
    | some (.setting s) =>
      match letters with
      | [] => [setting s none]
      | '=' :: value => [setting s (some (String.ofList value))]
      | value => [setting s (some (String.ofList value))]

/-- The items of an argument in front of which options may stand. -/
def ofArgument (text : String) : List Item :=
  match text.toList with
  | ['-', '-'] => [noMoreOptions]
  | '-' :: '-' :: _ => [ofLong text]
  | ['-'] => [plain text]
  | '-' :: letters => ofLetters letters
  | _ => [plain text]

end Item

/-- What was read last. -/
inductive Pending where
  | file (text : String)
  | setting (s : Setting) (value : Option String)
deriving DecidableEq

/-- What has been read so far. -/
structure Reading where
  files : List String := []
  switches : List Switch := []
  settings : List (Setting × String) := []
  pending : Option Pending := none
  onlyFiles : Bool := false

namespace Reading

/-- Takes note of the value of an option. No option has two. -/
def set (r : Reading) (s : Setting) (value : String) : Except UsageError Reading :=
  if (r.settings.lookup s).isSome then .error (.conflict s.name)
  else if s.accepts value then .ok { r with settings := r.settings ++ [(s, value)] }
  else .error (.invalidValue s.name)

/-- Takes note of what is pending. -/
def settle (r : Reading) : Except UsageError Reading :=
  let done := { r with pending := none }
  match r.pending with
  | none => .ok done
  | some (.file "") => .error (.invalidValue "FILES")
  | some (.file text) => .ok { done with files := done.files ++ [text] }
  | some (.setting s none) => .error (.invalidValue s.name)
  | some (.setting s (some value)) => done.set s value

/-- A text that is no option: the value an option waits for, or a file. -/
def plain (r : Reading) (text : String) : Except UsageError Reading :=
  match r.onlyFiles, r.pending with
  | false, some (.setting s none) => .ok { r with pending := some (.setting s (some text)) }
  | _, _ => return { ← r.settle with pending := some (.file text) }

def apply (r : Reading) : Item → Except UsageError Reading
  | .noMoreOptions => .ok { r with onlyFiles := true }
  | .plain text => r.plain text
  | .switch s => do
    let r ← r.settle
    if s ∈ r.switches then throw (.conflict s.name)
    return { r with switches := r.switches ++ [s] }
  | .setting s (some value) => do (← r.settle).set s value
  | .setting s none => return { ← r.settle with pending := some (.setting s none) }
  | .stop e => do
    let _ ← r.settle
    throw e
  | .mistake e => .error e

/-- Reads one argument. -/
def read (r : Reading) (text : String) : Except UsageError Reading :=
  if r.onlyFiles then r.plain text else (Item.ofArgument text).foldlM apply r

end Reading

end Command

open Command

/-- What the command is asked to do. -/
structure Arguments where
  files : List Path := []
  write : Bool := false
  outDir : Option Path := none
  sourceExtensions : Option (List String) := none
  outputExtension : Option String := none
  flat : Bool := false
  validate : Bool := true
  plugins : Option (List String) := none
  listPlugins : Bool := false
  json : Bool := false
  debug : Bool := false
deriving DecidableEq

namespace Arguments

/-- An extension without the dots in front of it. -/
def bareExtension (s : String) : String :=
  String.ofList (s.toList.dropWhile (· = '.'))

def ofReading (r : Command.Reading) : Arguments where
  files := r.files.map Path.mk
  write := .write ∈ r.switches
  outDir := (r.settings.lookup .outDir).map Path.mk
  sourceExtensions :=
    (r.settings.lookup .extensions).map fun s => (Text.pieces ',' s).map bareExtension
  outputExtension := (r.settings.lookup .outputExtension).map bareExtension
  flat := .flat ∈ r.switches
  validate := .noValidate ∉ r.switches
  plugins := (r.settings.lookup .plugins).map (Text.pieces ',')
  listPlugins := .listPlugins ∈ r.switches
  json := .json ∈ r.switches
  debug := .debug ∈ r.switches

/-- Reads the arguments of the command. Files are overwritten or put into a directory, not both. -/
def ofList (texts : List String) : Except UsageError Arguments := do
  let args := ofReading (← (← texts.foldlM Command.Reading.read {}).settle)
  if args.write && args.outDir.isSome then throw (.conflict Switch.write.name)
  return args

/-- The name of a plugin that there is not. -/
structure UnknownPlugin where
  name : String
deriving DecidableEq

def UnknownPlugin.message (e : UnknownPlugin) : String :=
  "Unknown plugin: " ++ e.name ++ " (see --list-plugins)"

/-- The plugins with these names, with blanks around them or not. -/
def resolvePlugins (names : List String) : Except UnknownPlugin (List Pass) :=
  names.mapM fun name =>
    match Pass.ofName? (Text.trim name) with
    | some p => .ok p
    | none => .error ⟨name⟩

def options (args : Arguments) : Except UnknownPlugin Options := do
  match args.plugins with
  | none => return { validate := args.validate }
  | some names => return { plugins := ← resolvePlugins names, validate := args.validate }

def converter (args : Arguments) : Except UnknownPlugin Converter := do
  return {
    options := ← args.options
    extensions := args.sourceExtensions.getD ["echo"]
    outputExtension := args.outputExtension
    keepPlaces := !args.flat }

end Arguments

end Downlevel
