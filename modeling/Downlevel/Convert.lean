import Downlevel.Directive
import Downlevel.Lowering.Catalog
import Downlevel.Pass.Sequence
import Downlevel.Validate

/-!
# Conversion

`convert` turns a program of the next dialect into one of the stable dialect. Its directive line goes
through untouched, and problems that do not stop it, such as output that fails the check, become
warnings. All lines it reports count in the whole text it was given.
-/

namespace Downlevel

def version : String := "0.1.0"

/-- How to convert. -/
structure Options where
  /-- The passes to run, in order. -/
  plugins : List Pass := catalog
  /-- Whether to check that the output is in the stable dialect. -/
  validate : Bool := true

/-- Options as they are shown to a user. -/
def Options.describe (o : Options) : String :=
  let names := ", ".intercalate (o.plugins.map fun p => "\"" ++ p.name ++ "\"")
  "Options \x7b plugins: [" ++ names ++ "], validate: " ++ (if o.validate then "true" else "false")
    ++ " \x7d"

/-- Why a text could not be converted. -/
inductive ConvertError where
  | parse (error : ParseError)
  | plugin (failure : Failure)
deriving DecidableEq

def ConvertError.message : ConvertError → String
  | parse error => error.display
  | plugin failure => failure.message

/-- The outcome of a conversion, and what was noted on the way. -/
structure Conversion where
  result : Except ConvertError Rendered
  log : List Log.Entry := []

/-- Adds the result of the output check to a rendered text. -/
def Rendered.validated (r : Rendered) : Rendered × Log.Event :=
  let (problem, event) := Downlevel.validate r.code
  ({ r with warnings := r.warnings ++ problem.toList }, event)

/-- Moves a rendered text under its directive line. -/
def Rendered.under (r : Rendered) (split : Directive.Split) : Rendered where
  code := String.ofList (Directive.reattach split.directive r.code.toList)
  warnings := r.warnings.map (·.shift split.lineOffset)

/-- Converts a module whose source had its directive taken off. -/
def Module.convert (m : Module) (split : Directive.Split) (options : Options) : Conversion :=
  match m.runAll options.plugins with
  | (.error e, m) => { result := .error (.plugin e), log := m.log }
  | (.ok (), m) =>
    let (rendered, checks) :=
      if options.validate then
        let (rendered, event) := m.render.validated
        (rendered, [event])
      else (m.render, [])
    let rendered := rendered.under split
    let ends := .conversionFinished options.plugins.length rendered.warnings.length
    { result := .ok rendered
      log := m.log ++ (checks ++ [ends]).map fun event => { event } }

/-- Converts a source text. -/
def convert (source : String) (options : Options := {}) : Conversion :=
  let split := Directive.strip source.toList
  match Module.ofSource (String.ofList split.body) with
  | .error e => { result := .error (.parse (e.shift split.lineOffset)) }
  | .ok m => m.convert split options

/-- Converts with a bare list of passes. Deprecated: give the passes in options. -/
def convertWith (source : String) (plugins : List Pass) : Conversion :=
  let c := convert source { plugins }
  { c with log := { event := .deprecatedPluginList } :: c.log }

end Downlevel
