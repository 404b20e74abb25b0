/-!
# Log entries

What a conversion tells about its progress. Entries are part of its result; nothing is printed.
-/

namespace Downlevel.Log

inductive Level where
  | warn
  | debug
deriving DecidableEq

def Level.name : Level → String
  | warn => "WARN"
  | debug => "DEBUG"

inductive Event where
  | deprecatedPluginList
  | passFinished (nodes : Nat) (stopped : Bool)
  | declarationHoisted (keyword names : String)
  | outputValidated (bytes : Nat)
  | outputRejected (line column : Nat) (error : String)
  | conversionFinished (plugins warnings : Nat)
deriving DecidableEq

/-- The value of a field of an entry. -/
inductive Value where
  | number (n : Nat)
  | flag (b : Bool)
  | text (s : String)
deriving DecidableEq

namespace Event

def level : Event → Level
  | deprecatedPluginList => .warn
  | _ => .debug

def message : Event → String
  | deprecatedPluginList =>
    "convert(source, plugins) is deprecated, pass Options::default().with_plugins(plugins) instead"
  | passFinished .. => "pass finished"
  | declarationHoisted .. => "block-scoped declaration hoisted"
  | outputValidated _ => "output validated"
  | outputRejected .. => "output failed validation"
  | conversionFinished .. => "conversion finished"

def fields : Event → List (String × Value)
  | deprecatedPluginList => []
  | passFinished nodes stopped => [("nodes", .number nodes), ("stopped", .flag stopped)]
  | declarationHoisted keyword names => [("keyword", .text keyword), ("names", .text names)]
  | outputValidated bytes => [("bytes", .number bytes)]
  | outputRejected line column error =>
    [("line", .number line), ("column", .number column), ("error", .text error)]
  | conversionFinished plugins warnings =>
    [("plugins", .number plugins), ("warnings", .number warnings)]

end Event

/-- An event, and the plugin that was running. -/
structure Entry where
  event : Event
  plugin : Option String := none
deriving DecidableEq

end Downlevel.Log
