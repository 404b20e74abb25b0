/-!
# Dialects

The next dialect is everything the grammar covers. The stable dialect leaves out the constructs that
`Feature` lists.
-/

namespace Downlevel

inductive Dialect where
  | next
  | stable
deriving DecidableEq, Inhabited

namespace Dialect

def name : Dialect → String
  | next => "next"
  | stable => "stable"

/-- The name of the parser that accepts a dialect. -/
def parserName : Dialect → String
  | next => "echo-next"
  | stable => "echo-stable"

/-- A name that stands for no dialect or no parser. -/
inductive Unknown where
  | dialect (name : String)
  | parser (name : String)
deriving DecidableEq

def Unknown.message : Unknown → String
  | dialect name => "Unknown dialect: " ++ name
  | parser name => "Unknown parser type: " ++ name

def ofName (name : String) : Except Unknown Dialect :=
  match name with
  | "next" => .ok next
  | "stable" => .ok stable
  | _ => .error (.dialect name)

/-- The dialect that the parser of this name accepts. -/
def ofParserName (name : String) : Except Unknown Dialect :=
  match name with
  | "echo" | "echo-next" => .ok next
  | "echo-stable" => .ok stable
  | _ => .error (.parser name)

end Dialect

end Downlevel
