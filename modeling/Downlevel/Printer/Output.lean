import Downlevel.Diagnostic
import Downlevel.Grammar.Lexeme
import Downlevel.Source.Position
import Downlevel.Syntax.Kind

/-!
# Printed text and the places of nodes

Printing adds to an `Output`. Every kind of node has one text of its own; the `Role` in which a node
is printed decides whether it fits there at all, and which parentheses and signs stand around it.
-/

namespace Downlevel

/-- What has been printed so far, and how far the next line is indented. The text is kept last
character first, where it grows. -/
structure Output where
  reversed : List Char := []
  indent : Nat := 0
  warnings : List Diagnostic := []

/-- A line end and the indentation of the next line. -/
def lineBreak (indent : Nat) : List Char :=
  '\n' :: List.replicate (2 * indent) ' '

/-- What stands between the parts of a list. -/
inductive Separator where
  | comma
  | line
deriving DecidableEq

def Separator.text (indent : Nat) : Separator → List Char
  | comma => ", ".toList
  | line => lineBreak indent

namespace Output

/-- The text in reading order. -/
def text (out : Output) : List Char :=
  out.reversed.reverse

def writeChars (out : Output) (cs : List Char) : Output :=
  { out with reversed := cs.reverseAux out.reversed }

def write (out : Output) (s : String) : Output :=
  out.writeChars s.toList

def separate (out : Output) (sep : Separator) : Output :=
  out.writeChars (sep.text out.indent)

/-- Prints with `f` between two texts. -/
def between (out : Output) (left right : String) (f : Output → Output) : Output :=
  (f (out.write left)).write right

/-- Prints with `f`, in parentheses if there is a `need` for them. -/
def groupIf (out : Output) (need : Bool) (f : Output → Output) : Output :=
  if need then out.between "(" ")" f else f out

/-! ### Going back -/

/-- How many bytes have been printed. -/
def size (out : Output) : Nat :=
  out.reversed.foldl (fun n c => n + c.utf8Size) 0

/-- Cuts a text, given last character first, `n` bytes before its end. What stands behind the cut comes
in reading order, with `later` after it. -/
def cutBack : Nat → List Char → List Char → List Char × List Char
  | 0, later, cs => (later, cs)
  | _, later, [] => (later, [])
  | n, later, c :: cs => cutBack (n - c.utf8Size) (c :: later) cs

/-- What has been printed from byte `start` on. -/
def since (out : Output) (start : Nat) : List Char :=
  (cutBack (out.size - start) [] out.reversed).1

/-- Puts a character in front of what has been printed from byte `start` on. -/
def insert (out : Output) (start : Nat) (c : Char) : Output :=
  let (later, earlier) := cutBack (out.size - start) [] out.reversed
  { out with reversed := later.reverseAux (c :: earlier) }

/-- Prints with `f`, and then puts parentheses around what that has added if it satisfies `p`. -/
def parenthesizeIf (out : Output) (p : List Char → Bool) (f : Output → Output) : Output :=
  let start := out.size
  let printed := f out
  if p (printed.since start) then (printed.insert start '(').write ")" else printed

/-! ### Lines -/

/-- Prints with `f` one level deeper. -/
def indented (out : Output) (f : Output → Output) : Output :=
  let printed := f { out with indent := out.indent + 1 }
  { printed with indent := printed.indent - 1 }

/-- Prints lines with `f` between braces. -/
def braces (out : Output) (f : Output → Output) : Output :=
  (((out.write "\x7b").indented f).separate .line).write "\x7d"

end Output

/-- A node that cannot be printed as it stands. -/
inductive Misfit where
  | statement (node : String)
  | expression (node : String)
  | declarator (node : String)
  | param (node : String)
  | property (node : String)
  | shorthand (key : String)
  | method (key : String)

def Misfit.message : Misfit → String
  | statement node => "cannot render " ++ node ++ " as a statement"
  | expression node => "cannot render " ++ node ++ " as an expression"
  | declarator node => "expected a declarator, found " ++ node
  | param node => "expected a parameter, found " ++ node
  | property node => "expected a property, found " ++ node
  | shorthand key => "property `" ++ key ++ "` cannot be written in shorthand form"
  | method key => "property `" ++ key ++ "` cannot be written as a method"

/-- The kind of diagnostic for a node that was not printed as it stands. -/
def renderFallback : String := "render-fallback"

def Output.misfit (out : Output) (span : Span) (m : Misfit) : Output :=
  { out with
    warnings :=
      out.warnings ++ [⟨renderFallback, m.message, span.start.line, span.start.column⟩] }

/-! ## Binding strength -/

namespace Precedence

def assign : Nat := 1
def unary : Nat := 9
def suffix : Nat := 10
def primary : Nat := 11

end Precedence

/-- How strongly an operator binds; more is stronger. -/
def BinaryOp.precedence : BinaryOp → Nat
  | or => 2
  | and => 3
  | equal | notEqual => 4
  | lessThan | lessEqual | greaterThan | greaterEqual => 5
  | add | subtract => 6
  | multiply | divide | modulo => 7
  | power => 8

/-- How strongly the operands of an operator must bind to stand without parentheses. Only the power
operator groups to the right, and its base may not be a sign. -/
def BinaryOp.operandPrecedence (op : BinaryOp) : Nat × Nat :=
  match op with
  | power => (Precedence.suffix, op.precedence)
  | _ => (op.precedence, op.precedence + 1)

def Kind.precedence {α : Type} : Kind α → Nat
  | assign .. | arrowFunction .. => Precedence.assign
  | binary op _ _ => op.precedence
  | unary .. => Precedence.unary
  | member .. | index .. | call .. => Precedence.suffix
  | _ => Precedence.primary

/-! ## Roles -/

/-- What a node is printed as. An expression must bind at least as strongly as `min`, or is put in
parentheses. -/
inductive Role where
  | statement
  | expression (min : Nat)
  | declarator
  | param
  | property
deriving DecidableEq

/-- Whether an expression would be read as a block or a declaration if a statement started with
it. -/
def readsAsStatement (text : List Char) : Bool :=
  ['\x7b'].isPrefixOf text || Lexeme.word text = "function".toList

/-- Prints an expression as a statement. -/
def Output.writeAsStatement (out : Output) (own : Output → Output) : Output :=
  (out.parenthesizeIf readsAsStatement own).write ";"

/-- Prints a node in a role, given how its own text is printed. -/
def Role.place {α : Type} (role : Role) (span : Span) (kind : Kind α) (own : Output → Output)
    (out : Output) : Output :=
  match role, kind.category with
  | .statement, .statement | .statement, .program => own out
  | .statement, .expression => out.writeAsStatement own
  | .statement, _ => out.misfit span (.statement kind.describe)
  | .expression min, .expression => out.groupIf (kind.precedence < min) own
  | .expression min, _ =>
    out.groupIf (kind.precedence < min) (·.misfit span (.expression kind.describe))
  | .declarator, .declarator => own out
  | .declarator, _ => out.misfit span (.declarator kind.describe)
  | .param, .param => own out
  | .param, _ =>
    if kind.identifierName?.isSome then own out else out.misfit span (.param kind.describe)
  | .property, .property => own out
  | .property, _ => out.misfit span (.property kind.describe)

end Downlevel
