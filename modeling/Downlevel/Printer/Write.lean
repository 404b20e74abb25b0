import Downlevel.Printer.Output
import Downlevel.Syntax.Store

/-!
# Printing trees

The printed form is canonical: two spaces for each level, one statement on a line, and only the
parentheses that binding strength asks for. What cannot be printed as it stands is left out or
printed in its long form, with a warning.
-/

namespace Downlevel

def startsWithBrace (text : List Char) : Bool :=
  ['\x7b'].isPrefixOf text

namespace Tree

mutual

/-- Prints a tree in a role. -/
def write : Tree Span → Role → Output → Output
  | node span kind, role, out => role.place span kind (writeOwn span kind) out

/-- Prints trees in one role, with a separator between them; `first` says that none stands before the
first. -/
def writeAll (sep : Separator) (role : Role) : Bool → List (Tree Span) → Output → Output
  | _, [], out => out
  | first, t :: ts, out =>
    writeAll sep role false ts (write t role (if first then out else out.separate sep))

/-- Prints the texts of a template, each followed by its substitution if there is one. -/
def writeTemplate : List (Tree Span) → List String → Output → Output
  | [], texts, out => texts.foldl Output.write out
  | _ :: _, [], out => out
  | t :: ts, text :: texts, out =>
    writeTemplate ts texts
      ((out.write text).between "$\x7b" "\x7d" (write t (.expression Precedence.assign)))

/-- Prints parameters in parentheses. -/
def writeParams : List (Tree Span) → Output → Output
  | [], out => out.write "()"
  | t :: ts, out =>
    out.between "(" ")" fun out => writeAll .comma .param false ts (write t .param out)

/-- Prints statements between braces, each on a line of its own. -/
def writeBlock : List (Tree Span) → Output → Output
  | [], out => out.write "\x7b\x7d"
  | t :: ts, out =>
    out.braces fun out =>
      writeAll .line .statement false ts (write t .statement (out.separate .line))

/-- Prints a statement between braces, which a block has already. -/
def writeBraced : Tree Span → Output → Output
  | node _ (.block body), out => writeBlock body out
  | node span kind, out =>
    out.braces fun out => Role.statement.place span kind (writeOwn span kind) (out.separate .line)

def writeMaybe (before : String) (role : Role) : Option (Tree Span) → Output → Output
  | none, out => out
  | some t, out => write t role (out.write before)

/-- Prints the text that belongs to a node, wherever it stands. -/
def writeOwn (span : Span) : Kind (Tree Span) → Output → Output
  -- Statements
  | .program body, out => writeAll .line .statement true body out
  | .declaration keyword declarators, out =>
    (writeAll .comma .declarator true declarators
      ((out.write keyword.keyword).write " ")).write ";"
  | .declarator name init, out =>
    writeMaybe " = " (.expression Precedence.assign) init (out.write name)
  | .functionDeclaration name params body, out =>
    write body .statement
      ((writeParams params ((out.write "function ").write name)).write " ")
  | .returnStatement argument, out =>
    (writeMaybe " " (.expression Precedence.assign) argument (out.write "return")).write ";"
  | .ifStatement test consequent none, out =>
    write consequent .statement
      (out.between "if (" ") " (write test (.expression Precedence.assign)))
  | .ifStatement test consequent (some alternate), out =>
    -- Without braces a nested conditional would take the alternative
    write alternate .statement
      ((writeBraced consequent
        (out.between "if (" ") " (write test (.expression Precedence.assign)))).write " else ")
  | .whileStatement test body, out =>
    write body .statement
      (out.between "while (" ") " (write test (.expression Precedence.assign)))
  | .block body, out => writeBlock body out
  | .expressionStatement expression, out =>
    out.writeAsStatement (write expression (.expression Precedence.assign))
  | .empty, out => out.write ";"
  | .param name fallback rest, out =>
    writeMaybe " = " (.expression Precedence.assign) fallback
      ((if rest then out.write "..." else out).write name)
  -- Literals and names
  | .number raw, out => out.write raw
  | .string raw, out => ((out.write "\"").write raw).write "\""
  | .boolean value, out => out.write (if value then "true" else "false")
  | .null, out => out.write "null"
  | .template texts expressions, out => out.between "`" "`" (writeTemplate expressions texts)
  | .identifier name, out => out.write name
  | .this, out => out.write "this"
  -- Collections
  | .array elements, out =>
    out.between "[" "]" (writeAll .comma (.expression Precedence.assign) true elements)
  | .object [], out => out.write "\x7b\x7d"
  | .object (t :: ts), out =>
    out.between "\x7b " " \x7d" (writeAll .comma .property true (t :: ts))
  | .property key value shorthand method, out =>
    if shorthand && key = .identifier key.name && value.kind.identifierName? = some key.name then
      out.write key.name
    else
      let out := if shorthand then out.misfit span (.shorthand key.text) else out
      match method, value with
      | true, node _ (.functionExpression _ params body) =>
        write body .statement ((writeParams params (out.write key.text)).write " ")
      | _, value =>
        let out := if method then out.misfit span (.method key.text) else out
        write value (.expression Precedence.assign) ((out.write key.text).write ": ")
  -- Functions
  | .functionExpression name params body, out =>
    write body .statement
      ((writeParams params ((out.write "function ").write (name.getD ""))).write " ")
  | .arrowFunction params (node s (.block body)), out =>
    write (node s (.block body)) .statement ((writeParams params out).write " => ")
  | .arrowFunction params body, out =>
    ((writeParams params out).write " => ").parenthesizeIf startsWithBrace
      (write body (.expression Precedence.assign))
  -- Operations
  | .member base name, out =>
    ((write base (.expression Precedence.suffix) out).write ".").write name
  | .index base key, out =>
    (write base (.expression Precedence.suffix) out).between "[" "]"
      (write key (.expression Precedence.assign))
  | .call callee arguments, out =>
    (write callee (.expression Precedence.suffix) out).between "(" ")"
      (writeAll .comma (.expression Precedence.assign) true arguments)
  | .binary op left right, out =>
    write right (.expression op.operandPrecedence.2)
      ((((write left (.expression op.operandPrecedence.1) out).write " ").write
        op.symbol).write " ")
  | .unary op argument, out =>
    write argument (.expression Precedence.unary) (out.write op.symbol)
  | .assign target value, out =>
    write value (.expression Precedence.assign)
      ((write target (.expression Precedence.suffix) out).write " = ")

end

/-- Prints a whole program, one statement to a line. A tree that is no program is printed as a
single statement. -/
def print (t : Tree Span) : Output :=
  let statements := match t.kind with
    | .program body => body
    | _ => [t]
  statements.foldl (fun out s => (s.write .statement out).write "\n") {}

end Tree

/-- The text of the tree that the root leads to. -/
def Store.render (s : Store) : Rendered :=
  let out := s.toTree.print
  ⟨String.ofList out.text, out.warnings⟩

end Downlevel
