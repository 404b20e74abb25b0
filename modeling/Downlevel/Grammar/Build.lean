import Downlevel.Grammar.Lexeme
import Downlevel.Grammar.Rule

/-!
# Putting trees together

How the values of a rule's parts make up the value of the rule. Parts are looked at in source order,
so of two faults the earlier one is reported.
-/

namespace Downlevel

namespace Build

def node (range : Range) (kind : Kind RawTree) : Built :=
  .ok (.node range kind)

/-- The trees of a list, or the first fault among them. -/
def all (parts : List Built) : Except Fault (List RawTree) :=
  parts.mapM id

def maybe (part : Option Built) : Except Fault (Option RawTree) :=
  part.mapM id

/-! ## Statements -/

def program (body : List Built) (range : Range) : Built :=
  return .node range (.program (← all body))

def declaration (keyword : DeclKind) (declarators : List Built) (range : Range) : Built :=
  return .node range (.declaration keyword (← all declarators))

def declarator (name : Token) (init : Option Built) (range : Range) : Built :=
  return .node range (.declarator name.text (← maybe init))

/-- Checks the parameters of a function from left to right. A rest parameter has no default and no
parameter after it. -/
def params : List ParamText → Except Fault (List RawTree)
  | [] => return []
  | p :: ps => do
    let fallback ← maybe p.fallback
    if p.rest && !ps.isEmpty then throw ⟨.restNotLast, p.range.start⟩
    if p.rest && fallback.isSome then throw ⟨.restWithDefault, p.range.start⟩
    let later ← params ps
    return .node p.range (.param p.name fallback p.rest) :: later

def functionDeclaration (name : Token) (params : Except Fault (List RawTree)) (body : Built)
    (range : Range) : Built :=
  return .node range (.functionDeclaration name.text (← params) (← body))

def returnStatement (argument : Option Built) (range : Range) : Built :=
  return .node range (.returnStatement (← maybe argument))

def ifStatement (test consequent : Built) (alternate : Option Built) (range : Range) : Built :=
  return .node range (.ifStatement (← test) (← consequent) (← maybe alternate))

def whileStatement (test body : Built) (range : Range) : Built :=
  return .node range (.whileStatement (← test) (← body))

def block (body : List Built) (range : Range) : Built :=
  return .node range (.block (← all body))

def expressionStatement (expression : Built) (range : Range) : Built :=
  return .node range (.expressionStatement (← expression))

/-! ## Expressions -/

/-- An expression, or an assignment to it if a value follows. -/
def assignment (target : Built) (value : Option Built) (range : Range) : Built :=
  match value with
  | none => target
  | some value => do
    let target ← target
    if !target.kind.isPlace then throw ⟨.invalidAssignmentTarget, range.start⟩
    return .node range (.assign target (← value))

/-- The one parameter of an arrow function written without parentheses. -/
def bareParam (name : Token) : Except Fault (List RawTree) :=
  return [.node name.range (.param name.text none false)]

def arrowFunction (params : Except Fault (List RawTree)) (body : Built) (range : Range) : Built :=
  return .node range (.arrowFunction (← params) (← body))

/-- The operator meant. Blanks after it do not matter, but a comment there does. -/
def operator (text : OperatorText) : Except Fault BinaryOp :=
  let chars := (text.chars.reverse.dropWhile Lexeme.isSpace).reverse
  match BinaryOp.ofSymbol? (String.ofList chars) with
  | some op => .ok op
  | none => .error ⟨.unknownOperator, text.offset⟩

def binary (left : Built) (step : OperatorText × Built) : Built := do
  let left ← left
  let op ← operator step.1
  let right ← step.2
  return .node (left.ann.to right.ann) (.binary op left right)

/-- Operators of one strength group to the left. -/
def binaryChain (first : Built) (steps : List (OperatorText × Built)) : Built :=
  steps.foldl binary first

/-- The power operator groups to the right. -/
def exponent (base : Built) (power : Option Built) (range : Range) : Built :=
  match power with
  | none => base
  | some power => return .node range (.binary .power (← base) (← power))

def unary (op : UnaryOp) (argument : Built) (range : Range) : Built :=
  return .node range (.unary op (← argument))

def suffixed (base : Built) (suffix : Suffix) : Built := do
  let base ← base
  match suffix with
  | .call range arguments => return .node (base.ann.to range) (.call base (← all arguments))
  | .member range name => return .node (base.ann.to range) (.member base name)
  | .index range key => return .node (base.ann.to range) (.index base (← key))

def postfixChain (first : Built) (suffixes : List Suffix) : Built :=
  suffixes.foldl suffixed first

def functionExpression (name : Option Token) (params : Except Fault (List RawTree)) (body : Built)
    (range : Range) : Built :=
  return .node range (.functionExpression (name.map Token.text) (← params) (← body))

def array (elements : List Built) (range : Range) : Built :=
  return .node range (.array (← all elements))

def object (properties : List Built) (range : Range) : Built :=
  return .node range (.object (← all properties))

def methodProperty (key : PropertyKey) (params : Except Fault (List RawTree)) (body : Built)
    (range : Range) : Built := do
  let value := .node range (.functionExpression none (← params) (← body))
  return .node range (.property key value false true)

def keyedProperty (key : PropertyKey) (value : Built) (range : Range) : Built :=
  return .node range (.property key (← value) false false)

def shorthandProperty (name : Token) (range : Range) : Built :=
  node range (.property (.identifier name.text) (.node range (.identifier name.text)) true false)

/-- The texts and the substitutions of a template, of which `text` has been read already: there is
one text more than there are substitutions. -/
def templateParts (text : String) :
    List TemplatePart → Except Fault (List String × List RawTree)
  | [] => return ([text], [])
  | .chars more :: parts => templateParts (text ++ more) parts
  | .substitution value :: parts => do
    let value ← value
    let (texts, values) ← templateParts "" parts
    return (text :: texts, value :: values)

def template (parts : List TemplatePart) (range : Range) : Built := do
  let (texts, values) ← templateParts "" parts
  return .node range (.template texts values)

end Build

end Downlevel
