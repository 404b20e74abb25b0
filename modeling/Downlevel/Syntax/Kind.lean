/-!
# Kinds of nodes

`Kind α` says what a node of a syntax tree is, over children of type `α`: node numbers in a store,
trees in a tree. What can be read off one node alone is defined here once for both: its children in
source order, its class, and the construct of the next dialect it uses, if any.
-/

namespace Downlevel

/-- The keyword of a variable declaration. -/
inductive DeclKind where
  | var
  | let
  | const
deriving DecidableEq

def DeclKind.keyword : DeclKind → String
  | .var => "var"
  | .let => "let"
  | .const => "const"

inductive BinaryOp where
  | or
  | and
  | equal
  | notEqual
  | lessThan
  | lessEqual
  | greaterThan
  | greaterEqual
  | add
  | subtract
  | multiply
  | divide
  | modulo
  | power
deriving DecidableEq

namespace BinaryOp

def symbol : BinaryOp → String
  | or => "||"
  | and => "&&"
  | equal => "=="
  | notEqual => "!="
  | lessThan => "<"
  | lessEqual => "<="
  | greaterThan => ">"
  | greaterEqual => ">="
  | add => "+"
  | subtract => "-"
  | multiply => "*"
  | divide => "/"
  | modulo => "%"
  | power => "**"

/-- Every binary operator. -/
def all : List BinaryOp :=
  [or, and, equal, notEqual, lessThan, lessEqual, greaterThan, greaterEqual, add, subtract,
    multiply, divide, modulo, power]

/-- The operator written as `symbol`. -/
def ofSymbol? (symbol : String) : Option BinaryOp :=
  all.find? (·.symbol = symbol)

end BinaryOp

inductive UnaryOp where
  | not
  | minus
deriving DecidableEq

def UnaryOp.symbol : UnaryOp → String
  | .not => "!"
  | .minus => "-"

/-- The key of an object property: a bare name, or a quoted string kept with its escapes. -/
inductive PropertyKey where
  | identifier (name : String)
  | string (raw : String)
deriving DecidableEq

namespace PropertyKey

/-- The key without its quotes. -/
def name : PropertyKey → String
  | identifier name => name
  | string raw => raw

/-- The key as it is written. -/
def text : PropertyKey → String
  | identifier name => name
  | string raw => "\"" ++ raw ++ "\""

end PropertyKey

/-- A construct that only the next dialect has. -/
inductive Feature where
  | letDeclaration
  | constDeclaration
  | arrowFunction
  | templateLiteral
  | restParameter
  | defaultParameter
  | shorthandProperty
  | conciseMethod
  | powerOperator
deriving DecidableEq

def Feature.text : Feature → String
  | letDeclaration => "`let` declarations"
  | constDeclaration => "`const` declarations"
  | arrowFunction => "arrow functions"
  | templateLiteral => "template literals"
  | restParameter => "rest parameters"
  | defaultParameter => "default parameters"
  | shorthandProperty => "shorthand properties"
  | conciseMethod => "concise methods"
  | powerOperator => "the `**` operator"

/-- What a node is, over children of type `α`. Numbers and the contents of strings and templates
are kept as written. -/
inductive Kind (α : Type) where
  | program (body : List α)
  | declaration (keyword : DeclKind) (declarators : List α)
  | declarator (name : String) (init : Option α)
  | functionDeclaration (name : String) (params : List α) (body : α)
  | returnStatement (argument : Option α)
  | ifStatement (test consequent : α) (alternate : Option α)
  | whileStatement (test body : α)
  | block (body : List α)
  | expressionStatement (expression : α)
  | empty
  | param (name : String) (fallback : Option α) (rest : Bool)
  | number (raw : String)
  | string (raw : String)
  | boolean (value : Bool)
  | null
  | template (quasis : List String) (expressions : List α)
  | identifier (name : String)
  | this
  | array (elements : List α)
  | object (properties : List α)
  | property (key : PropertyKey) (value : α) (shorthand method : Bool)
  | functionExpression (name : Option String) (params : List α) (body : α)
  | arrowFunction (params : List α) (body : α)
  | member (base : α) (name : String)
  | index (base key : α)
  | call (callee : α) (arguments : List α)
  | binary (op : BinaryOp) (left right : α)
  | unary (op : UnaryOp) (argument : α)
  | assign (target value : α)
deriving DecidableEq

namespace Kind

variable {α β : Type}

instance : Inhabited (Kind α) := ⟨empty⟩

/-- The children of a node, in source order. -/
def children : Kind α → List α
  | program body | block body => body
  | declaration _ declarators => declarators
  | declarator _ init => init.toList
  | functionDeclaration _ params body | functionExpression _ params body
  | arrowFunction params body => params ++ [body]
  | returnStatement argument => argument.toList
  | ifStatement test consequent alternate => test :: consequent :: alternate.toList
  | whileStatement test body => [test, body]
  | expressionStatement expression => [expression]
  | param _ fallback _ => fallback.toList
  | template _ expressions => expressions
  | array elements => elements
  | object properties => properties
  | property _ value _ _ => [value]
  | member base _ => [base]
  | index base key => [base, key]
  | call callee arguments => callee :: arguments
  | binary _ left right => [left, right]
  | unary _ argument => [argument]
  | assign target value => [target, value]
  | empty | number _ | string _ | boolean _ | null | identifier _ | this => []

/-- The same kind over the images of its children. -/
def map (f : α → β) : Kind α → Kind β
  | program body => program (body.map f)
  | declaration keyword declarators => declaration keyword (declarators.map f)
  | declarator name init => declarator name (init.map f)
  | functionDeclaration name params body => functionDeclaration name (params.map f) (f body)
  | returnStatement argument => returnStatement (argument.map f)
  | ifStatement test consequent alternate =>
    ifStatement (f test) (f consequent) (alternate.map f)
  | whileStatement test body => whileStatement (f test) (f body)
  | block body => block (body.map f)
  | expressionStatement expression => expressionStatement (f expression)
  | empty => empty
  | param name fallback rest => param name (fallback.map f) rest
  | number raw => number raw
  | string raw => string raw
  | boolean value => boolean value
  | null => null
  | template quasis expressions => template quasis (expressions.map f)
  | identifier name => identifier name
  | this => this
  | array elements => array (elements.map f)
  | object properties => object (properties.map f)
  | property key value shorthand method => property key (f value) shorthand method
  | functionExpression name params body => functionExpression name (params.map f) (f body)
  | arrowFunction params body => arrowFunction (params.map f) (f body)
  | member base name => member (f base) name
  | index base key => index (f base) (f key)
  | call callee arguments => call (f callee) (arguments.map f)
  | binary op left right => binary op (f left) (f right)
  | unary op argument => unary op (f argument)
  | assign target value => assign (f target) (f value)

/-- The same kind over the results of an action run on its children from left to right. -/
def mapM {m : Type → Type} [Monad m] (f : α → m β) : Kind α → m (Kind β)
  | program body => return program (← body.mapM f)
  | declaration keyword declarators => return declaration keyword (← declarators.mapM f)
  | declarator name init => return declarator name (← init.mapM f)
  | functionDeclaration name params body =>
    return functionDeclaration name (← params.mapM f) (← f body)
  | returnStatement argument => return returnStatement (← argument.mapM f)
  | ifStatement test consequent alternate =>
    return ifStatement (← f test) (← f consequent) (← alternate.mapM f)
  | whileStatement test body => return whileStatement (← f test) (← f body)
  | block body => return block (← body.mapM f)
  | expressionStatement expression => return expressionStatement (← f expression)
  | empty => return empty
  | param name fallback rest => return param name (← fallback.mapM f) rest
  | number raw => return number raw
  | string raw => return string raw
  | boolean value => return boolean value
  | null => return null
  | template quasis expressions => return template quasis (← expressions.mapM f)
  | identifier name => return identifier name
  | this => return this
  | array elements => return array (← elements.mapM f)
  | object properties => return object (← properties.mapM f)
  | property key value shorthand method => return property key (← f value) shorthand method
  | functionExpression name params body =>
    return functionExpression name (← params.mapM f) (← f body)
  | arrowFunction params body => return arrowFunction (← params.mapM f) (← f body)
  | member base name => return member (← f base) name
  | index base key => return index (← f base) (← f key)
  | call callee arguments => return call (← f callee) (← arguments.mapM f)
  | binary op left right => return binary op (← f left) (← f right)
  | unary op argument => return unary op (← f argument)
  | assign target value => return assign (← f target) (← f value)

/-- Where a node may stand. -/
inductive Category where
  | program
  | statement
  | expression
  | declarator
  | param
  | property
deriving DecidableEq

def category : Kind α → Category
  | program _ => .program
  | declaration .. | functionDeclaration .. | returnStatement _ | ifStatement ..
  | whileStatement .. | block _ | expressionStatement _ | empty => .statement
  | declarator .. => .declarator
  | param .. => .param
  | property .. => .property
  | number _ | string _ | boolean _ | null | template .. | identifier _ | this | array _
  | object _ | functionExpression .. | arrowFunction .. | member .. | index .. | call ..
  | binary .. | unary .. | assign .. => .expression

def isStatement (k : Kind α) : Bool :=
  k.category = .statement

/-- Whether the node opens a function scope. -/
def isFunction : Kind α → Bool
  | functionDeclaration .. | functionExpression .. | arrowFunction .. => true
  | _ => false

/-- Parameters and body of a function. -/
def signature? : Kind α → Option (List α × α)
  | functionDeclaration _ params body | functionExpression _ params body
  | arrowFunction params body => some (params, body)
  | _ => none

/-- A function with other parameters. -/
def withParams (k : Kind α) (params : List α) : Kind α :=
  match k with
  | functionDeclaration name _ body => functionDeclaration name params body
  | functionExpression name _ body => functionExpression name params body
  | arrowFunction _ body => arrowFunction params body
  | _ => k

/-- A function with another body. -/
def withBody (k : Kind α) (body : α) : Kind α :=
  match k with
  | functionDeclaration name params _ => functionDeclaration name params body
  | functionExpression name params _ => functionExpression name params body
  | arrowFunction params _ => arrowFunction params body
  | _ => k

def isBlock : Kind α → Bool
  | block _ => true
  | _ => false

/-- Whether the node names a place that can be assigned to. -/
def isPlace : Kind α → Bool
  | identifier _ | member .. | index .. => true
  | _ => false

/-- The construct of the next dialect this node uses by itself; its children are not inspected. -/
def feature? : Kind α → Option Feature
  | declaration .let _ => some .letDeclaration
  | declaration .const _ => some .constDeclaration
  | arrowFunction .. => some .arrowFunction
  | template .. => some .templateLiteral
  | param _ _ true => some .restParameter
  | param _ (some _) false => some .defaultParameter
  | property _ _ true _ => some .shorthandProperty
  | property _ _ false true => some .conciseMethod
  | binary .power _ _ => some .powerOperator
  | _ => none

/-- The name an identifier carries. -/
def identifierName? : Kind α → Option String
  | identifier name => some name
  | _ => none

/-- The key of a property. -/
def propertyKey? : Kind α → Option PropertyKey
  | property key .. => some key
  | _ => none

/-- How a node is named in a message: a leaf by its text, any other by its class. -/
def describe (k : Kind α) : String :=
  match k with
  | number raw => raw
  | string raw => "\"" ++ raw ++ "\""
  | boolean value => if value then "true" else "false"
  | null => "null"
  | identifier name => name
  | this => "this"
  | program _ => "<program>"
  | _ => if k.isStatement then "<statement>" else "<expression>"

/-- The name of a node's kind. -/
def tag : Kind α → String
  | program _ => "Program"
  | declaration .. => "VariableDeclaration"
  | declarator .. => "VariableDeclarator"
  | functionDeclaration .. => "FunctionDeclaration"
  | returnStatement _ => "Return"
  | ifStatement .. => "If"
  | whileStatement .. => "While"
  | block _ => "Block"
  | expressionStatement _ => "ExpressionStatement"
  | empty => "Empty"
  | param .. => "Param"
  | number _ => "Number"
  | string _ => "String"
  | boolean _ => "Boolean"
  | null => "Null"
  | template .. => "Template"
  | identifier _ => "Identifier"
  | this => "This"
  | array _ => "Array"
  | object _ => "Object"
  | property .. => "Property"
  | functionExpression .. => "FunctionExpression"
  | arrowFunction .. => "ArrowFunction"
  | member .. => "Member"
  | index .. => "Index"
  | call .. => "Call"
  | binary .. => "Binary"
  | unary .. => "Unary"
  | assign .. => "Assign"

end Kind

end Downlevel
