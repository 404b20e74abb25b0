import Downlevel.Source.Position
import Downlevel.Syntax.Tree

/-!
# Rules of the grammar

The rules a syntax error can name, in the order in which a message lists them, and what each yields.
A rule for a statement or an expression yields a tree, or the first fault among its parts: a text
can match the grammar and still be no program, because of an assignment to something that is no
place, or a rest parameter in the wrong spot.
-/

namespace Downlevel

inductive Rule where
  | endOfInput
  | program
  | declaration
  | declarationKeyword
  | declarator
  | functionDeclaration
  | params
  | param
  | restMarker
  | returnStatement
  | ifStatement
  | whileStatement
  | block
  | emptyStatement
  | expressionStatement
  | expression
  | assignment
  | arrowFunction
  | arrowParams
  | arrowBody
  | logicalOr
  | logicalAnd
  | equality
  | relational
  | additive
  | multiplicative
  | exponent
  | unary
  | orOperator
  | andOperator
  | equalityOperator
  | relationalOperator
  | additiveOperator
  | multiplicativeOperator
  | powerOperator
  | unaryOperator
  | postfixChain
  | callArguments
  | memberSuffix
  | indexSuffix
  | functionExpression
  | array
  | object
  | methodProperty
  | keyedProperty
  | shorthandProperty
  | propertyKey
  | number
  | string
  | template
  | templateChars
  | templateSubstitution
  | boolean
  | null
  | this
  | varKeyword
  | letKeyword
  | constKeyword
  | functionKeyword
  | returnKeyword
  | ifKeyword
  | elseKeyword
  | whileKeyword
  | identifier
  | propertyName
deriving DecidableEq

namespace Rule

/-- The name of a rule in a message. -/
def label : Rule → String
  | endOfInput => "EOI"
  | program => "program"
  | declaration => "var_decl"
  | declarationKeyword => "decl_kind"
  | declarator => "declarator"
  | functionDeclaration => "function_decl"
  | params => "params"
  | param => "param"
  | restMarker => "rest_marker"
  | returnStatement => "return_stmt"
  | ifStatement => "if_stmt"
  | whileStatement => "while_stmt"
  | block => "block"
  | emptyStatement => "empty_stmt"
  | expressionStatement => "expr_stmt"
  | expression => "expr"
  | assignment => "assignment"
  | arrowFunction => "arrow_function"
  | arrowParams => "arrow_params"
  | arrowBody => "arrow_body"
  | logicalOr => "logical_or"
  | logicalAnd => "logical_and"
  | equality => "equality"
  | relational => "relational"
  | additive => "additive"
  | multiplicative => "multiplicative"
  | exponent => "exponent"
  | unary => "unary"
  | orOperator => "op_or"
  | andOperator => "op_and"
  | equalityOperator => "op_eq"
  | relationalOperator => "op_rel"
  | additiveOperator => "op_add"
  | multiplicativeOperator => "op_mul"
  | powerOperator => "op_pow"
  | unaryOperator => "op_unary"
  | postfixChain => "postfix"
  | callArguments => "call_args"
  | memberSuffix => "member_suffix"
  | indexSuffix => "index_suffix"
  | functionExpression => "function_expr"
  | array => "array"
  | object => "object"
  | methodProperty => "method_property"
  | keyedProperty => "keyed_property"
  | shorthandProperty => "shorthand_property"
  | propertyKey => "property_key"
  | number => "number"
  | string => "string"
  | template => "template"
  | templateChars => "template_chars"
  | templateSubstitution => "template_sub"
  | boolean => "boolean"
  | null => "null"
  | this => "this"
  | varKeyword => "kw_var"
  | letKeyword => "kw_let"
  | constKeyword => "kw_const"
  | functionKeyword => "kw_function"
  | returnKeyword => "kw_return"
  | ifKeyword => "kw_if"
  | elseKeyword => "kw_else"
  | whileKeyword => "kw_while"
  | identifier => "ident"
  | propertyName => "property_name"

/-- Every rule, in the order in which a message lists them. -/
def all : List Rule :=
  [endOfInput, program, declaration, declarationKeyword, declarator, functionDeclaration, params,
    param, restMarker, returnStatement, ifStatement, whileStatement, block, emptyStatement,
    expressionStatement, expression, assignment, arrowFunction, arrowParams, arrowBody, logicalOr,
    logicalAnd, equality, relational, additive, multiplicative, exponent, unary, orOperator,
    andOperator, equalityOperator, relationalOperator, additiveOperator, multiplicativeOperator,
    powerOperator, unaryOperator, postfixChain, callArguments, memberSuffix, indexSuffix,
    functionExpression, array, object, methodProperty, keyedProperty, shorthandProperty,
    propertyKey, number, string, template, templateChars, templateSubstitution, boolean, null,
    this, varKeyword, letKeyword, constKeyword, functionKeyword, returnKeyword, ifKeyword,
    elseKeyword, whileKeyword, identifier, propertyName]

end Rule

/-- What can be wrong with a text that matches the grammar. -/
inductive Fault.Cause where
  | unknownOperator
  | invalidAssignmentTarget
  | restNotLast
  | restWithDefault
deriving DecidableEq

def Fault.Cause.message : Fault.Cause → String
  | unknownOperator => "unknown operator"
  | invalidAssignmentTarget => "invalid assignment target"
  | restNotLast => "rest parameter must be last"
  | restWithDefault => "rest parameter cannot have a default value"

structure Fault where
  cause : Fault.Cause
  offset : Nat
deriving DecidableEq

/-- A syntax tree that still names places by offsets. -/
abbrev RawTree := Tree Range

/-- A tree, or the first fault met while putting it together. -/
abbrev Built := Except Fault RawTree

/-- A word or literal, and where it stands. -/
structure Token where
  range : Range
  text : String

/-- An operator as it is written, with any blanks the grammar counts to it, and where it starts. -/
structure OperatorText where
  offset : Nat
  chars : List Char

/-- A parameter before it is known whether it may stand where it does. -/
structure ParamText where
  range : Range
  rest : Bool
  name : String
  fallback : Option Built

/-- What follows an operand: call arguments, a property, or an index. -/
inductive Suffix where
  | call (range : Range) (arguments : List Built)
  | member (range : Range) (name : String)
  | index (range : Range) (key : Built)

/-- A piece of a template. -/
inductive TemplatePart where
  | chars (text : String)
  | substitution (value : Built)

/-- What a rule yields. -/
abbrev Rule.Value : Rule → Type
  | .endOfInput | .restMarker => Unit
  | .varKeyword | .letKeyword | .constKeyword | .functionKeyword | .returnKeyword | .ifKeyword
  | .elseKeyword | .whileKeyword => Unit
  | .number | .string | .boolean | .null | .this | .identifier | .propertyName => Token
  | .declarationKeyword => DeclKind
  | .params | .arrowParams => Except Fault (List RawTree)
  | .param => ParamText
  | .orOperator | .andOperator | .equalityOperator | .relationalOperator | .additiveOperator
  | .multiplicativeOperator | .powerOperator => OperatorText
  | .unaryOperator => UnaryOp
  | .callArguments | .memberSuffix | .indexSuffix => Suffix
  | .propertyKey => PropertyKey
  | .templateChars | .templateSubstitution => TemplatePart
  | .program | .declaration | .declarator | .functionDeclaration | .returnStatement
  | .ifStatement | .whileStatement | .block | .emptyStatement | .expressionStatement
  | .expression | .assignment | .arrowFunction | .arrowBody | .logicalOr | .logicalAnd
  | .equality | .relational | .additive | .multiplicative | .exponent | .unary | .postfixChain
  | .functionExpression | .array | .object | .methodProperty | .keyedProperty
  | .shorthandProperty | .template => Built

end Downlevel
