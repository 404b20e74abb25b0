import Downlevel.Peg.Basic
import Downlevel.Grammar.Build

/-!
# The grammar of Echo

One grammar covers both dialects. Declarations, loops and functions are statements; expressions are
given from the weakest binding operator to the strongest.
-/

namespace Downlevel

open Peg (lit optional list commaList ranged)

/-- A parsing expression over the rules of the grammar. -/
abbrev Phrase := Peg Rule.Value

namespace Phrase

def rule (r : Rule) : Phrase r.Value :=
  .call r id

/-- A lexeme, of which `text` is what counts, and its place. -/
def token (scan : List Char → Option Nat) (text : List Char → List Char) : Phrase Token :=
  .span (fun cs range => ⟨range, String.ofList (text cs)⟩) (.lexeme scan id)

def keyword (w : String) : Phrase Unit :=
  .lexeme (Lexeme.keyword w) fun _ => ()

/-- What an operator rule yields of the text it matches. -/
def operator (p : Phrase Unit) : Phrase OperatorText :=
  .slice (fun range cs => ⟨range.start, cs⟩) (.span (fun _ range => range) p)

/-- An expression that is a single token. -/
def leaf (p : Phrase Token) (kind : String → Kind RawTree) : Phrase Built :=
  (fun t => Build.node t.range (kind t.text)) <$> p

def statement : Phrase Built :=
  rule .declaration <|> rule .functionDeclaration <|> rule .returnStatement <|>
    rule .ifStatement <|> rule .whileStatement <|> rule .block <|> rule .emptyStatement <|>
    rule .expressionStatement

/-- The equals sign of an assignment, and not of a comparison or an arrow. -/
def assignSign : Phrase Unit :=
  lit "=" <* .absent ["=".toList, ">".toList] ()

/-- Operands joined by operators of one strength. -/
def chain (operand : Phrase Built) (op : Phrase OperatorText) : Phrase Built :=
  Build.binaryChain <$> operand <*> list (Prod.mk <$> op <*> operand)

/-- A value after an equals sign. -/
def init : Phrase Built :=
  lit "=" *> rule .expression

def primary : Phrase Built :=
  rule .functionExpression <|>
    (lit "(" *> rule .expression <* lit ")") <|>
    rule .template <|>
    leaf (rule .number) .number <|>
    leaf (rule .string) .string <|>
    leaf (rule .boolean) (fun text => .boolean (text = "true")) <|>
    leaf (rule .null) (fun _ => .null) <|>
    leaf (rule .this) (fun _ => .this) <|>
    rule .array <|>
    rule .object <|>
    leaf (rule .identifier) .identifier

def property : Phrase Built :=
  rule .methodProperty <|> rule .keyedProperty <|> rule .shorthandProperty

/-- What each rule stands for. -/
def body : (r : Rule) → Phrase r.Value
  | .endOfInput => .lexeme Lexeme.endOfInput fun _ => ()
  | .program =>
    ranged (Build.program <$> (.succeed () *> list statement <* rule .endOfInput))
  -- Statements
  | .declaration =>
    ranged (Build.declaration <$> rule .declarationKeyword <*> commaList (rule .declarator)
      <* lit ";")
  | .declarationKeyword =>
    (fun _ => .var) <$> rule .varKeyword <|> (fun _ => .let) <$> rule .letKeyword <|>
      (fun _ => .const) <$> rule .constKeyword
  | .declarator => ranged (Build.declarator <$> rule .identifier <*> optional init)
  | .functionDeclaration =>
    ranged (Build.functionDeclaration <$> (rule .functionKeyword *> rule .identifier)
      <*> rule .params <*> rule .block)
  | .params =>
    (fun params => Build.params (params.getD [])) <$>
      (lit "(" *> optional (commaList (rule .param)) <* lit ")")
  | .param =>
    ranged ((fun rest name fallback range => ⟨range, rest.isSome, name.text, fallback⟩) <$>
      optional (rule .restMarker) <*> rule .identifier <*> optional init)
  | .restMarker => lit "..."
  | .returnStatement =>
    ranged (Build.returnStatement <$> (rule .returnKeyword *> optional (rule .expression))
      <* lit ";")
  | .ifStatement =>
    ranged (Build.ifStatement <$> (rule .ifKeyword *> lit "(" *> rule .expression <* lit ")")
      <*> statement <*> optional (rule .elseKeyword *> statement))
  | .whileStatement =>
    ranged (Build.whileStatement <$> (rule .whileKeyword *> lit "(" *> rule .expression <* lit ")")
      <*> statement)
  | .block => ranged (Build.block <$> (lit "\x7b" *> list statement <* lit "\x7d"))
  | .emptyStatement => ranged ((fun _ range => Build.node range .empty) <$> lit ";")
  | .expressionStatement =>
    ranged (Build.expressionStatement <$> (.absent ["\x7b".toList] () *> rule .expression
      <* lit ";"))
  -- Expressions
  | .expression => rule .assignment
  | .assignment =>
    rule .arrowFunction <|>
      ranged (Build.assignment <$> rule .logicalOr
        <*> optional (assignSign *> rule .assignment))
  | .arrowFunction =>
    ranged (Build.arrowFunction <$> (rule .arrowParams <* lit "=>") <*> rule .arrowBody)
  | .arrowParams => Build.bareParam <$> rule .identifier <|> rule .params
  | .arrowBody => rule .block <|> rule .assignment
  | .logicalOr => chain (rule .logicalAnd) (rule .orOperator)
  | .logicalAnd => chain (rule .equality) (rule .andOperator)
  | .equality => chain (rule .relational) (rule .equalityOperator)
  | .relational => chain (rule .additive) (rule .relationalOperator)
  | .additive => chain (rule .multiplicative) (rule .additiveOperator)
  | .multiplicative => chain (rule .exponent) (rule .multiplicativeOperator)
  | .exponent =>
    ranged (Build.exponent <$> rule .unary
      <*> optional (rule .powerOperator *> rule .exponent))
  | .unary =>
    ranged (Build.unary <$> rule .unaryOperator <*> rule .unary) <|> rule .postfixChain
  | .orOperator => operator (lit "||")
  | .andOperator => operator (lit "&&")
  | .equalityOperator => operator (lit "==" <|> lit "!=")
  | .relationalOperator => operator (lit "<=" <|> lit ">=" <|> lit "<" <|> lit ">")
  | .additiveOperator => operator (lit "+" <|> lit "-")
  | .multiplicativeOperator =>
    operator (lit "*" <* .absent ["*".toList] () <|> lit "/" <|> lit "%")
  | .powerOperator => operator (lit "**")
  | .unaryOperator => (fun _ => .not) <$> lit "!" <|> (fun _ => .minus) <$> lit "-"
  | .postfixChain =>
    Build.postfixChain <$> primary
      <*> list (rule .callArguments <|> rule .memberSuffix <|> rule .indexSuffix)
  | .callArguments =>
    ranged ((fun arguments range => .call range (arguments.getD [])) <$>
      (lit "(" *> optional (commaList (rule .expression)) <* lit ")"))
  | .memberSuffix =>
    ranged ((fun name range => .member range name.text) <$> (lit "." *> rule .propertyName))
  | .indexSuffix =>
    ranged ((fun key range => .index range key) <$> (lit "[" *> rule .expression <* lit "]"))
  | .functionExpression =>
    ranged (Build.functionExpression <$> (rule .functionKeyword *> optional (rule .identifier))
      <*> rule .params <*> rule .block)
  | .array =>
    ranged ((fun elements => Build.array (elements.getD [])) <$>
      (lit "[" *> optional (commaList (rule .expression) <* optional (lit ",")) <* lit "]"))
  | .object =>
    ranged ((fun properties => Build.object (properties.getD [])) <$>
      (lit "\x7b" *> optional (commaList property <* optional (lit ",")) <* lit "\x7d"))
  | .methodProperty =>
    ranged (Build.methodProperty <$> rule .propertyKey <*> rule .params <*> rule .block)
  | .keyedProperty =>
    ranged (Build.keyedProperty <$> (rule .propertyKey <* lit ":") <*> rule .expression)
  | .shorthandProperty => ranged (Build.shorthandProperty <$> rule .identifier)
  | .propertyKey =>
    (fun t => .string t.text) <$> rule .string <|>
      (fun t => .identifier t.text) <$> rule .propertyName
  -- Words and literals
  | .number => token Lexeme.number id
  | .string => token Lexeme.string fun cs => cs.tail.dropLast
  | .template =>
    ranged (Build.template <$> .tight (fun _ parts => parts) (lit "`")
      (.tight (fun parts _ => parts)
        (.manyTight id (rule .templateChars <|> rule .templateSubstitution)) (lit "`")))
  | .templateChars => .lexeme Lexeme.templateChars fun cs => .chars (String.ofList cs)
  | .templateSubstitution => .substitution <$> (lit "$\x7b" *> rule .expression <* lit "\x7d")
  | .boolean =>
    token (fun cs => Lexeme.keyword "true" cs <|> Lexeme.keyword "false" cs) id
  | .null => token (Lexeme.keyword "null") id
  | .this => token (Lexeme.keyword "this") id
  | .varKeyword => keyword "var"
  | .letKeyword => keyword "let"
  | .constKeyword => keyword "const"
  | .functionKeyword => keyword "function"
  | .returnKeyword => keyword "return"
  | .ifKeyword => keyword "if"
  | .elseKeyword => keyword "else"
  | .whileKeyword => keyword "while"
  | .identifier => token Lexeme.identifier id
  | .propertyName => token Lexeme.name id

end Phrase

/-- The grammar of both dialects. -/
def echoGrammar : Grammar Rule.Value where
  body := Phrase.body
  blank := Lexeme.blank

end Downlevel
