/-!
# Words, literals and blanks

The smallest parts of a source text, as functions on its characters: each says how many characters
the part takes up at the start of a text, if it stands there. Nothing blank may stand inside them.
-/

namespace Downlevel.Lexeme

def isNameStart (c : Char) : Bool :=
  c.isAlpha || c = '_' || c = '$'

def isNameChar (c : Char) : Bool :=
  c.isAlphanum || c = '_' || c = '$'

/-- The longest run of name characters a text starts with. -/
def word (cs : List Char) : List Char :=
  cs.takeWhile isNameChar

/-- The words that cannot name a variable. -/
def keywords : List String :=
  ["var", "let", "const", "function", "return", "if", "else", "while", "true", "false", "null",
    "this"]

/-- The word `w`, not followed by further name characters. -/
def keyword (w : String) (cs : List Char) : Option Nat :=
  if word cs = w.toList then some w.length else none

/-- A name, which may be a keyword: a property after a dot can have any name. -/
def name (cs : List Char) : Option Nat :=
  match cs with
  | [] => none
  | c :: _ => if isNameStart c then some (word cs).length else none

/-- A name that is no keyword. -/
def identifier (cs : List Char) : Option Nat :=
  if keywords.any (fun w => w.toList = word cs) then none else name cs

def digits (cs : List Char) : List Char :=
  cs.takeWhile Char.isDigit

/-- Digits, and a fraction if digits follow the point. -/
def number (cs : List Char) : Option Nat :=
  let whole := (digits cs).length
  if whole = 0 then none
  else match cs.drop whole with
    | '.' :: rest =>
      let fraction := (digits rest).length
      if fraction = 0 then some whole else some (whole + 1 + fraction)
    | _ => some whole

/-- How far the contents of a string go: to a quote or a line end that no backslash escapes. -/
def stringContents : List Char → Nat
  | '\\' :: _ :: cs => stringContents cs + 2
  | [] => 0
  | c :: cs => if c = '"' || c = '\\' || c = '\n' || c = '\r' then 0 else stringContents cs + 1

/-- A string with its quotes. -/
def string : List Char → Option Nat
  | '"' :: cs =>
    let contents := stringContents cs
    match cs.drop contents with
    | '"' :: _ => some (contents + 2)
    | _ => none
  | _ => none

/-- How far the text of a template goes: to a backquote or the start of a substitution that no
backslash escapes. -/
def templateText : List Char → Nat
  | '\\' :: _ :: cs => templateText cs + 2
  | '$' :: '\x7b' :: _ => 0
  | [] => 0
  | c :: cs => if c = '`' || c = '\\' then 0 else templateText cs + 1

/-- Template text of at least one character. -/
def templateChars (cs : List Char) : Option Nat :=
  match templateText cs with
  | 0 => none
  | n => some n

def endOfInput (cs : List Char) : Option Nat :=
  if cs.isEmpty then some 0 else none

def isSpace (c : Char) : Bool :=
  c = ' ' || c = '\t' || c = '\r' || c = '\n'

mutual

/-- How much blank text a text starts with: spaces, comments to the end of a line, and comments
between `/*` and `*/`. A comment without an end is not blank. -/
def blank : List Char → Nat
  | '/' :: '/' :: cs => lineComment cs + 2
  | '/' :: '*' :: cs =>
    match blockComment cs with
    | none => 0
    | some n => n + 2
  | [] => 0
  | c :: cs => if isSpace c then blank cs + 1 else 0

/-- The rest of a line comment and the blanks after it. -/
def lineComment : List Char → Nat
  | [] => 0
  | c :: cs => if c = '\n' || c = '\r' then blank cs + 1 else lineComment cs + 1

/-- The rest of a comment that needs an end, and the blanks after it. -/
def blockComment : List Char → Option Nat
  | '*' :: '/' :: cs => some (blank cs + 2)
  | [] => none
  | _ :: cs => (blockComment cs).map (· + 1)

end

end Downlevel.Lexeme
