/-!
# JSON text

JSON values as text for people: every item of a list and every field on a line of its own, two more
spaces in front of each inner line.
-/

namespace Downlevel

inductive JsonValue where
  | number (n : Nat)
  | string (s : String)
  | array (items : List JsonValue)
  | object (fields : List (String × JsonValue))

namespace JsonValue

def hexDigit (n : Nat) : Char :=
  if n < 10 then Char.ofNat ('0'.toNat + n) else Char.ofNat ('a'.toNat + (n - 10))

/-- A character inside quotes. Quotes, backslashes and control characters below the space are
escaped, the usual ones by a letter. -/
def escape (c : Char) : List Char :=
  match c with
  | '"' => ['\\', '"']
  | '\\' => ['\\', '\\']
  | '\n' => ['\\', 'n']
  | '\r' => ['\\', 'r']
  | '\t' => ['\\', 't']
  | '\x08' => ['\\', 'b']
  | '\x0c' => ['\\', 'f']
  | c =>
    if c.toNat < 0x20 then
      ['\\', 'u', '0', '0', hexDigit (c.toNat / 16), hexDigit (c.toNat % 16)]
    else [c]

def quote (s : String) : String :=
  "\"" ++ String.ofList (s.toList.flatMap escape) ++ "\""

/-- The start of a line at a depth. -/
def newline (depth : Nat) : String :=
  "\n" ++ String.ofList (List.replicate (2 * depth) ' ')

/-- Lines between brackets at a depth; brackets alone if there are none. -/
def enclose (opening closing : String) (depth : Nat) : List String → String
  | [] => opening ++ closing
  | lines =>
    opening ++ newline (depth + 1) ++ ("," ++ newline (depth + 1)).intercalate lines
      ++ newline depth ++ closing

mutual

/-- A value that starts on a line at a depth. -/
def prettyAt (depth : Nat) : JsonValue → String
  | number n => toString n
  | string s => quote s
  | array items => enclose "[" "]" depth (prettyItems (depth + 1) items)
  | object fields => enclose "\x7b" "\x7d" depth (prettyFields (depth + 1) fields)

def prettyItems (depth : Nat) : List JsonValue → List String
  | [] => []
  | item :: items => prettyAt depth item :: prettyItems depth items

def prettyFields (depth : Nat) : List (String × JsonValue) → List String
  | [] => []
  | (key, value) :: fields =>
    (quote key ++ ": " ++ prettyAt depth value) :: prettyFields depth fields

end

def pretty (v : JsonValue) : String :=
  v.prettyAt 0

end JsonValue

end Downlevel
