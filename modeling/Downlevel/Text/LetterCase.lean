import Downlevel.Text.CaseTable

/-!
# Letter case

The lower case of any text, letter by letter, with two letters that need more: `İ` becomes two
characters, and `Σ` has a form of its own at the end of a word.
-/

namespace Downlevel.LetterCase

open CaseTable

/-- The lower case of a letter that does not depend on the letters around it. -/
def lowerChar (c : Char) : List Char :=
  if c = 'İ' then ['i', '\u0307'] else [(lower? c).getD c]

/-- Whether the first character that counts has case. -/
def meetsCased (cs : List Char) : Bool :=
  match cs.dropWhile isIgnorable with
  | [] => false
  | c :: _ => isCased c

/-- The lower case of a text that follows the text `before`, given last character first. -/
def lowerAfter (before : List Char) : List Char → List Char
  | [] => []
  | c :: cs =>
    let lowered :=
      if c = 'Σ' then [if meetsCased before && !meetsCased cs then 'ς' else 'σ'] else lowerChar c
    lowered ++ lowerAfter (c :: before) cs

def lower (s : String) : String :=
  String.ofList (lowerAfter [] s.toList)

end Downlevel.LetterCase
