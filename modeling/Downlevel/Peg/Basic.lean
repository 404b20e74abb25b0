import Downlevel.Source.Position

/-!
# Parsing expressions

A grammar maps each rule to a parsing expression. An expression matches a text from the left with
ordered choice and greedy repetition, and yields a value. Blank text (layout and comments) may stand
between the parts of a sequence and between repetitions, except in the `tight` forms.

Expressions are data, so a grammar can be inspected and reasoned about as a whole; `Peg.run` in
`Downlevel.Peg.Run` gives them their meaning.
-/

namespace Downlevel

/-- A parsing expression that yields a `γ`. Rules are named by `ρ`, and rule `r` yields a `V r`. -/
inductive Peg {ρ : Type} (V : ρ → Type) : Type → Type 1 where
  /-- Matches nothing, always. -/
  | succeed {γ : Type} (value : γ) : Peg V γ
  /-- Matches exactly these characters. -/
  | text {γ : Type} (chars : List Char) (value : γ) : Peg V γ
  /-- Matches as many characters as `scan` says, if it says a number. -/
  | lexeme {γ : Type} (scan : List Char → Option Nat) (f : List Char → γ) : Peg V γ
  /-- Matches none of these texts, and consumes nothing. -/
  | absent {γ : Type} (texts : List (List Char)) (value : γ) : Peg V γ
  /-- Matches what rule `r` matches. -/
  | call {γ : Type} (r : ρ) (f : V r → γ) : Peg V γ
  /-- One expression, blanks, then another. -/
  | seq {α β γ : Type} (f : α → β → γ) (p : Peg V α) (q : Peg V β) : Peg V γ
  /-- One expression directly followed by another. -/
  | tight {α β γ : Type} (f : α → β → γ) (p : Peg V α) (q : Peg V β) : Peg V γ
  /-- The first expression if it matches, else the second. -/
  | choice {γ : Type} (p q : Peg V γ) : Peg V γ
  | opt {α γ : Type} (f : Option α → γ) (p : Peg V α) : Peg V γ
  /-- As many matches as there are, with blanks between them. -/
  | many {α γ : Type} (f : List α → γ) (p : Peg V α) : Peg V γ
  /-- As many matches as there are, with nothing between them. -/
  | manyTight {α γ : Type} (f : List α → γ) (p : Peg V α) : Peg V γ
  /-- Also yields the range of what was matched. -/
  | span {α γ : Type} (f : α → Range → γ) (p : Peg V α) : Peg V γ
  /-- Also yields the characters that were matched. -/
  | slice {α γ : Type} (f : α → List Char → γ) (p : Peg V α) : Peg V γ
  | map {α γ : Type} (f : α → γ) (p : Peg V α) : Peg V γ

namespace Peg

variable {ρ : Type} {V : ρ → Type} {α β γ : Type}

instance : Functor (Peg V) where
  map f p := .map f p

instance : Seq (Peg V) where
  seq p q := .seq (fun f a => f a) p (q ())

instance : SeqLeft (Peg V) where
  seqLeft p q := .seq (fun a _ => a) p (q ())

instance : SeqRight (Peg V) where
  seqRight p q := .seq (fun _ b => b) p (q ())

instance : OrElse (Peg V γ) where
  orElse p q := .choice p (q ())

/-- Matches the text `s`. -/
def lit (s : String) : Peg V Unit :=
  .text s.toList ()

def optional (p : Peg V α) : Peg V (Option α) :=
  .opt id p

def list (p : Peg V α) : Peg V (List α) :=
  .many id p

/-- Hands the range of what was matched to the value. -/
def ranged (p : Peg V (Range → α)) : Peg V α :=
  .span (fun f range => f range) p

/-- One or more matches separated by commas. -/
def commaList (p : Peg V α) : Peg V (List α) :=
  List.cons <$> p <*> list (lit "," *> p)

end Peg

/-- A grammar: what each rule stands for, and how many characters of a text are blank. -/
structure Grammar {ρ : Type} (V : ρ → Type) where
  body : (r : ρ) → Peg V (V r)
  blank : List Char → Nat

end Downlevel
