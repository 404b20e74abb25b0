import Downlevel.Peg.Basic

/-!
# Running a grammar

Running a rule on a text gives its value and the rest of the text, or no match, and in either case a
`Tracker`: the furthest place where a rule was called in vain, and the rules expected there. The
tracker only explains a failure. It never decides what matches.
-/

namespace Downlevel

/-- A place in a text: what is left of it, and how many bytes came before. -/
structure Cursor where
  rest : List Char
  offset : Nat := 0

/-- The place `n` characters further on. -/
def Cursor.advance (c : Cursor) (n : Nat) : Cursor :=
  ⟨c.rest.drop n, c.offset + byteLength (c.rest.take n)⟩

/-- The furthest offset at which a rule failed, and the rules that failed there, latest first. -/
structure Tracker (ρ : Type) where
  offset : Nat := 0
  expected : List ρ := []

namespace Tracker

variable {ρ : Type}

/-- How many rules are on record at `offset`. -/
def count (t : Tracker ρ) (offset : Nat) : Nat :=
  if offset = t.offset then t.expected.length else 0

/-- Records that rule `r`, called at `offset` when `before` rules were on record there, failed. It
stands for the rules that failed there on its behalf, unless that was a single one: then that one
says more. A failure short of the furthest place says nothing. -/
def miss (t : Tracker ρ) (r : ρ) (offset before : Nat) : Tracker ρ :=
  if t.count offset = before + 1 then t
  else if offset < t.offset then t
  else if t.offset < offset then ⟨offset, [r]⟩
  else ⟨offset, r :: t.expected.drop (t.expected.length - before)⟩

end Tracker

/-- The outcome of a match: the value and the place behind it if there is one. -/
structure Reply (ρ α : Type) where
  matched : Option (α × Cursor)
  tracker : Tracker ρ

namespace Peg

variable {ρ : Type} {V : ρ → Type} {α : Type}

/-- Repeats `step` until it fails, at most `limit` times. -/
def iterate (step : Cursor → Tracker ρ → Reply ρ α) :
    Nat → Cursor → Tracker ρ → List α × Cursor × Tracker ρ
  | 0, c, t => ([], c, t)
  | limit + 1, c, t =>
    match step c t with
    | ⟨none, t⟩ => ([], c, t)
    | ⟨some (a, c), t⟩ =>
      let (as, c, t) := iterate step limit c t
      (a :: as, c, t)

/-- Matches an expression, given how rules match and how many characters are blank. Repetitions end
after `limit` rounds. -/
def run (call : (r : ρ) → Cursor → Tracker ρ → Reply ρ (V r)) (blank : List Char → Nat)
    (limit : Nat) {α : Type} : Peg V α → Cursor → Tracker ρ → Reply ρ α
  | .succeed v, c, t => ⟨some (v, c), t⟩
  | .text s v, c, t => if s.isPrefixOf c.rest then ⟨some (v, c.advance s.length), t⟩ else ⟨none, t⟩
  | .lexeme scan f, c, t =>
    match scan c.rest with
    | none => ⟨none, t⟩
    | some n => ⟨some (f (c.rest.take n), c.advance n), t⟩
  | .absent ss v, c, t => if ss.any (·.isPrefixOf c.rest) then ⟨none, t⟩ else ⟨some (v, c), t⟩
  | .call r f, c, t =>
    match call r c t with
    | ⟨none, t⟩ => ⟨none, t⟩
    | ⟨some (v, c), t⟩ => ⟨some (f v, c), t⟩
  | .seq f p q, c, t =>
    match run call blank limit p c t with
    | ⟨none, t⟩ => ⟨none, t⟩
    | ⟨some (a, c), t⟩ =>
      match run call blank limit q (c.advance (blank c.rest)) t with
      | ⟨none, t⟩ => ⟨none, t⟩
      | ⟨some (b, c), t⟩ => ⟨some (f a b, c), t⟩
  | .tight f p q, c, t =>
    match run call blank limit p c t with
    | ⟨none, t⟩ => ⟨none, t⟩
    | ⟨some (a, c), t⟩ =>
      match run call blank limit q c t with
      | ⟨none, t⟩ => ⟨none, t⟩
      | ⟨some (b, c), t⟩ => ⟨some (f a b, c), t⟩
  | .choice p q, c, t =>
    match run call blank limit p c t with
    | ⟨none, t⟩ => run call blank limit q c t
    | reply => reply
  | .opt f p, c, t =>
    match run call blank limit p c t with
    | ⟨none, t⟩ => ⟨some (f none, c), t⟩
    | ⟨some (a, c), t⟩ => ⟨some (f (some a), c), t⟩
  | .many f p, c, t =>
    match run call blank limit p c t with
    | ⟨none, t⟩ => ⟨some (f [], c), t⟩
    | ⟨some (a, c), t⟩ =>
      let (as, c, t) :=
        iterate (fun c t => run call blank limit p (c.advance (blank c.rest)) t) limit c t
      ⟨some (f (a :: as), c), t⟩
  | .manyTight f p, c, t =>
    let (as, c, t) := iterate (fun c t => run call blank limit p c t) limit c t
    ⟨some (f as, c), t⟩
  | .span f p, c, t =>
    match run call blank limit p c t with
    | ⟨none, t⟩ => ⟨none, t⟩
    | ⟨some (a, c'), t⟩ => ⟨some (f a ⟨c.offset, c'.offset⟩, c'), t⟩
  | .slice f p, c, t =>
    match run call blank limit p c t with
    | ⟨none, t⟩ => ⟨none, t⟩
    | ⟨some (a, c'), t⟩ => ⟨some (f a (takeBytes (c'.offset - c.offset) c.rest), c'), t⟩
  | .map f p, c, t =>
    match run call blank limit p c t with
    | ⟨none, t⟩ => ⟨none, t⟩
    | ⟨some (a, c), t⟩ => ⟨some (f a, c), t⟩

end Peg

/-- Matches rule `r`, with calls of rules nested at most `depth` deep. -/
def Grammar.call {ρ : Type} {V : ρ → Type} (g : Grammar V) (limit : Nat) :
    Nat → (r : ρ) → Cursor → Tracker ρ → Reply ρ (V r)
  | 0, _, _, t => ⟨none, t⟩
  | depth + 1, r, c, t =>
    match Peg.run (g.call limit depth) g.blank limit (g.body r) c t with
    | ⟨none, t'⟩ => ⟨none, t'.miss r c.offset (t.count c.offset)⟩
    | reply => reply

end Downlevel
