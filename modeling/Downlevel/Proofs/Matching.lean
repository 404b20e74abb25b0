import Downlevel.Parse
import Downlevel.Proofs.Lexeme
import Downlevel.Proofs.Recognize

/-!
# Matching the grammar

No rule of the grammar leads back to itself before a character is consumed (`echoGrounded`), so the
bounds that reading a program sets are never met (`matchProgram_matched`). What a phrase matches can
then be derived on texts alone, one combinator at a time: `Yields` says that it matches and with what
outcome, `Refuses` that it does not. A phrase refuses every text that none of its first tokens starts
(`refuses_of_opens`).
-/

namespace Downlevel

/-! ## The grammar is grounded -/

/-- A rule calls only rules of lower rank before a character is consumed. -/
def Rule.rank : Rule → Nat
  | program => 14
  | expressionStatement => 13
  | expression | arrowBody => 12
  | assignment => 11
  | logicalOr => 10
  | logicalAnd => 9
  | equality => 8
  | relational => 7
  | additive => 6
  | multiplicative => 5
  | exponent => 4
  | unary => 3
  | postfixChain | arrowFunction | declaration | methodProperty | keyedProperty => 2
  | declarationKeyword | declarator | functionDeclaration | param | returnStatement | ifStatement
  | whileStatement | arrowParams | functionExpression | shorthandProperty | propertyKey => 1
  | _ => 0

/-- The rules that may match without consuming anything. -/
def Rule.mayBeEmpty (r : Rule) : Bool :=
  r = program || r = endOfInput

theorem Peg.lexeme_consumes {ρ : Type} {V : ρ → Type} {γ : Type}
    {call : (r : ρ) → Cursor → Option (V r × Cursor)} {blank : List Char → Nat}
    {scan : List Char → Option Nat} {f : List Char → γ}
    (hscan : ∀ {cs n}, scan cs = some n → 0 < n ∧ cs ≠ []) {c c' : Cursor} {v : γ}
    (h : eval call blank (.lexeme scan f : Peg V γ) c = some (v, c')) :
    c'.rest.length < c.rest.length := by
  simp only [eval] at h
  split at h <;> cases h
  rename_i n hn
  obtain ⟨hpos, hne⟩ := hscan hn
  have := List.length_pos_iff.mpr hne
  simp only [Cursor.advance_rest, List.length_drop]
  omega

theorem Peg.token_consumes {call : (r : Rule) → Cursor → Option (r.Value × Cursor)}
    {blank : List Char → Nat} {scan : List Char → Option Nat} {text : List Char → List Char}
    (hscan : ∀ {cs n}, scan cs = some n → 0 < n ∧ cs ≠ []) {c c' : Cursor} {v : Token}
    (h : eval call blank (Phrase.token scan text) c = some (v, c')) :
    c'.rest.length < c.rest.length := by
  rw [Phrase.token, eval] at h
  split at h
  · cases h
  · rename_i h'
    cases h
    exact lexeme_consumes hscan h'

theorem Lexeme.boolean_pos {cs : List Char} {n : Nat}
    (h : (keyword "true" cs <|> keyword "false" cs) = some n) : 0 < n ∧ cs ≠ [] := by
  cases ht : keyword "true" cs with
  | none =>
    rw [ht] at h
    exact keyword_pos (by decide) h
  | some m =>
    rw [ht] at h
    cases h
    exact keyword_pos (by decide) ht

theorem Lexeme.templateChars_pos {cs : List Char} {n : Nat} (h : templateChars cs = some n) :
    0 < n ∧ cs ≠ [] := by
  unfold templateChars at h
  split at h
  · cases h
  · rename_i hn
    cases h
    refine ⟨Nat.pos_of_ne_zero hn, ?_⟩
    rintro rfl
    exact hn (by simp [templateText])

theorem Lexeme.string_pos {cs : List Char} {n : Nat} (h : string cs = some n) :
    0 < n ∧ cs ≠ [] := by
  obtain ⟨raw, htake, -, hn⟩ := string_eq_some h
  refine ⟨hn, ?_⟩
  rintro rfl
  simp at htake

def echoGrounded : echoGrammar.Grounded where
  empty := Rule.mayBeEmpty
  rank := Rule.rank
  width := Rule.all.length
  productive r := by cases r <;> rfl
  rank_lt_rank r := by cases r <;> decide
  rank_lt_width r := by cases r <;> decide
  consumes r hr call hle hlt c v c' h := by
    cases r with
    | number => exact Peg.token_consumes Lexeme.number_pos h
    | string => exact Peg.token_consumes Lexeme.string_pos h
    | templateChars => exact Peg.lexeme_consumes Lexeme.templateChars_pos h
    | boolean => exact Peg.token_consumes Lexeme.boolean_pos h
    | null | this => exact Peg.token_consumes (Lexeme.keyword_pos (by decide)) h
    | varKeyword | letKeyword | constKeyword | functionKeyword | returnKeyword | ifKeyword
    | elseKeyword | whileKeyword => exact Peg.lexeme_consumes (Lexeme.keyword_pos (by decide)) h
    | identifier => exact Peg.token_consumes Lexeme.identifier_pos h
    | propertyName => exact Peg.token_consumes Lexeme.name_pos h
    | program | endOfInput => cases hr
    | _ => exact Peg.eval_length_lt hle hlt (echoGrammar.body _) rfl h

/-- What a phrase matches. -/
def Phrase.eval {α : Type} (p : Phrase α) (c : Cursor) : Option (α × Cursor) :=
  Peg.eval echoGrounded.recognize Lexeme.blank p c

theorem Phrase.eval_rule (r : Rule) (c : Cursor) :
    (Phrase.rule r).eval c = (Phrase.body r).eval c := by
  have h : (Phrase.rule r).eval c = echoGrounded.recognize r c := by
    rw [Phrase.eval, Phrase.rule, Peg.eval]
    rcases echoGrounded.recognize r c with _ | ⟨v, c'⟩ <;> rfl
  rw [h, echoGrounded.recognize_eq]
  rfl

/-- Reading a program is never cut short. -/
theorem matchProgram_matched (source : List Char) :
    (matchProgram source).matched = (Phrase.rule .program).eval ⟨source, 0⟩ := by
  have h : (matchProgram source).matched = echoGrounded.recognize .program ⟨source, 0⟩ := by
    have hroom : echoGrounded.room .program ⟨source, 0⟩ < Rule.all.length * (source.length + 1) :=
      Nat.add_lt_add_left (by decide : Rule.rank .program < Rule.all.length) _
    exact echoGrounded.call_eq_recognize (Nat.le_refl _) hroom {}
  rw [h, Phrase.eval_rule, echoGrounded.recognize_eq]
  rfl

namespace Phrase

open Lexeme (skip)

variable {α β γ : Type}

/-- A place behind the blanks that follow another. -/
theorem rest_advance_blank (c : Cursor) : (c.advance (Lexeme.blank c.rest)).rest = skip c.rest := rfl

/-! ## First tokens -/

/-- Whether a phrase may match a text that starts with none of its tokens. -/
def idle {α : Type} : Phrase α → Bool
  | .text s _ => s.isEmpty
  | .seq _ p q | .tight _ p q => idle p && idle q
  | .choice p q => idle p || idle q
  | .span _ p | .slice _ p | .map _ p => idle p
  | .succeed _ | .absent .. | .opt .. | .many .. | .manyTight .. => true
  | .lexeme .. | .call .. => false

/-- Whether a token with which a phrase can start stands at the start of a text, given for which
texts that holds of the rules. -/
def starts (opens : Rule → List Char → Bool) {α : Type} : Phrase α → List Char → Bool
  | .text s _, cs => s.isPrefixOf cs
  | .lexeme scan _, cs => (scan cs).isSome
  | .call r _, cs => opens r cs
  | .seq _ p q, cs => starts opens p cs || (idle p && starts opens q (skip cs))
  | .choice p q, cs => starts opens p cs || starts opens q cs
  | .opt _ p, cs | .span _ p, cs | .slice _ p, cs | .map _ p, cs => starts opens p cs
  | .tight _ p _, cs | .many _ p, cs | .manyTight _ p, cs => starts opens p cs || idle p
  | .succeed _, _ | .absent .., _ => false

theorem starts_of_eval {opens : Rule → List Char → Bool}
    (hopens : ∀ r c v c', (rule r).eval c = some (v, c') → opens r c.rest = true) (p : Phrase α) :
    ∀ {c v c'}, p.eval c = some (v, c') →
      starts opens p c.rest = true ∨ (idle p = true ∧ skip c'.rest = skip c.rest) := by
  unfold eval
  induction p with
  | succeed v | absent ss v =>
    intro c _ c' h
    simp only [Peg.eval] at h
    exact Or.inr ⟨rfl, by grind⟩
  | text s v =>
    intro c _ c' h
    simp only [Peg.eval] at h
    split at h <;> cases h
    exact Or.inl ‹_›
  | lexeme scan f =>
    intro c _ c' h
    simp only [Peg.eval] at h
    split at h <;> cases h
    rename_i hs
    exact Or.inl (by simp [starts, hs])
  | call r f =>
    intro c _ c' h
    simp only [Peg.eval] at h
    split at h <;> cases h
    rename_i v hr
    exact Or.inl (hopens r c v c' (by rw [eval, rule, Peg.eval, hr]; rfl))
  | seq f p q ihp ihq =>
    intro c _ c' h
    simp only [Peg.eval] at h
    split at h <;> try cases h
    rename_i a c₁ hp
    split at h <;> cases h
    rename_i b hq
    rcases ihp hp with hs | ⟨hi, hskip⟩
    · exact Or.inl (by simp [starts, hs])
    · have hq := ihq hq
      rw [rest_advance_blank, hskip, Lexeme.skip_skip] at hq
      rcases hq with hs | ⟨hi', hskip'⟩
      · exact Or.inl (by simp [starts, hi, hs])
      · exact Or.inr ⟨by simp [idle, hi, hi'], hskip'⟩
  | tight f p q ihp ihq =>
    intro c _ c' h
    simp only [Peg.eval] at h
    split at h <;> try cases h
    rename_i a c₁ hp
    rcases ihp hp with hs | ⟨hi, -⟩
    · exact Or.inl (by simp [starts, hs])
    · exact Or.inl (by simp [starts, hi])
  | choice p q ihp ihq =>
    intro c _ c' h
    simp only [Peg.eval] at h
    split at h
    · rcases ihq h with hs | ⟨hi, hskip⟩
      · exact Or.inl (by simp [starts, hs])
      · exact Or.inr ⟨by simp [idle, hi], hskip⟩
    · rename_i hp
      rcases ihp (hp.trans h) with hs | ⟨hi, hskip⟩
      · exact Or.inl (by simp [starts, hs])
      · exact Or.inr ⟨by simp [idle, hi], hskip⟩
  | opt f p ih =>
    intro c _ c' h
    simp only [Peg.eval] at h
    split at h <;> cases h
    · exact Or.inr ⟨rfl, rfl⟩
    · rename_i hp
      rcases ih hp with hs | ⟨-, hskip⟩
      · exact Or.inl hs
      · exact Or.inr ⟨rfl, hskip⟩
  | many f p ih =>
    intro c _ c' h
    simp only [Peg.eval] at h
    split at h <;> cases h
    · exact Or.inr ⟨rfl, rfl⟩
    · rename_i hp
      rcases ih hp with hs | ⟨hi, -⟩
      · exact Or.inl (by simp [starts, hs])
      · exact Or.inl (by simp [starts, hi])
  | manyTight f p ih =>
    intro c _ c' h
    simp only [Peg.eval, Option.some.injEq, Prod.mk.injEq] at h
    rcases hp : Peg.eval echoGrounded.recognize Lexeme.blank p c with _ | ⟨a, c₁⟩
    · refine Or.inr ⟨rfl, ?_⟩
      rw [← h.2]
      cases c.rest.length <;> simp [Peg.repeated, hp]
    · rcases ih hp with hs | ⟨hi, -⟩
      · exact Or.inl (by simp [starts, hs])
      · exact Or.inl (by simp [starts, hi])
  | span f p ih | slice f p ih | map f p ih =>
    intro c _ c' h
    simp only [Peg.eval] at h
    split at h <;> cases h
    rename_i hp
    exact ih hp

end Phrase

/-- Whether a token with which a rule can start, found by opening rules `n` deep, stands at the start
of a text. -/
def Rule.opens : Nat → Rule → List Char → Bool
  | 0, _, _ => true
  | n + 1, r, cs => (Phrase.body r).starts (opens n) cs || (Phrase.body r).idle

theorem Rule.opens_of_eval : ∀ (n : Nat) (r : Rule) (c : Cursor) (v : r.Value) (c' : Cursor),
    (Phrase.rule r).eval c = some (v, c') → r.opens n c.rest = true
  | 0, _, _, _, _, _ => rfl
  | n + 1, r, c, v, c', h => by
    rw [Phrase.eval_rule] at h
    rcases Phrase.starts_of_eval (opens_of_eval n) _ h with hs | ⟨hi, -⟩
    · simp [opens, hs]
    · simp [opens, hi]

namespace Phrase

open Lexeme (skip)

variable {α β γ : Type}

/-! ## Phrases on texts -/

/-- At a text, wherever it stands, a phrase matches, and its value and what is left satisfy `Q`. -/
def Yields (p : Phrase α) (cs : List Char) (Q : α → List Char → Prop) : Prop :=
  ∀ offset, ∃ v c', p.eval ⟨cs, offset⟩ = some (v, c') ∧ Q v c'.rest

/-- At a text, wherever it stands, a phrase does not match. -/
def Refuses (p : Phrase α) (cs : List Char) : Prop :=
  ∀ offset, p.eval ⟨cs, offset⟩ = none

/-- A phrase matches a text up to `rest`, but for blanks, with a value that satisfies `P`. -/
def Reads (p : Phrase α) (cs rest : List Char) (P : α → Prop) : Prop :=
  p.Yields cs fun v left => skip left = skip rest ∧ P v

/-- A phrase that starts with one of its tokens refuses a text that starts with none. -/
theorem refuses_of_starts (n : Nat) {p : Phrase α} {cs : List Char} (hp : p.idle = false)
    (h : p.starts (Rule.opens n) cs = false) : p.Refuses cs := by
  intro o
  rcases he : p.eval ⟨cs, o⟩ with _ | ⟨v, c'⟩
  · rfl
  · rcases starts_of_eval (Rule.opens_of_eval n) p he with hs | ⟨hi, -⟩
    · simp [h] at hs
    · simp [hp] at hi

theorem Yields.starts (n : Nat) {p : Phrase α} {cs : List Char} {Q : α → List Char → Prop}
    (h : p.Yields cs Q) (hp : p.idle = false) : p.starts (Rule.opens n) cs = true := by
  by_contra hs
  obtain ⟨v, c', he, -⟩ := h 0
  rw [refuses_of_starts n hp (by simpa using hs) 0] at he
  cases he

theorem eval_length_lt {p : Phrase α} (hp : p.nullable Rule.mayBeEmpty = false) {c c' : Cursor}
    {v : α} (h : p.eval c = some (v, c')) : c'.rest.length < c.rest.length :=
  Peg.eval_length_lt (fun r _ _ _ => echoGrounded.recognize_reaches (r := r))
    (fun r _ _ _ => echoGrounded.recognize_length_lt (r := r)) p hp h

namespace Yields

variable {p : Phrase α} {q : Phrase β} {cs : List Char} {Q : γ → List Char → Prop}

theorem mono {Q' : α → List Char → Prop} (h : p.Yields cs Q')
    {Q : α → List Char → Prop} (hQ : ∀ v left, Q' v left → Q v left) : p.Yields cs Q := by
  intro o
  obtain ⟨v, c', he, hv⟩ := h o
  exact ⟨v, c', he, hQ v _ hv⟩

theorem succeed {v : γ} (h : Q v cs) : Yields (.succeed v) cs Q :=
  fun o => ⟨v, ⟨cs, o⟩, rfl, h⟩

theorem text {chars : List Char} {v : γ} {rest : List Char} (hcs : cs = chars ++ rest)
    (h : Q v rest) : Yields (.text chars v) cs Q := by
  intro o
  subst hcs
  refine ⟨v, Cursor.advance ⟨chars ++ rest, o⟩ chars.length, ?_, by simpa using h⟩
  simp [eval, Peg.eval]

theorem lit {s : String} {Q : Unit → List Char → Prop} {rest : List Char}
    (hcs : cs = s.toList ++ rest) (h : Q () rest) : Yields (Peg.lit s) cs Q :=
  text hcs h

/-- A sign of one character. -/
theorem sign {s : String} {c : Char} {Q : Unit → List Char → Prop} (hs : s.toList = [c])
    (h : Q () cs) : Yields (Peg.lit s) (c :: cs) Q :=
  lit (by rw [hs]; rfl) h

theorem lexeme {scan : List Char → Option Nat} {f : List Char → γ} {n : Nat}
    (hscan : scan cs = some n) (h : Q (f (cs.take n)) (cs.drop n)) :
    Yields (.lexeme scan f) cs Q := by
  intro o
  refine ⟨f (cs.take n), Cursor.advance ⟨cs, o⟩ n, ?_, h⟩
  simp [eval, Peg.eval, hscan]

theorem absent {texts : List (List Char)} {v : γ} (hcs : texts.any (·.isPrefixOf cs) = false)
    (h : Q v cs) : Yields (.absent texts v) cs Q := by
  intro o
  refine ⟨v, ⟨cs, o⟩, ?_, h⟩
  rw [eval, Peg.eval, if_neg (by simpa using hcs)]

theorem rule {r : Rule} {Q : r.Value → List Char → Prop} (h : (body r).Yields cs Q) :
    (Phrase.rule r).Yields cs Q := by
  intro o
  rw [eval_rule]
  exact h o

theorem seq {f : α → β → γ}
    (h : p.Yields cs fun a left => q.Yields (skip left) fun b left => Q (f a b) left) :
    Yields (.seq f p q) cs Q := by
  intro o
  obtain ⟨a, c₁, hp, hq⟩ := h o
  obtain ⟨b, c₂, hq, hQ⟩ := hq (c₁.offset + byteLength (c₁.rest.take (Lexeme.blank c₁.rest)))
  unfold eval at hp hq ⊢
  rw [skip] at hq
  refine ⟨f a b, c₂, ?_, hQ⟩
  simp [Peg.eval, hp, Cursor.advance, hq]

theorem tight {f : α → β → γ}
    (h : p.Yields cs fun a left => q.Yields left fun b left => Q (f a b) left) :
    Yields (.tight f p q) cs Q := by
  intro o
  obtain ⟨a, c₁, hp, hq⟩ := h o
  obtain ⟨b, c₂, hq, hQ⟩ := hq c₁.offset
  unfold eval at hp hq ⊢
  refine ⟨f a b, c₂, ?_, hQ⟩
  simp [Peg.eval, hp, hq]

theorem left {p q : Phrase γ} (h : p.Yields cs Q) : Yields (.choice p q) cs Q := by
  intro o
  obtain ⟨v, c', hp, hQ⟩ := h o
  refine ⟨v, c', ?_, hQ⟩
  unfold eval at hp ⊢
  simp [Peg.eval, hp]

theorem right {p q : Phrase γ} (hp : p.Refuses cs) (h : q.Yields cs Q) :
    Yields (.choice p q) cs Q := by
  intro o
  obtain ⟨v, c', hq, hQ⟩ := h o
  refine ⟨v, c', ?_, hQ⟩
  have hp := hp o
  unfold eval at hp hq ⊢
  simp [Peg.eval, hp, hq]

theorem present {f : Option α → γ} (h : p.Yields cs fun a left => Q (f (some a)) left) :
    Yields (.opt f p) cs Q := by
  intro o
  obtain ⟨a, c', hp, hQ⟩ := h o
  refine ⟨f (some a), c', ?_, hQ⟩
  unfold eval at hp ⊢
  simp [Peg.eval, hp]

theorem missing {f : Option α → γ} (hp : p.Refuses cs) (h : Q (f none) cs) :
    Yields (.opt f p) cs Q := by
  intro o
  refine ⟨f none, ⟨cs, o⟩, ?_, h⟩
  have hp := hp o
  unfold eval at hp ⊢
  simp [Peg.eval, hp]

theorem span {f : α → Range → γ} (h : p.Yields cs fun a left => ∀ range, Q (f a range) left) :
    Yields (.span f p) cs Q := by
  intro o
  obtain ⟨a, c', hp, hQ⟩ := h o
  refine ⟨f a ⟨o, c'.offset⟩, c', ?_, hQ _⟩
  unfold eval at hp ⊢
  simp [Peg.eval, hp]

theorem map {f : α → γ} (h : p.Yields cs fun a left => Q (f a) left) :
    Yields (.map f p) cs Q := by
  intro o
  obtain ⟨a, c', hp, hQ⟩ := h o
  refine ⟨f a, c', ?_, hQ⟩
  unfold eval at hp ⊢
  simp [Peg.eval, hp]

theorem slice {f : α → List Char → γ}
    (h : p.Yields cs fun a left => ∀ piece, cs = piece ++ left → Q (f a piece) left) :
    Yields (.slice f p) cs Q := by
  intro o
  obtain ⟨a, c', hp, hQ⟩ := h o
  obtain ⟨n, rfl⟩ : (⟨cs, o⟩ : Cursor).Reaches c' :=
    Peg.eval_reaches (fun r _ _ _ => echoGrounded.recognize_reaches (r := r)) p hp
  refine ⟨f a (cs.take n), _, ?_, hQ (cs.take n) (List.take_append_drop n cs).symm⟩
  unfold eval at hp ⊢
  simp [Peg.eval, hp, Cursor.advance, Cursor.takeBytes_advance]

theorem manyTight_nil {f : List α → γ} (hp : p.Refuses cs) (h : Q (f []) cs) :
    Yields (.manyTight f p) cs Q := by
  intro o
  refine ⟨f [], ⟨cs, o⟩, ?_, h⟩
  have hp := hp o
  unfold eval at hp ⊢
  rw [Peg.eval]
  cases cs.length <;> simp [Peg.repeated, hp]

theorem manyTight_cons {Q : List α → List Char → Prop}
    (hp : p.nullable Rule.mayBeEmpty = false)
    (h : p.Yields cs fun a left => Yields (.manyTight id p) left fun as left => Q (a :: as) left) :
    Yields (.manyTight id p) cs Q := by
  intro o
  obtain ⟨a, c₁, hp₁, h⟩ := h o
  obtain ⟨as, c₂, hs, hQ⟩ := h c₁.offset
  refine ⟨a :: as, c₂, ?_, hQ⟩
  unfold eval at hp₁ hs ⊢
  have hlt : ∀ c a c', Peg.eval echoGrounded.recognize Lexeme.blank p c = some (a, c') →
      c'.rest.length < c.rest.length := fun _ _ _ => eval_length_lt hp
  have hc₁ := hlt _ _ _ hp₁
  obtain ⟨n, hn⟩ : ∃ n, cs.length = n + 1 := ⟨cs.length - 1, by simp only at hc₁; omega⟩
  simp only [hn] at hc₁
  simp only [Peg.eval, Option.some.injEq] at hs
  simp only [Peg.eval, hn, Peg.repeated, hp₁]
  rw [Peg.repeated_stable hlt n c₁.rest.length c₁ (by omega) le_rfl]
  obtain ⟨rfl, rfl⟩ := Prod.mk.inj hs
  rfl

end Yields

namespace Reads

variable {p : Phrase α} {cs mid rest : List Char}

theorem mono {P Q : α → Prop} (h : p.Reads cs rest P) (hPQ : ∀ v, P v → Q v) :
    p.Reads cs rest Q :=
  Yields.mono h fun v _ hv => ⟨hv.1, hPQ v hv.2⟩

theorem nil (hp : p.Refuses (skip cs)) : Reads (Peg.list p) (skip cs) cs (· = []) := by
  intro o
  refine ⟨[], ⟨skip cs, o⟩, ?_, Lexeme.skip_skip cs, rfl⟩
  have hp := hp o
  unfold eval at hp ⊢
  simp [Peg.list, Peg.eval, hp]

/-- A list of at least one match, but for blanks: between rounds they do not matter. -/
theorem cons {A : α → Prop} {B : α → List α → Prop} (hp : p.nullable Rule.mayBeEmpty = false)
    (h : p.Reads cs mid A) (hs : ∀ a, A a → Reads (Peg.list p) (skip mid) rest (B a)) :
    Reads (Peg.list p) cs rest fun l => ∃ a as, l = a :: as ∧ A a ∧ B a as := by
  intro o
  obtain ⟨a, c₁, hp₁, hmid, ha⟩ := h o
  obtain ⟨as, c₂, hs, hrest, has⟩ := hs a ha (c₁.advance (Lexeme.blank c₁.rest)).offset
  unfold eval at hp₁ hs
  rw [← hmid] at hs
  change Peg.eval _ _ _ (c₁.advance (Lexeme.blank c₁.rest)) = _ at hs
  have hle := (c₁.reaches_advance (Lexeme.blank c₁.rest)).length_le
  have hlt : ∀ c a c', Peg.eval echoGrounded.recognize Lexeme.blank p c = some (a, c') →
      c'.rest.length < c.rest.length := fun _ _ _ => eval_length_lt hp
  unfold eval
  simp only [Peg.list, Peg.eval, hp₁] at hs ⊢
  rcases hn : Peg.eval echoGrounded.recognize Lexeme.blank p
      (c₁.advance (Lexeme.blank c₁.rest)) with _ | ⟨b, c₃⟩
  · rw [hn] at hs
    cases hs
    refine ⟨[a], c₁, ?_, ?_, a, [], rfl, ha, has⟩
    · cases c₁.rest.length <;> simp [Peg.repeated, hn]
    · rw [← hrest, rest_advance_blank, Lexeme.skip_skip]
  · rw [hn] at hs
    cases hs
    have hb := hlt _ _ _ hn
    obtain ⟨n, hlen⟩ : ∃ n, c₁.rest.length = n + 1 := ⟨c₁.rest.length - 1, by omega⟩
    refine ⟨_, _, ?_, hrest, a, _, rfl, ha, has⟩
    simp only [hlen, Peg.repeated, hn]
    rw [Peg.repeated_stable (fun c a c' h => (hlt _ a c' h).trans_le
      (c.reaches_advance _).length_le) n c₃.rest.length c₃ (by omega) le_rfl]
    rfl

end Reads

namespace Refuses

variable {p : Phrase α} {q : Phrase β} {cs : List Char}

theorem text {chars : List Char} {v : γ} (h : chars.isPrefixOf cs = false) :
    Refuses (.text chars v) cs := by
  intro o
  rw [eval, Peg.eval, if_neg (by simp [h])]

theorem lit {s : String} (h : s.toList.isPrefixOf cs = false) : Refuses (Peg.lit s) cs :=
  text h

theorem lexeme {scan : List Char → Option Nat} {f : List Char → γ} (h : scan cs = none) :
    Refuses (.lexeme scan f) cs := by
  intro o
  simp [eval, Peg.eval, h]

theorem rule {r : Rule} (h : (body r).Refuses cs) : (Phrase.rule r).Refuses cs := by
  intro o
  rw [eval_rule]
  exact h o

theorem seq {f : α → β → γ} (h : p.Refuses cs) : Refuses (.seq f p q) cs := by
  intro o
  have h := h o
  unfold eval at h ⊢
  simp [Peg.eval, h]

theorem tight {f : α → β → γ} (h : p.Refuses cs) : Refuses (.tight f p q) cs := by
  intro o
  have h := h o
  unfold eval at h ⊢
  simp [Peg.eval, h]

/-- Whatever the first part matches, the second refuses what follows. -/
theorem seq_right {f : α → β → γ} (h : p.Yields cs fun _ left => q.Refuses (skip left)) :
    Refuses (.seq f p q) cs := by
  intro o
  obtain ⟨a, c₁, hp, hq⟩ := h o
  have hq := hq (c₁.advance (Lexeme.blank c₁.rest)).offset
  unfold eval at hp hq ⊢
  change Peg.eval _ _ q (c₁.advance (Lexeme.blank c₁.rest)) = _ at hq
  simp [Peg.eval, hp, hq]

theorem seq_rule {r : Rule} {f : r.Value → β → γ} (h : Refuses (.seq f (body r) q) cs) :
    Refuses (.seq f (Phrase.rule r) q) cs := by
  intro o
  have h := h o
  have hr := eval_rule r ⟨cs, o⟩
  unfold eval at h hr ⊢
  rw [Peg.eval] at h ⊢
  rwa [hr]

theorem seq_choice {p₁ p₂ : Phrase α} {f : α → β → γ} (h₁ : p₁.Refuses cs)
    (h₂ : Refuses (.seq f p₂ q) cs) : Refuses (.seq f (.choice p₁ p₂) q) cs := by
  intro o
  have h₁ := h₁ o
  have h₂ := h₂ o
  unfold eval at h₁ h₂ ⊢
  rw [Peg.eval] at h₂ ⊢
  rwa [Peg.eval, h₁]

theorem choice {p q : Phrase γ} (hp : p.Refuses cs) (hq : q.Refuses cs) :
    Refuses (.choice p q) cs := by
  intro o
  have hp := hp o
  have hq := hq o
  unfold eval at hp hq ⊢
  simp [Peg.eval, hp, hq]

theorem span {f : α → Range → γ} (h : p.Refuses cs) : Refuses (.span f p) cs := by
  intro o
  have h := h o
  unfold eval at h ⊢
  simp [Peg.eval, h]

theorem slice {f : α → List Char → γ} (h : p.Refuses cs) : Refuses (.slice f p) cs := by
  intro o
  have h := h o
  unfold eval at h ⊢
  simp [Peg.eval, h]

theorem map {f : α → γ} (h : p.Refuses cs) : Refuses (.map f p) cs := by
  intro o
  have h := h o
  unfold eval at h ⊢
  simp [Peg.eval, h]

end Refuses

end Phrase

end Downlevel
