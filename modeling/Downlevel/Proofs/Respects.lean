import Mathlib.Data.List.Forall2
import Downlevel.Proofs.Alike
import Downlevel.Proofs.Recognize

/-!
# Matching texts that are alike

`Peg.Respects call S home p σ Q` is computed from a parsing expression: if rules match alike in texts
that are alike, with values related by `S`, then so does `p` where `σ` stands open, and its values and
what it leaves open are related by `Q` (`Peg.Respects.sound`). The characters that an expression took
up are not the same in both texts, so what is made of them is kept as it is.
-/

namespace Downlevel

namespace Peg

variable {ρ : Type} {V : ρ → Type} {α β γ : Type}

/-- No match in both texts, or a match in both that leaves texts alike. -/
inductive Agree (Q : List Bracket → α → α → Prop) :
    Option (α × Cursor) → Option (α × Cursor) → Prop
  | none : Agree Q none none
  | some {τ : List Bracket} {v v' : α} {c c' : Cursor} (value : Q τ v v')
    (rest : Alike τ c.rest c'.rest) : Agree Q (some (v, c)) (some (v', c'))

theorem Agree.mono {Q R : List Bracket → α → α → Prop} {x x' : Option (α × Cursor)}
    (h : Agree Q x x') (hQ : ∀ τ v v', Q τ v v' → R τ v v') : Agree R x x' := by
  cases h with
  | none => exact .none
  | some value rest => exact .some (hQ _ _ _ value) rest

/-- Where what comes first agrees and what follows it does, both together do. -/
theorem Agree.seq {P : List Bracket → α → α → Prop} {Q : List Bracket → γ → γ → Prop}
    {x x' : Option (α × Cursor)} {k : Cursor → Option (β × Cursor)} {f : α → β → γ} :
    Agree P x x' →
    (∀ τ a a' d d', P τ a a' → Alike τ d.rest d'.rest →
      Agree (fun υ b b' => Q υ (f a b) (f a' b')) (k d) (k d')) →
    Agree Q
      (match x with
        | Option.none => Option.none
        | Option.some (a, d) =>
          match k d with
          | Option.none => Option.none
          | Option.some (b, e) => Option.some (f a b, e))
      (match x' with
        | Option.none => Option.none
        | Option.some (a, d) =>
          match k d with
          | Option.none => Option.none
          | Option.some (b, e) => Option.some (f a b, e)) := by
  intro h hk
  cases h with
  | none => exact .none
  | @some τ a a' d d' value rest =>
    have hd := hk τ a a' d d' value rest
    dsimp only
    generalize k d = y at hd ⊢
    generalize k d' = y' at hd ⊢
    cases hd with
    | none => exact .none
    | some value rest => exact .some value rest

section

variable (call : (r : ρ) → Cursor → Option (V r × Cursor)) (S : (r : ρ) → V r → V r → Prop)
  (home : ρ → List Bracket → Prop)

/-- An expression matches alike in texts that are alike. Rule `r` is called where `home r` holds. -/
def Respects : {α : Type} → Peg V α → List Bracket → (List Bracket → α → α → Prop) → Prop
  | _, .succeed v, σ, Q => Q σ v v
  | _, .text s v, σ, Q => ∃ τ, ReadsAlike σ s τ ∧ Q τ v v
  | _, .lexeme scan f, σ, Q => ScansAlike σ scan ∧ ∀ cs, Q σ (f cs) (f cs)
  | _, .absent ss v, σ, Q => (∀ s ∈ ss, ∃ τ, ReadsAlike σ s τ) ∧ Q σ v v
  | _, .call r f, σ, Q => home r σ ∧ ∀ v v', S r v v' → Q σ (f v) (f v')
  | _, .seq f p q, σ, Q => Respects p σ fun τ a a' => inTemplate τ = false ∧
      Respects q τ fun υ b b' => Q υ (f a b) (f a' b')
  | _, .tight f p q, σ, Q => Respects p σ fun τ a a' => inTemplate τ = true ∧
      Respects q τ fun υ b b' => Q υ (f a b) (f a' b')
  | _, .choice p q, σ, Q => Respects p σ Q ∧ Respects q σ Q
  | _, .opt f p, σ, Q => Q σ (f none) (f none) ∧
      Respects p σ fun τ a a' => Q τ (f (some a)) (f (some a'))
  | _, .many f p, σ, Q => inTemplate σ = false ∧ ∃ A,
      Respects p σ (fun τ a a' => τ = σ ∧ A a a') ∧
      ∀ as as', List.Forall₂ A as as' → Q σ (f as) (f as')
  | _, .manyTight f p, σ, Q => inTemplate σ = true ∧ ∃ A,
      Respects p σ (fun τ a a' => τ = σ ∧ A a a') ∧
      ∀ as as', List.Forall₂ A as as' → Q σ (f as) (f as')
  | _, .span f p, σ, Q =>
    Respects p σ fun τ a a' => ∀ range range', Q τ (f a range) (f a' range')
  | _, .slice f p, σ, Q => ∀ c c', Facing σ c.rest c'.rest →
      Agree Q (eval call Lexeme.blank (.slice f p) c) (eval call Lexeme.blank (.slice f p) c')
  | _, .map f p, σ, Q => Respects p σ fun τ a a' => Q τ (f a) (f a')

end

/-- Repetitions go on as long in both texts. -/
theorem repeated_agree {σ : List Bracket} {A : α → α → Prop} (step : Cursor → Option (α × Cursor))
    (hstep : ∀ c c', Alike σ c.rest c'.rest →
      Agree (fun τ a a' => τ = σ ∧ A a a') (step c) (step c'))
    (hlt : ∀ c a c', step c = some (a, c') → c'.rest.length < c.rest.length) :
    ∀ (n m : Nat) (c c' : Cursor), Alike σ c.rest c'.rest → c.rest.length ≤ n →
      c'.rest.length ≤ m →
      List.Forall₂ A (repeated step n c).1 (repeated step m c').1 ∧
        Alike σ (repeated step n c).2.rest (repeated step m c').2.rest := by
  have hnone : ∀ (n : Nat) (c : Cursor), step c = none → repeated step n c = ([], c) := by
    intro n c h
    cases n <;> simp [repeated, h]
  intro n
  induction n with
  | zero =>
    intro m c c' h hn _
    have hagree := hstep c c' h
    rcases hs : step c with _ | ⟨a, d⟩
    · rw [hs] at hagree
      generalize hs' : step c' = r' at hagree
      cases hagree
      rw [hnone 0 c hs, hnone m c' hs']
      exact ⟨.nil, h⟩
    · have := hlt c a d hs
      omega
  | succ n ih =>
    intro m c c' h hn hm
    have hagree := hstep c c' h
    generalize hs : step c = r at hagree
    generalize hs' : step c' = r' at hagree
    cases hagree with
    | none =>
      rw [hnone _ c hs, hnone m c' hs']
      exact ⟨.nil, h⟩
    | @some _ a a' d d' value rest =>
      obtain ⟨rfl, hA⟩ := value
      have hd := hlt c a d hs
      have hd' := hlt c' a' d' hs'
      obtain ⟨m, rfl⟩ : ∃ k, m = k + 1 := ⟨m - 1, by omega⟩
      obtain ⟨has, hrest⟩ := ih m d d' rest (by omega) (by omega)
      simp only [repeated, hs, hs']
      exact ⟨.cons hA has, hrest⟩

variable {call : (r : ρ) → Cursor → Option (V r × Cursor)} {S : (r : ρ) → V r → V r → Prop}
  {home : ρ → List Bracket → Prop} {empty : ρ → Bool}

theorem Respects.mono {p : Peg V α} :
    ∀ {σ : List Bracket} {Q R : List Bracket → α → α → Prop}, p.Respects call S home σ Q →
      (∀ τ v v', Q τ v v' → R τ v v') → p.Respects call S home σ R := by
  induction p with
  | succeed => exact fun h hQ => hQ _ _ _ h
  | text s v => exact fun h hQ => h.imp fun τ hτ => ⟨hτ.1, hQ _ _ _ hτ.2⟩
  | lexeme scan f => exact fun h hQ => ⟨h.1, fun cs => hQ _ _ _ (h.2 cs)⟩
  | absent => exact fun h hQ => ⟨h.1, hQ _ _ _ h.2⟩
  | call r f => exact fun h hQ => ⟨h.1, fun v v' hv => hQ _ _ _ (h.2 v v' hv)⟩
  | seq f p q ihp ihq | tight f p q ihp ihq =>
    exact fun h hQ => ihp h fun τ a a' ha => ⟨ha.1, ihq ha.2 fun υ b b' hb => hQ _ _ _ hb⟩
  | choice p q ihp ihq => exact fun h hQ => ⟨ihp h.1 hQ, ihq h.2 hQ⟩
  | opt f p ih => exact fun h hQ => ⟨hQ _ _ _ h.1, ih h.2 fun τ a a' ha => hQ _ _ _ ha⟩
  | many f p ih | manyTight f p ih =>
    exact fun h hQ => ⟨h.1, h.2.imp fun A hA =>
      ⟨hA.1, fun as as' has => hQ _ _ _ (hA.2 as as' has)⟩⟩
  | span f p ih =>
    exact fun h hQ => ih h fun τ a a' ha range range' => hQ _ _ _ (ha range range')
  | slice f p ih => exact fun h hQ c c' hc => (h c c' hc).mono hQ
  | map f p ih => exact fun h hQ => ih h fun τ a a' ha => hQ _ _ _ ha

/-- An expression that respects blanks matches alike. -/
theorem Respects.sound
    (hcall : ∀ r σ c c', home r σ → Facing σ c.rest c'.rest →
      Agree (fun τ v v' => τ = σ ∧ S r v v') (call r c) (call r c'))
    (hle : ∀ r c v c', call r c = some (v, c') → c.Reaches c')
    (hlt : ∀ r c v c', empty r = false → call r c = some (v, c') →
      c'.rest.length < c.rest.length) {p : Peg V α} :
    ∀ {σ Q c c'}, p.productive empty = true → p.Respects call S home σ Q →
      Facing σ c.rest c'.rest →
      Agree Q (eval call Lexeme.blank p c) (eval call Lexeme.blank p c') := by
  induction p with
  | succeed v =>
    intro σ Q c c' _ h hc
    exact .some h hc.alike
  | text s v =>
    rintro σ Q c c' - ⟨τ, hreads, hQ⟩ hc
    simp only [eval]
    rw [← hreads.isPrefixOf_eq hc]
    split
    · rename_i hs
      obtain ⟨t, ht⟩ := List.isPrefixOf_iff_prefix.mp hs
      obtain ⟨t', ht', hrest⟩ := hreads hc ht.symm
      refine .some hQ ?_
      rwa [Cursor.advance_rest, Cursor.advance_rest, ← ht, ht', List.drop_left, List.drop_left]
    · exact .none
  | lexeme scan f =>
    rintro σ Q c c' - ⟨hscan, hQ⟩ hc
    simp only [eval]
    rcases hn : scan c.rest with _ | n
    · rw [hscan.eq_none hc hn]
      exact .none
    · obtain ⟨hn', htake, hrest⟩ := hscan hc hn
      rw [hn']
      dsimp only
      rw [htake]
      exact .some (hQ _) hrest
  | absent ss v =>
    rintro σ Q c c' - ⟨hss, hQ⟩ hc
    have hany : ss.any (·.isPrefixOf c.rest) = ss.any (·.isPrefixOf c'.rest) := by
      rw [Bool.eq_iff_iff, List.any_eq_true, List.any_eq_true]
      refine exists_congr fun s => and_congr_right fun hs => ?_
      obtain ⟨τ, hreads⟩ := hss s hs
      rw [hreads.isPrefixOf_eq hc]
    simp only [eval, hany]
    split
    · exact .none
    · exact .some hQ hc.alike
  | call r f =>
    rintro σ Q c c' - ⟨hhome, hQ⟩ hc
    have h := hcall r σ c c' hhome hc
    simp only [eval]
    generalize call r c = x at h ⊢
    generalize call r c' = x' at h ⊢
    cases h with
    | none => exact .none
    | some value rest =>
      obtain ⟨rfl, hv⟩ := value
      exact .some (hQ _ _ hv) rest
  | seq f p q ihp ihq =>
    intro σ Q c c' hprod h hc
    simp only [productive, Bool.and_eq_true] at hprod
    simp only [eval]
    exact (ihp hprod.1 h hc).seq fun τ a a' d d' value rest =>
      ihq hprod.2 value.2 (rest.facing value.1)
  | tight f p q ihp ihq =>
    intro σ Q c c' hprod h hc
    simp only [productive, Bool.and_eq_true] at hprod
    simp only [eval]
    exact (ihp hprod.1 h hc).seq fun τ a a' d d' value rest =>
      ihq hprod.2 value.2 (rest.facing_of_template value.1)
  | choice p q ihp ihq =>
    intro σ Q c c' hprod h hc
    simp only [productive, Bool.and_eq_true] at hprod
    have hp := ihp hprod.1 h.1 hc
    simp only [eval]
    generalize eval call Lexeme.blank p c = x at hp ⊢
    generalize eval call Lexeme.blank p c' = x' at hp ⊢
    cases hp with
    | none => exact ihq hprod.2 h.2 hc
    | some value rest => exact .some value rest
  | opt f p ih =>
    intro σ Q c c' hprod h hc
    have hp := ih hprod h.2 hc
    simp only [eval]
    generalize eval call Lexeme.blank p c = x at hp ⊢
    generalize eval call Lexeme.blank p c' = x' at hp ⊢
    cases hp with
    | none => exact .some h.1 hc.alike
    | some value rest => exact .some value rest
  | many f p ih =>
    rintro σ Q c c' hprod ⟨hσ, A, hA, hQ⟩ hc
    simp only [productive, Bool.and_eq_true, Bool.not_eq_true'] at hprod
    have hp := ih hprod.2 hA hc
    simp only [eval]
    generalize eval call Lexeme.blank p c = x at hp ⊢
    generalize eval call Lexeme.blank p c' = x' at hp ⊢
    cases hp with
    | none => exact .some (hQ _ _ .nil) hc.alike
    | @some _ _ _ d d' value rest =>
      obtain ⟨rfl, ha⟩ := value
      obtain ⟨has, hrest⟩ := repeated_agree
        (fun c => eval call Lexeme.blank p (c.advance (Lexeme.blank c.rest)))
        (fun e e' he => ih hprod.2 hA (he.facing hσ))
        (fun e a e' he =>
          (eval_length_lt hle hlt p hprod.1 he).trans_le (e.reaches_advance _).length_le)
        _ _ d d' rest le_rfl le_rfl
      exact .some (hQ _ _ (.cons ha has)) hrest
  | manyTight f p ih =>
    rintro σ Q c c' hprod ⟨hσ, A, hA, hQ⟩ hc
    simp only [productive, Bool.and_eq_true, Bool.not_eq_true'] at hprod
    obtain ⟨has, hrest⟩ := repeated_agree (eval call Lexeme.blank p)
      (fun e e' he => ih hprod.2 hA (he.facing_of_template hσ))
      (fun e a e' he => eval_length_lt hle hlt p hprod.1 he) _ _ c c' hc.alike le_rfl le_rfl
    simp only [eval]
    exact .some (hQ _ _ has) hrest
  | span f p ih =>
    intro σ Q c c' hprod h hc
    have hp := ih hprod h hc
    simp only [eval]
    generalize eval call Lexeme.blank p c = x at hp ⊢
    generalize eval call Lexeme.blank p c' = x' at hp ⊢
    cases hp with
    | none => exact .none
    | some value rest => exact .some (value _ _) rest
  | slice f p ih =>
    intro σ Q c c' hprod h hc
    exact h c c' hc
  | map f p ih =>
    intro σ Q c c' hprod h hc
    have hp := ih hprod h hc
    simp only [eval]
    generalize eval call Lexeme.blank p c = x at hp ⊢
    generalize eval call Lexeme.blank p c' = x' at hp ⊢
    cases hp with
    | none => exact .none
    | some value rest => exact .some value rest

end Peg

end Downlevel
