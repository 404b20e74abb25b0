import Downlevel.Proofs.Matching

/-!
# What the value of a match satisfies

`Peg.Delivers call blank S p Q` is computed from a parsing expression: if the values of rules satisfy
`S`, then whatever `p` matches, its value satisfies `Q` (`Peg.Delivers.sound`). So a claim about the
values of all rules needs one look at the body of each. A repetition without blanks is kept as it is,
since there the parts may depend on each other.
-/

namespace Downlevel

namespace Peg

variable {ρ : Type} {V : ρ → Type}

section

variable (call : (r : ρ) → Cursor → Option (V r × Cursor)) (blank : List Char → Nat)
  (S : (r : ρ) → V r → Prop)

/-- The value of a match satisfies `Q`, if the values of rules satisfy `S`. -/
def Delivers : {α : Type} → Peg V α → (α → Prop) → Prop
  | _, .succeed v, Q => Q v
  | _, .text _ v, Q => Q v
  | _, .lexeme scan f, Q => ∀ cs n, scan cs = some n → Q (f (cs.take n))
  | _, .absent _ v, Q => Q v
  | _, .call r f, Q => ∀ v, S r v → Q (f v)
  | _, .seq f p q, Q => Delivers p fun a => Delivers q fun b => Q (f a b)
  | _, .tight f p q, Q => Delivers p fun a => Delivers q fun b => Q (f a b)
  | _, .choice p q, Q => Delivers p Q ∧ Delivers q Q
  | _, .opt f p, Q => Q (f none) ∧ Delivers p fun a => Q (f (some a))
  | _, .many f p, Q => ∃ A, Delivers p A ∧ ∀ as, (∀ a ∈ as, A a) → Q (f as)
  | _, .manyTight f p, Q => ∀ n c, Q (f (repeated (eval call blank p) n c).1)
  | _, .span f p, Q => Delivers p fun a => ∀ range, Q (f a range)
  | _, .slice f p, Q => Delivers p fun a => ∀ cs, Q (f a cs)
  | _, .map f p, Q => Delivers p fun a => Q (f a)

end

variable {call : (r : ρ) → Cursor → Option (V r × Cursor)} {blank : List Char → Nat}
  {S : (r : ρ) → V r → Prop}

theorem repeated_forall {α : Type} {A : α → Prop} {step : Cursor → Option (α × Cursor)}
    (h : ∀ c v c', step c = some (v, c') → A v) :
    ∀ n c, ∀ a ∈ (repeated step n c).1, A a
  | 0, _, a, ha => by simp [repeated] at ha
  | n + 1, c, a, ha => by
    unfold repeated at ha
    split at ha
    · simp at ha
    · rename_i v c' hv
      rcases List.mem_cons.mp ha with rfl | ha
      · exact h _ _ _ hv
      · exact repeated_forall h n _ a ha

theorem Delivers.sound (hcall : ∀ r c v c', call r c = some (v, c') → S r v) {α : Type}
    {p : Peg V α} :
    ∀ {Q : α → Prop}, p.Delivers call blank S Q →
      ∀ {c v c'}, eval call blank p c = some (v, c') → Q v := by
  induction p with
  | succeed v =>
    intro Q h c _ c' he
    cases he
    exact h
  | text s v | absent ss v =>
    intro Q h c _ c' he
    simp only [eval] at he
    split at he <;> cases he
    exact h
  | lexeme scan f =>
    intro Q h c _ c' he
    simp only [eval] at he
    split at he <;> cases he
    rename_i n hn
    exact h _ n hn
  | call r f =>
    intro Q h c _ c' he
    simp only [eval] at he
    split at he <;> cases he
    rename_i v hv
    exact h v (hcall r c v _ hv)
  | seq f p q ihp ihq | tight f p q ihp ihq =>
    intro Q h c _ c' he
    simp only [eval] at he
    split at he <;> try cases he
    rename_i hp
    split at he <;> cases he
    rename_i hq
    exact ihq (ihp h hp) hq
  | choice p q ihp ihq =>
    intro Q h c _ c' he
    simp only [eval] at he
    split at he
    · exact ihq h.2 he
    · rename_i hp
      exact ihp h.1 (hp.trans he)
  | opt f p ih =>
    intro Q h c _ c' he
    simp only [eval] at he
    split at he <;> cases he
    · exact h.1
    · rename_i hp
      exact ih h.2 hp
  | many f p ih =>
    intro Q h c _ c' he
    obtain ⟨A, hA, hQ⟩ := h
    simp only [eval] at he
    split at he <;> cases he
    · exact hQ _ (by simp)
    · rename_i hp
      exact hQ _ (List.forall_mem_cons.mpr
        ⟨ih hA hp, repeated_forall (fun _ _ _ hd => ih hA hd) _ _⟩)
  | manyTight f p ih =>
    intro Q h c _ c' he
    simp only [eval, Option.some.injEq, Prod.mk.injEq] at he
    rw [← he.1]
    exact h _ c
  | span f p ih | slice f p ih =>
    intro Q h c _ c' he
    simp only [eval] at he
    split at he <;> cases he
    rename_i hp
    exact ih h hp _
  | map f p ih =>
    intro Q h c _ c' he
    simp only [eval] at he
    split at he <;> cases he
    rename_i hp
    exact ih h hp

theorem Delivers.mono {α : Type} {p : Peg V α} :
    ∀ {Q R : α → Prop}, p.Delivers call blank S Q → (∀ v, Q v → R v) →
      p.Delivers call blank S R := by
  induction p with
  | succeed | text | absent => exact fun h hQ => hQ _ h
  | lexeme scan f => exact fun h hQ cs n hn => hQ _ (h cs n hn)
  | call r f => exact fun h hQ v hv => hQ _ (h v hv)
  | seq f p q ihp ihq | tight f p q ihp ihq =>
    exact fun h hQ => ihp h fun a ha => ihq ha fun b hb => hQ _ hb
  | choice p q ihp ihq => exact fun h hQ => ⟨ihp h.1 hQ, ihq h.2 hQ⟩
  | opt f p ih => exact fun h hQ => ⟨hQ _ h.1, ih h.2 fun a ha => hQ _ ha⟩
  | manyTight f p ih => exact fun h hQ n c => hQ _ (h n c)
  | many f p ih =>
    exact fun h hQ => h.imp fun A hA => ⟨hA.1, fun as has => hQ _ (hA.2 as has)⟩
  | span f p ih | slice f p ih => exact fun h hQ => ih h fun a ha x => hQ _ (ha x)
  | map f p ih => exact fun h hQ => ih h fun a ha => hQ _ ha

end Peg

end Downlevel
