import Mathlib.Data.Nat.Basic
import Mathlib.Order.Basic
import Downlevel.Peg.Run

/-!
# What a grammar recognizes, without bounds

Running a grammar bounds how deep rules are nested and how often an expression is repeated.
`Peg.eval` has neither bound and no tracker. If no rule leads back to itself before a character is
consumed (`Grammar.Grounded`), a run with enough room does what `eval` says (`call_matched`), and
`Grammar.recognize` obeys the grammar as a system of equations (`recognize_eq`).
-/

namespace Downlevel

namespace Cursor

@[simp] theorem advance_rest (c : Cursor) (n : Nat) : (c.advance n).rest = c.rest.drop n := rfl

/-- A place at or after another in the same text. -/
def Reaches (c c' : Cursor) : Prop :=
  ∃ n, c' = c.advance n

theorem reaches_advance (c : Cursor) (n : Nat) : c.Reaches (c.advance n) :=
  ⟨n, rfl⟩

@[simp] theorem advance_zero (c : Cursor) : c.advance 0 = c := by
  simp [advance, byteLength]

theorem byteLength_append : ∀ cs ds : List Char,
    byteLength (cs ++ ds) = byteLength cs + byteLength ds
  | [], ds => by simp [byteLength]
  | c :: cs, ds => by simp [byteLength, byteLength_append cs ds, Nat.add_assoc]

theorem advance_advance (c : Cursor) (n m : Nat) : (c.advance n).advance m = c.advance (n + m) := by
  simp [advance, List.take_add, byteLength_append, Nat.add_assoc]

theorem reaches_refl (c : Cursor) : c.Reaches c :=
  ⟨0, c.advance_zero.symm⟩

theorem Reaches.trans {c d e : Cursor} (hcd : c.Reaches d) (hde : d.Reaches e) : c.Reaches e := by
  obtain ⟨n, rfl⟩ := hcd
  obtain ⟨m, rfl⟩ := hde
  exact ⟨n + m, c.advance_advance n m⟩

/-- The bytes between two places give back the characters between them. -/
theorem takeBytes_advance : ∀ (n : Nat) (cs : List Char),
    takeBytes (byteLength (cs.take n)) cs = cs.take n
  | 0, cs => by cases cs <;> rfl
  | n + 1, [] => rfl
  | n + 1, c :: cs => by
    have hc := c.utf8Size_pos
    have ih := takeBytes_advance n cs
    obtain ⟨m, hm⟩ : ∃ m, byteLength ((c :: cs).take (n + 1)) = m + 1 :=
      ⟨byteLength ((c :: cs).take (n + 1)) - 1, by simp [byteLength]; omega⟩
    rw [hm, takeBytes, ← hm, List.take_succ_cons, byteLength, Nat.add_sub_cancel_left, ih]
    simp

theorem Reaches.length_le {c d : Cursor} (h : c.Reaches d) : d.rest.length ≤ c.rest.length := by
  obtain ⟨n, rfl⟩ := h
  simp

end Cursor

namespace Peg

variable {ρ : Type} {V : ρ → Type}

/-- Repeats a step until it fails, at most as often as said. -/
def repeated {α : Type} (step : Cursor → Option (α × Cursor)) : Nat → Cursor → List α × Cursor
  | 0, c => ([], c)
  | n + 1, c =>
    match step c with
    | none => ([], c)
    | some (a, c) => (a :: (repeated step n c).1, (repeated step n c).2)

/-- What an expression matches, given what rules match. A repetition takes no more rounds than there
are characters left. -/
def eval (call : (r : ρ) → Cursor → Option (V r × Cursor)) (blank : List Char → Nat) {α : Type} :
    Peg V α → Cursor → Option (α × Cursor)
  | .succeed v, c => some (v, c)
  | .text s v, c => if s.isPrefixOf c.rest then some (v, c.advance s.length) else none
  | .lexeme scan f, c =>
    match scan c.rest with
    | none => none
    | some n => some (f (c.rest.take n), c.advance n)
  | .absent ss v, c => if ss.any (·.isPrefixOf c.rest) then none else some (v, c)
  | .call r f, c =>
    match call r c with
    | none => none
    | some (v, c) => some (f v, c)
  | .seq f p q, c =>
    match eval call blank p c with
    | none => none
    | some (a, c) =>
      match eval call blank q (c.advance (blank c.rest)) with
      | none => none
      | some (b, c) => some (f a b, c)
  | .tight f p q, c =>
    match eval call blank p c with
    | none => none
    | some (a, c) =>
      match eval call blank q c with
      | none => none
      | some (b, c) => some (f a b, c)
  | .choice p q, c =>
    match eval call blank p c with
    | none => eval call blank q c
    | some reply => some reply
  | .opt f p, c =>
    match eval call blank p c with
    | none => some (f none, c)
    | some (a, c) => some (f (some a), c)
  | .many f p, c =>
    match eval call blank p c with
    | none => some (f [], c)
    | some (a, c) =>
      let (as, c) :=
        repeated (fun c => eval call blank p (c.advance (blank c.rest))) c.rest.length c
      some (f (a :: as), c)
  | .manyTight f p, c =>
    let (as, c) := repeated (eval call blank p) c.rest.length c
    some (f as, c)
  | .span f p, c =>
    match eval call blank p c with
    | none => none
    | some (a, c') => some (f a ⟨c.offset, c'.offset⟩, c')
  | .slice f p, c =>
    match eval call blank p c with
    | none => none
    | some (a, c') => some (f a (takeBytes (c'.offset - c.offset) c.rest), c')
  | .map f p, c =>
    match eval call blank p c with
    | none => none
    | some (a, c) => some (f a, c)

/-! ## Where an expression starts -/

section Heads

variable (empty : ρ → Bool)

/-- Whether an expression may match without consuming anything, given which rules may. -/
def nullable {α : Type} : Peg V α → Bool
  | .text s _ => s.isEmpty
  | .call r _ => empty r
  | .seq _ p q | .tight _ p q => nullable p && nullable q
  | .choice p q => nullable p || nullable q
  | .span _ p | .slice _ p | .map _ p => nullable p
  | .succeed _ | .lexeme .. | .absent .. | .opt .. | .many .. | .manyTight .. => true

/-- The rules an expression may call before it has consumed anything. -/
def heads {α : Type} : Peg V α → List ρ
  | .call r _ => [r]
  | .seq _ p q | .tight _ p q => heads p ++ if nullable empty p then heads q else []
  | .choice p q => heads p ++ heads q
  | .opt _ p | .many _ p | .manyTight _ p | .span _ p | .slice _ p | .map _ p => heads p
  | .succeed _ | .text .. | .lexeme .. | .absent .. => []

/-- Whether every repetition in an expression consumes something in each round. -/
def productive {α : Type} : Peg V α → Bool
  | .many _ p | .manyTight _ p => !nullable empty p && productive p
  | .seq _ p q | .tight _ p q | .choice p q => productive p && productive q
  | .opt _ p | .span _ p | .slice _ p | .map _ p => productive p
  | .succeed _ | .text .. | .lexeme .. | .absent .. | .call .. => true

end Heads

/-! ## Matching never goes back -/

section Shrink

theorem repeated_reaches {α : Type} {step : Cursor → Option (α × Cursor)}
    (hstep : ∀ c a c', step c = some (a, c') → c.Reaches c') :
    ∀ (n : Nat) (c : Cursor), c.Reaches (repeated step n c).2
  | 0, c => c.reaches_refl
  | n + 1, c => by
    simp only [repeated]
    split
    · exact c.reaches_refl
    · rename_i a c' h
      exact (hstep c a c' h).trans (repeated_reaches hstep n c')

variable {call : (r : ρ) → Cursor → Option (V r × Cursor)} {blank : List Char → Nat}
  {empty : ρ → Bool}

theorem eval_reaches (hcall : ∀ r c v c', call r c = some (v, c') → c.Reaches c')
    {α : Type} (p : Peg V α) :
    ∀ {c v c'}, eval call blank p c = some (v, c') → c.Reaches c' := by
  induction p with
  | succeed v | absent ss v =>
    intro c _ c' h
    simp only [eval] at h
    grind [c.reaches_refl]
  | text s v =>
    intro c _ c' h
    simp only [eval] at h
    split at h <;> cases h
    exact c.reaches_advance _
  | lexeme scan f =>
    intro c _ c' h
    simp only [eval] at h
    split at h <;> cases h
    exact c.reaches_advance _
  | call r f =>
    intro c _ c' h
    simp only [eval] at h
    split at h <;> cases h
    rename_i v h
    exact hcall r c v _ h
  | seq f p q ihp ihq =>
    intro c _ c' h
    simp only [eval] at h
    split at h <;> try cases h
    rename_i a c₁ hp
    split at h <;> cases h
    rename_i b hq
    exact (ihp hp).trans ((c₁.reaches_advance _).trans (ihq hq))
  | tight f p q ihp ihq =>
    intro c _ c' h
    simp only [eval] at h
    split at h <;> try cases h
    rename_i a c₁ hp
    split at h <;> cases h
    rename_i b hq
    exact (ihp hp).trans (ihq hq)
  | choice p q ihp ihq =>
    intro c _ c' h
    simp only [eval] at h
    split at h
    · exact ihq h
    · rename_i hp
      exact ihp (hp.trans h)
  | opt f p ih =>
    intro c _ c' h
    simp only [eval] at h
    split at h <;> cases h
    · exact Cursor.reaches_refl _
    · rename_i hp
      exact ih hp
  | many f p ih =>
    intro c _ c' h
    simp only [eval] at h
    split at h <;> cases h
    · exact Cursor.reaches_refl _
    · rename_i a c₁ hp
      refine (ih hp).trans (repeated_reaches (fun d a d' hd => ?_) _ c₁)
      exact (d.reaches_advance _).trans (ih hd)
  | manyTight f p ih =>
    intro c _ c' h
    simp only [eval, Option.some.injEq, Prod.mk.injEq] at h
    rw [← h.2]
    exact repeated_reaches (fun _ _ _ => ih) _ c
  | span f p ih | slice f p ih | map f p ih =>
    intro c _ c' h
    simp only [eval] at h
    split at h <;> cases h
    rename_i hp
    exact ih hp

theorem eval_length_lt (hcall : ∀ r c v c', call r c = some (v, c') → c.Reaches c')
    (hempty : ∀ r c v c', empty r = false → call r c = some (v, c') → c'.rest.length < c.rest.length)
    {α : Type} (p : Peg V α) (hp : p.nullable empty = false) :
    ∀ {c v c'}, eval call blank p c = some (v, c') → c'.rest.length < c.rest.length := by
  induction p with
  | succeed _ | absent _ _ | lexeme _ _ | opt _ _ _ | many _ _ _ | manyTight _ _ _ =>
    simp [nullable] at hp
  | text s v =>
    intro c _ c' h
    simp only [eval] at h
    split at h <;> cases h
    rename_i hs
    have hs := (List.isPrefixOf_iff_prefix.mp hs).length_le
    have : s ≠ [] := by simpa [nullable] using hp
    have := List.length_pos_iff.mpr this
    simp only [Cursor.advance_rest, List.length_drop]
    omega
  | call r f =>
    intro c _ c' h
    simp only [eval] at h
    split at h <;> cases h
    rename_i v h
    exact hempty r c v _ hp h
  | seq f p q ihp ihq =>
    intro c _ c' h
    simp only [eval] at h
    split at h <;> try cases h
    rename_i a c₁ h₁
    split at h <;> cases h
    rename_i b h₂
    have hskip := (c₁.reaches_advance (blank c₁.rest)).length_le
    simp only [nullable, Bool.and_eq_false_iff] at hp
    rcases hp with hp | hp
    · exact (eval_reaches hcall q h₂).length_le.trans_lt (hskip.trans_lt (ihp hp h₁))
    · exact (ihq hp h₂).trans_le (hskip.trans (eval_reaches hcall p h₁).length_le)
  | tight f p q ihp ihq =>
    intro c _ c' h
    simp only [eval] at h
    split at h <;> try cases h
    rename_i a c₁ h₁
    split at h <;> cases h
    rename_i b h₂
    simp only [nullable, Bool.and_eq_false_iff] at hp
    rcases hp with hp | hp
    · exact (eval_reaches hcall q h₂).length_le.trans_lt (ihp hp h₁)
    · exact (ihq hp h₂).trans_le (eval_reaches hcall p h₁).length_le
  | choice p q ihp ihq =>
    intro c _ c' h
    simp only [nullable, Bool.or_eq_false_iff] at hp
    simp only [eval] at h
    split at h
    · exact ihq hp.2 h
    · rename_i h₁
      exact ihp hp.1 (h₁.trans h)
  | span f p ih | slice f p ih | map f p ih =>
    intro c _ c' h
    simp only [eval] at h
    split at h <;> cases h
    rename_i h₁
    exact ih hp h₁

end Shrink

/-- A repetition has ended after as many rounds as there are characters left. -/
theorem repeated_stable {α : Type} {step : Cursor → Option (α × Cursor)}
    (hstep : ∀ c a c', step c = some (a, c') → c'.rest.length < c.rest.length) :
    ∀ (n m : Nat) (c : Cursor), c.rest.length ≤ n → c.rest.length ≤ m →
      repeated step n c = repeated step m c
  | 0, 0, _, _, _ => rfl
  | 0, m + 1, c, hn, _ => by
    cases hs : step c with
    | none => simp [repeated, hs]
    | some r =>
      have := hstep c r.1 r.2 hs
      omega
  | n + 1, 0, c, _, hm => by
    cases hs : step c with
    | none => simp [repeated, hs]
    | some r =>
      have := hstep c r.1 r.2 hs
      omega
  | n + 1, m + 1, c, hn, hm => by
    cases hs : step c with
    | none => simp [repeated, hs]
    | some r =>
      have hlt := hstep c r.1 r.2 hs
      have ih := repeated_stable hstep n m r.2 (by omega) (by omega)
      simp [repeated, hs, ih]

/-! ## A run with enough room -/

section Run

/-- Rounds are not cut off while the limit is at least as large as what is left to match. -/
theorem iterate_eq_repeated {α : Type} (step : Cursor → Tracker ρ → Reply ρ α)
    (ideal : Cursor → Option (α × Cursor)) {n : Nat}
    (hstep : ∀ c t, c.rest.length ≤ n → (step c t).matched = ideal c)
    (hlt : ∀ c a c', ideal c = some (a, c') → c'.rest.length < c.rest.length) :
    ∀ (limit m : Nat) (c : Cursor) (t : Tracker ρ), c.rest.length ≤ n → c.rest.length ≤ limit →
      c.rest.length ≤ m →
      ((iterate step limit c t).1, (iterate step limit c t).2.1) = repeated ideal m c
  | 0, 0, c, t, _, _, _ => rfl
  | 0, m + 1, c, t, hn, hl, _ => by
    have hnone : ideal c = none := by
      by_contra h
      obtain ⟨⟨a, c'⟩, h⟩ := Option.ne_none_iff_exists'.mp h
      have := hlt c a c' h
      omega
    simp [iterate, repeated, hnone]
  | limit + 1, m, c, t, hn, hl, hm => by
    have hs := hstep c t hn
    rcases hr : step c t with ⟨_ | ⟨a, c'⟩, t'⟩
    · rw [hr] at hs
      cases m <;> simp [iterate, repeated, hr, ← hs]
    · rw [hr] at hs
      have hc := hlt c a c' hs.symm
      obtain ⟨m, rfl⟩ : ∃ k, m = k + 1 := ⟨m - 1, by omega⟩
      have ih := iterate_eq_repeated step ideal hstep hlt limit m c' t' (by omega) (by omega) (by omega)
      simp only [Prod.ext_iff] at ih
      simp [iterate, repeated, hr, ← hs, ih.1, ih.2]

variable {call : (r : ρ) → Cursor → Tracker ρ → Reply ρ (V r)}
  {ideal : (r : ρ) → Cursor → Option (V r × Cursor)} {blank : List Char → Nat} {empty : ρ → Bool}

/-- If rules match as they ideally do, at shorter texts any rule and at this one those the
expression can start with, then so does the expression. -/
theorem run_matched
    (hle : ∀ r c v c', ideal r c = some (v, c') → c.Reaches c')
    (hlt : ∀ r c v c', empty r = false → ideal r c = some (v, c') →
      c'.rest.length < c.rest.length) {limit : Nat} {α : Type} (p : Peg V α) :
    ∀ (n : Nat) (c : Cursor) (t : Tracker ρ), p.productive empty = true → c.rest.length ≤ n →
      n ≤ limit →
      (∀ r c t, c.rest.length < n → (call r c t).matched = ideal r c) →
      (∀ r ∈ p.heads empty, ∀ c t, c.rest.length ≤ n → (call r c t).matched = ideal r c) →
      (run call blank limit p c t).matched = eval ideal blank p c := by
  induction p with
  | succeed v => intros; rfl
  | text s v | absent ss v =>
    intro n c t _ _ _ _ _
    simp only [run, eval]
    split <;> rfl
  | lexeme scan f =>
    intro n c t _ _ _ _ _
    simp only [run, eval]
    rcases scan c.rest with _ | n <;> rfl
  | call r f =>
    intro n c t _ hc _ _ hheads
    have h := hheads r (by simp [heads]) c t hc
    simp only [run, eval, ← h]
    rcases call r c t with ⟨_ | ⟨v, c'⟩, t'⟩ <;> rfl
  | seq f p q ihp ihq =>
    intro n c t hprod hc hn hshort hheads
    simp only [productive, Bool.and_eq_true] at hprod
    have h := ihp n c t hprod.1 hc hn hshort fun r hr => hheads r (by simp [heads, hr])
    simp only [run, eval, ← h]
    rcases hr : run call blank limit p c t with ⟨_ | ⟨a, c₁⟩, t₁⟩
    · rfl
    · rw [hr] at h
      have hskip := (c₁.reaches_advance (blank c₁.rest)).length_le
      have h₂ : (run call blank limit q (c₁.advance (blank c₁.rest)) t₁).matched
          = eval ideal blank q (c₁.advance (blank c₁.rest)) := by
        by_cases hnull : p.nullable empty = true
        · have := (eval_reaches hle p h.symm).length_le
          exact ihq n _ t₁ hprod.2 (by omega) hn hshort
            fun r hr => hheads r (by simp [heads, hnull, hr])
        · have := eval_length_lt hle hlt p (by simpa using hnull) h.symm
          exact ihq (n - 1) _ t₁ hprod.2 (by omega) (by omega)
            (fun r c t h => hshort r c t (by omega)) fun r _ c t h => hshort r c t (by omega)
      simp only [← h₂]
      rcases run call blank limit q (c₁.advance (blank c₁.rest)) t₁ with ⟨_ | ⟨b, c₂⟩, t₂⟩ <;> rfl
  | tight f p q ihp ihq =>
    intro n c t hprod hc hn hshort hheads
    simp only [productive, Bool.and_eq_true] at hprod
    have h := ihp n c t hprod.1 hc hn hshort fun r hr => hheads r (by simp [heads, hr])
    simp only [run, eval, ← h]
    rcases hr : run call blank limit p c t with ⟨_ | ⟨a, c₁⟩, t₁⟩
    · rfl
    · rw [hr] at h
      have h₂ : (run call blank limit q c₁ t₁).matched = eval ideal blank q c₁ := by
        by_cases hnull : p.nullable empty = true
        · have := (eval_reaches hle p h.symm).length_le
          exact ihq n _ t₁ hprod.2 (by omega) hn hshort
            fun r hr => hheads r (by simp [heads, hnull, hr])
        · have := eval_length_lt hle hlt p (by simpa using hnull) h.symm
          exact ihq (n - 1) _ t₁ hprod.2 (by omega) (by omega)
            (fun r c t h => hshort r c t (by omega)) fun r _ c t h => hshort r c t (by omega)
      simp only [← h₂]
      rcases run call blank limit q c₁ t₁ with ⟨_ | ⟨b, c₂⟩, t₂⟩ <;> rfl
  | choice p q ihp ihq =>
    intro n c t hprod hc hn hshort hheads
    simp only [productive, Bool.and_eq_true] at hprod
    have h := ihp n c t hprod.1 hc hn hshort fun r hr => hheads r (by simp [heads, hr])
    simp only [run, eval, ← h]
    rcases run call blank limit p c t with ⟨_ | ⟨a, c₁⟩, t₁⟩
    · exact ihq n c t₁ hprod.2 hc hn hshort fun r hr => hheads r (by simp [heads, hr])
    · rfl
  | opt f p ih =>
    intro n c t hprod hc hn hshort hheads
    have h := ih n c t hprod hc hn hshort hheads
    simp only [run, eval, ← h]
    rcases run call blank limit p c t with ⟨_ | ⟨a, c₁⟩, t₁⟩ <;> rfl
  | many f p ih =>
    intro n c t hprod hc hn hshort hheads
    simp only [productive, Bool.and_eq_true, Bool.not_eq_true'] at hprod
    have h := ih n c t hprod.2 hc hn hshort hheads
    simp only [run, eval, ← h]
    rcases hr : run call blank limit p c t with ⟨_ | ⟨a, c₁⟩, t₁⟩
    · rfl
    · rw [hr] at h
      have hc₁ := eval_length_lt hle hlt p hprod.1 h.symm
      have hrep := iterate_eq_repeated (n := n)
        (fun c t => run call blank limit p (c.advance (blank c.rest)) t)
        (fun c => eval ideal blank p (c.advance (blank c.rest)))
        (fun d t hd => ih n _ t hprod.2 ((d.reaches_advance _).length_le.trans hd) hn hshort hheads)
        (fun d a d' hd =>
          (eval_length_lt hle hlt p hprod.1 hd).trans_le (d.reaches_advance _).length_le)
        limit c₁.rest.length c₁ t₁ (by omega) (by omega) le_rfl
      simp only [Prod.ext_iff] at hrep
      simp only [hrep.1, hrep.2]
  | manyTight f p ih =>
    intro n c t hprod hc hn hshort hheads
    simp only [productive, Bool.and_eq_true, Bool.not_eq_true'] at hprod
    have hrep := iterate_eq_repeated (n := n) (fun c t => run call blank limit p c t)
      (eval ideal blank p)
      (fun d t hd => ih n d t hprod.2 hd hn hshort hheads)
      (fun d a d' hd => eval_length_lt hle hlt p hprod.1 hd)
      limit c.rest.length c t hc (by omega) le_rfl
    simp only [Prod.ext_iff] at hrep
    simp only [run, eval, hrep.1, hrep.2]
  | span f p ih | slice f p ih | map f p ih =>
    intro n c t hprod hc hn hshort hheads
    have h := ih n c t hprod hc hn hshort hheads
    simp only [run, eval, ← h]
    rcases run call blank limit p c t with ⟨_ | ⟨a, c₁⟩, t₁⟩ <;> rfl

/-- What an expression matches depends only on what rules match at shorter texts, and at this one
those the expression can start with. -/
theorem eval_congr {ideal' : (r : ρ) → Cursor → Option (V r × Cursor)}
    (hle : ∀ r c v c', ideal r c = some (v, c') → c.Reaches c')
    (hlt : ∀ r c v c', empty r = false → ideal r c = some (v, c') →
      c'.rest.length < c.rest.length)
    (hle' : ∀ r c v c', ideal' r c = some (v, c') → c.Reaches c')
    (hlt' : ∀ r c v c', empty r = false → ideal' r c = some (v, c') →
      c'.rest.length < c.rest.length)
    {α : Type} {p : Peg V α} (hprod : p.productive empty = true) {c : Cursor}
    (hshort : ∀ r d, d.rest.length < c.rest.length → ideal r d = ideal' r d)
    (hheads : ∀ r ∈ p.heads empty, ∀ d, d.rest.length ≤ c.rest.length → ideal r d = ideal' r d) :
    eval ideal blank p c = eval ideal' blank p c := by
  let call : (r : ρ) → Cursor → Tracker ρ → Reply ρ (V r) := fun r c t => ⟨ideal r c, t⟩
  calc eval ideal blank p c
      = (run call blank c.rest.length p c {}).matched :=
        (run_matched hle hlt p _ c {} hprod le_rfl le_rfl (fun _ _ _ _ => rfl)
          fun _ _ _ _ _ => rfl).symm
    _ = eval ideal' blank p c :=
        run_matched hle' hlt' p _ c {} hprod le_rfl le_rfl (fun r d _ hd => hshort r d hd)
          fun r hr d _ hd => hheads r hr d hd

end Run

end Peg

namespace Grammar

variable {ρ : Type} {V : ρ → Type}

/-- What shows that a grammar needs no bound on how deep its rules are nested: rules have ranks below
`width`, before a rule has consumed anything it calls rules of lower rank only, and all rules but
those in `empty` consume something. -/
structure Grounded (g : Grammar V) where
  empty : ρ → Bool
  rank : ρ → Nat
  width : Nat
  productive : ∀ r, (g.body r).productive empty = true
  rank_lt_rank : ∀ r, ∀ s ∈ (g.body r).heads empty, rank s < rank r
  rank_lt_width : ∀ r, rank r < width
  consumes : ∀ r, empty r = false →
    ∀ (call : (r : ρ) → Cursor → Option (V r × Cursor)),
      (∀ r c v c', call r c = some (v, c') → c.Reaches c') →
      (∀ r c v c', empty r = false → call r c = some (v, c') → c'.rest.length < c.rest.length) →
      ∀ c v c', Peg.eval call g.blank (g.body r) c = some (v, c') →
        c'.rest.length < c.rest.length

namespace Grounded

variable {g : Grammar V} (h : g.Grounded)

/-- What a rule matches with calls of rules nested at most `depth` deep. -/
def recognizeWithin (g : Grammar V) : Nat → (r : ρ) → Cursor → Option (V r × Cursor)
  | 0, _, _ => none
  | depth + 1, r, c => Peg.eval (recognizeWithin g depth) g.blank (g.body r) c

theorem recognizeWithin_reaches (g : Grammar V) : ∀ (depth : Nat) (r : ρ) (c : Cursor) (v : V r)
    (c' : Cursor), recognizeWithin g depth r c = some (v, c') → c.Reaches c'
  | 0, _, _, _, _, hr => by simp [recognizeWithin] at hr
  | depth + 1, r, c, v, c', hr =>
    Peg.eval_reaches (recognizeWithin_reaches g depth) (g.body r) hr

theorem recognizeWithin_length_lt : ∀ (depth : Nat) (r : ρ) (c : Cursor) (v : V r) (c' : Cursor),
    h.empty r = false → recognizeWithin g depth r c = some (v, c') →
      c'.rest.length < c.rest.length
  | 0, _, _, _, _, _, hr => by simp [recognizeWithin] at hr
  | depth + 1, r, c, v, c', he, hr =>
    h.consumes r he _ (recognizeWithin_reaches g depth) (recognizeWithin_length_lt depth) c v c' hr

include h in
/-- The limit on repetitions and the tracker do not decide what matches. -/
theorem call_matched {limit : Nat} : ∀ (depth : Nat) (r : ρ) (c : Cursor) (t : Tracker ρ),
    c.rest.length ≤ limit → (g.call limit depth r c t).matched = recognizeWithin g depth r c
  | 0, _, _, _, _ => rfl
  | depth + 1, r, c, t, hc => by
    have ih : (Peg.run (g.call limit depth) g.blank limit (g.body r) c t).matched
        = Peg.eval (recognizeWithin g depth) g.blank (g.body r) c :=
      Peg.run_matched (recognizeWithin_reaches g depth) (h.recognizeWithin_length_lt depth)
        (g.body r) c.rest.length c t (h.productive r) le_rfl hc
        (fun s d t hd => call_matched depth s d t (by omega))
        fun s _ d t hd => call_matched depth s d t (by omega)
    simp only [Grammar.call, recognizeWithin, ← ih]
    rcases Peg.run (g.call limit depth) g.blank limit (g.body r) c t with ⟨_ | ⟨v, c'⟩, t'⟩ <;> rfl

/-- How deep calls of rules can be nested when a rule is called at a place. -/
def room (r : ρ) (c : Cursor) : Nat :=
  h.width * c.rest.length + h.rank r

theorem room_lt_of_length_lt {r s : ρ} {c d : Cursor} (hd : d.rest.length < c.rest.length) :
    h.room s d < h.room r c := by
  have hs := h.rank_lt_width s
  have hw : h.width * d.rest.length + h.width ≤ h.width * c.rest.length := by
    rw [← Nat.mul_succ]
    exact Nat.mul_le_mul_left _ hd
  simp only [room]
  omega

theorem room_lt_of_mem_heads {r s : ρ} {c d : Cursor} (hs : s ∈ (g.body r).heads h.empty)
    (hd : d.rest.length ≤ c.rest.length) : h.room s d < h.room r c := by
  have hr := h.rank_lt_rank r s hs
  have hw := Nat.mul_le_mul_left h.width hd
  simp only [room]
  omega

/-- Beyond the room a rule needs, more room changes nothing. -/
theorem recognizeWithin_stable {r : ρ} {c : Cursor} {depth depth' : Nat} (hd : h.room r c < depth)
    (hd' : h.room r c < depth') : recognizeWithin g depth r c = recognizeWithin g depth' r c := by
  induction hn : h.room r c using Nat.strong_induction_on generalizing r c depth depth' with
  | _ n ih =>
    obtain ⟨depth, rfl⟩ : ∃ k, depth = k + 1 := ⟨depth - 1, by omega⟩
    obtain ⟨depth', rfl⟩ : ∃ k, depth' = k + 1 := ⟨depth' - 1, by omega⟩
    have hlower : ∀ s d, h.room s d < h.room r c →
        recognizeWithin g depth s d = recognizeWithin g depth' s d :=
      fun s d hs => ih _ (hn ▸ hs) (by omega) (by omega) rfl
    exact Peg.eval_congr (recognizeWithin_reaches g depth) (h.recognizeWithin_length_lt depth)
      (recognizeWithin_reaches g depth') (h.recognizeWithin_length_lt depth') (h.productive r)
      (fun s d hs => hlower s d (h.room_lt_of_length_lt hs))
      fun s hs d hd => hlower s d (h.room_lt_of_mem_heads hs hd)

/-- What a rule matches. -/
def recognize (r : ρ) (c : Cursor) : Option (V r × Cursor) :=
  recognizeWithin g (h.room r c + 1) r c

/-- A rule matches what the expression it stands for matches. -/
theorem recognize_eq (r : ρ) (c : Cursor) :
    h.recognize r c = Peg.eval h.recognize g.blank (g.body r) c := by
  have hlower : ∀ s d, h.room s d < h.room r c →
      recognizeWithin g (h.room r c) s d = h.recognize s d :=
    fun s d hs => h.recognizeWithin_stable hs (Nat.lt_succ_self _)
  exact Peg.eval_congr (recognizeWithin_reaches g _) (h.recognizeWithin_length_lt _)
    (fun s d => recognizeWithin_reaches g _ s d) (fun s d => h.recognizeWithin_length_lt _ s d)
    (h.productive r) (fun s d hs => hlower s d (h.room_lt_of_length_lt hs))
    fun s hs d hd => hlower s d (h.room_lt_of_mem_heads hs hd)

theorem recognize_reaches {r : ρ} {c c' : Cursor} {v : V r} (hr : h.recognize r c = some (v, c')) :
    c.Reaches c' :=
  recognizeWithin_reaches g _ r c v c' hr

theorem recognize_length_lt {r : ρ} {c c' : Cursor} {v : V r} (he : h.empty r = false)
    (hr : h.recognize r c = some (v, c')) : c'.rest.length < c.rest.length :=
  h.recognizeWithin_length_lt _ r c v c' he hr

theorem call_eq_recognize {limit depth : Nat} {r : ρ} {c : Cursor} (hc : c.rest.length ≤ limit)
    (hd : h.room r c < depth) (t : Tracker ρ) :
    (g.call limit depth r c t).matched = h.recognize r c := by
  rw [h.call_matched depth r c t hc]
  exact h.recognizeWithin_stable hd (Nat.lt_succ_self _)

end Grounded

end Grammar

end Downlevel
