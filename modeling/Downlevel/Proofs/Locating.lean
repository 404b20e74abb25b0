import Downlevel.Proofs.Matching

/-!
# Where a match stands

Places in a text are byte offsets at which a character starts or the text ends. `Covers source range
text` says that a text is what stands in a range. `Peg.Locates S p i Q` is computed from a parsing
expression: if rules called at one offset yield values up to another as `S` says, then whatever `p`
matches at offset `i`, its value and the offset behind it satisfy `Q` (`Peg.Locates.sound`).
-/

namespace Downlevel

open Cursor (byteLength_append)

/-! ## Offsets and texts -/

/-- The offset lies between characters, or at an end. -/
def IsBoundary (source : List Char) (offset : Nat) : Prop :=
  ∃ before, before <+: source ∧ byteLength before = offset

/-- The range is one of whole characters of the text. -/
structure Range.In (source : List Char) (range : Range) : Prop where
  start : IsBoundary source range.start
  stop : IsBoundary source range.stop
  le : range.start ≤ range.stop

/-- What stands in the range is `text`. -/
def Covers (source : List Char) (range : Range) (text : List Char) : Prop :=
  ∃ before after, source = before ++ text ++ after ∧
    range = ⟨byteLength before, byteLength (before ++ text)⟩

section Text

variable {source text : List Char} {range : Range} {i j : Nat}

theorem byteLength_le_of_isPrefix {cs ds : List Char} (h : cs <+: ds) : byteLength cs ≤ byteLength ds := by
  obtain ⟨rest, rfl⟩ := h
  rw [byteLength_append]
  exact Nat.le_add_right _ _

theorem byteLength_eq_zero {cs : List Char} (h : byteLength cs = 0) : cs = [] := by
  cases cs with
  | nil => rfl
  | cons c cs =>
    have hc := c.utf8Size_pos
    rw [byteLength] at h
    omega

theorem byteLength_toList (s : String) : byteLength s.toList = s.utf8ByteSize := by
  rw [← String.ofList_toList (s := s)]
  generalize s.toList = cs
  rw [String.toList_ofList]
  induction cs with
  | nil => rfl
  | cons c cs ih =>
    rw [byteLength, ih, String.ofList_cons]
    simp

/-- Of the beginnings of a text, those with more bytes are longer. -/
theorem isPrefix_of_byteLength_le {cs ds : List Char} (hcs : cs <+: source) (hds : ds <+: source)
    (h : byteLength cs ≤ byteLength ds) : cs <+: ds := by
  rcases List.prefix_or_prefix_of_prefix hcs hds with hle | ⟨rest, rfl⟩
  · exact hle
  · rw [byteLength_append] at h
    obtain rfl : rest = [] := byteLength_eq_zero (by omega)
    simp

theorem IsBoundary.le (h : IsBoundary source i) : i ≤ byteLength source := by
  obtain ⟨before, hbefore, rfl⟩ := h
  exact byteLength_le_of_isPrefix hbefore

theorem Covers.in (h : Covers source range text) : range.In source := by
  obtain ⟨before, after, rfl, rfl⟩ := h
  refine ⟨⟨before, ?_, rfl⟩, ⟨before ++ text, List.prefix_append _ _, rfl⟩, ?_⟩
  · rw [List.append_assoc]
    exact List.prefix_append _ _
  · exact byteLength_le_of_isPrefix (List.prefix_append _ _)

theorem Covers.le (h : Covers source ⟨i, j⟩ text) : i ≤ j :=
  h.in.le

/-- A range that goes further covers more. -/
theorem Covers.extend (h : Covers source ⟨i, j⟩ text) {k : Nat} (hk : IsBoundary source k) (hjk : j ≤ k) :
    ∃ more, Covers source ⟨i, k⟩ (text ++ more) := by
  obtain ⟨before, after, hsource, hrange⟩ := h
  obtain ⟨rfl, rfl⟩ := Range.mk.inj hrange
  obtain ⟨upto, hupto, rfl⟩ := hk
  obtain ⟨more, rfl⟩ := isPrefix_of_byteLength_le ⟨after, hsource.symm⟩ hupto hjk
  obtain ⟨later, hlater⟩ := hupto
  exact ⟨more, before, later, by simp [← hlater], by rw [List.append_assoc]⟩

/-- The text that stands in a range. -/
def Range.textIn (range : Range) (source : List Char) : List Char :=
  takeBytes (range.stop - range.start) (source.drop (takeBytes range.start source).length)

theorem takeBytes_append (cs ds : List Char) : takeBytes (byteLength cs) (cs ++ ds) = cs := by
  have h := Cursor.takeBytes_advance cs.length (cs ++ ds)
  rwa [List.take_left] at h

theorem Covers.textIn_eq (h : Covers source range text) : range.textIn source = text := by
  obtain ⟨before, after, rfl, rfl⟩ := h
  rw [Range.textIn, List.append_assoc, takeBytes_append, List.drop_left, byteLength_append,
    Nat.add_sub_cancel_left, takeBytes_append]

end Text

/-! ## Cursors in a text -/

/-- The cursor stands in the text. -/
def Cursor.In (source : List Char) (c : Cursor) : Prop :=
  Cursor.Reaches ⟨source, 0⟩ c

namespace Cursor

variable {source : List Char} {c d : Cursor}

theorem In.reaches (h : c.In source) (hd : c.Reaches d) : d.In source :=
  Reaches.trans h hd

theorem In.boundary (h : c.In source) : IsBoundary source c.offset := by
  obtain ⟨n, rfl⟩ := h
  exact ⟨source.take n, List.take_prefix _ _, (Nat.zero_add _).symm⟩

theorem Reaches.offset_le (h : c.Reaches d) : c.offset ≤ d.offset := by
  obtain ⟨n, rfl⟩ := h
  exact Nat.le_add_right _ _

theorem Reaches.offset_lt (h : c.Reaches d) (hlt : d.rest.length < c.rest.length) :
    c.offset < d.offset := by
  obtain ⟨n, rfl⟩ := h
  have hpos : byteLength (c.rest.take n) ≠ 0 := by
    intro hzero
    have hlength := congrArg List.length (byteLength_eq_zero hzero)
    simp only [List.length_take, List.length_nil, advance_rest, List.length_drop] at hlength hlt
    omega
  simp only [advance]
  omega

theorem In.covers (h : c.In source) (n : Nat) :
    Covers source ⟨c.offset, (c.advance n).offset⟩ (c.rest.take n) := by
  obtain ⟨m, rfl⟩ := h
  refine ⟨source.take m, (source.drop m).drop n, ?_, ?_⟩
  · simp only [advance, List.append_assoc, List.take_append_drop]
  · simp [advance, byteLength_append]

theorem In.range_in (hc : c.In source) (h : c.Reaches d) : Range.In source ⟨c.offset, d.offset⟩ :=
  ⟨hc.boundary, (hc.reaches h).boundary, h.offset_le⟩

end Cursor

/-! ## Values with their places -/

/-- Values that are read one after another, from one offset to another. -/
inductive Series {α : Type} (A : Nat → α → Nat → Prop) : Nat → List α → Nat → Prop
  | nil {i j : Nat} (hij : i ≤ j) : Series A i [] j
  | cons {i j k l : Nat} {a : α} {as : List α} (hij : i ≤ j) (hjk : j ≤ k) (head : A j a k)
    (tail : Series A k as l) : Series A i (a :: as) l

theorem Series.mono {α : Type} {A : Nat → α → Nat → Prop} {i j k l : Nat} {as : List α}
    (h : Series A j as k) (hij : i ≤ j) (hkl : k ≤ l) : Series A i as l := by
  induction h generalizing i with
  | nil hjk => exact .nil (hij.trans (hjk.trans hkl))
  | cons hjm hmn head _ ih => exact .cons (hij.trans hjm) hmn head (ih le_rfl hkl)

namespace Peg

variable {ρ : Type} {V : ρ → Type}

section

variable (source : List Char) (S : (r : ρ) → Nat → V r → Nat → Prop)

/-- What is matched from an offset on has a value that satisfies `Q`, together with the offset behind
it, if `S` tells what rules yield between two offsets. -/
def Locates : {α : Type} → Peg V α → Nat → (α → Nat → Prop) → Prop
  | _, .succeed v, i, Q => Q v i
  | _, .text s v, i, Q => ∀ j, Covers source ⟨i, j⟩ s → Q v j
  | _, .lexeme scan f, i, Q => ∀ cs n j, scan cs = some n → Covers source ⟨i, j⟩ (cs.take n) →
      Q (f (cs.take n)) j
  | _, .absent _ v, i, Q => Q v i
  | _, .call r f, i, Q => ∀ v j, S r i v j → Q (f v) j
  | _, .seq f p q, i, Q | _, .tight f p q, i, Q => Locates p i fun a j => ∀ k, i ≤ j → j ≤ k →
      Locates q k fun b l => Q (f a b) l
  | _, .choice p q, i, Q => Locates p i Q ∧ Locates q i Q
  | _, .opt f p, i, Q => Q (f none) i ∧ Locates p i fun a j => Q (f (some a)) j
  | _, .many f p, i, Q | _, .manyTight f p, i, Q => ∃ A : Nat → _ → Nat → Prop,
      (∀ j, Locates p j (A j)) ∧ ∀ as l, Series A i as l → Q (f as) l
  | _, .span f p, i, Q => Locates p i fun a j => Q (f a ⟨i, j⟩) j
  | _, .slice f p, i, Q => Locates p i fun a j => ∀ cs, Q (f a cs) j
  | _, .map f p, i, Q => Locates p i fun a j => Q (f a) j

end

variable {source : List Char} {S : (r : ρ) → Nat → V r → Nat → Prop}
  {call : (r : ρ) → Cursor → Option (V r × Cursor)} {blank : List Char → Nat}

theorem Series.of_repeated {α : Type} {A : Nat → α → Nat → Prop} {step : Cursor → Option (α × Cursor)}
    (h : ∀ c a c', c.In source → step c = some (a, c') →
      ∃ j, c.offset ≤ j ∧ j ≤ c'.offset ∧ A j a c'.offset ∧ c'.In source) :
    ∀ (n : Nat) (c : Cursor), c.In source →
      Series A c.offset (repeated step n c).1 (repeated step n c).2.offset
  | 0, c, _ => .nil le_rfl
  | n + 1, c, hc => by
    simp only [repeated]
    split
    · exact .nil le_rfl
    · rename_i a c' hstep
      obtain ⟨j, hj, hj', hA, hc'⟩ := h c a c' hc hstep
      exact .cons hj hj' hA (of_repeated h n c' hc')

/-- A match is what has been computed of it. -/
theorem Locates.sound (hreaches : ∀ r c v c', call r c = some (v, c') → c.Reaches c')
    (hcall : ∀ r c v c', c.In source → call r c = some (v, c') → S r c.offset v c'.offset) {α : Type}
    {p : Peg V α} :
    ∀ {c : Cursor} {Q : α → Nat → Prop}, p.Locates source S c.offset Q → c.In source →
      ∀ {v c'}, eval call blank p c = some (v, c') → Q v c'.offset := by
  induction p with
  | succeed v =>
    intro c Q h hc _ c' he
    cases he
    exact h
  | absent ss v =>
    intro c Q h hc _ c' he
    simp only [eval] at he
    split at he <;> cases he
    exact h
  | text s v =>
    intro c Q h hc _ c' he
    simp only [eval] at he
    split at he <;> cases he
    rename_i hs
    refine h _ ?_
    have hcovers := hc.covers s.length
    rwa [← List.prefix_iff_eq_take.mp (List.isPrefixOf_iff_prefix.mp hs)] at hcovers
  | lexeme scan f =>
    intro c Q h hc _ c' he
    simp only [eval] at he
    split at he <;> cases he
    rename_i n hn
    exact h _ n _ hn (hc.covers n)
  | call r f =>
    intro c Q h hc _ c' he
    simp only [eval] at he
    split at he <;> cases he
    rename_i v hv
    exact h v _ (hcall r c v _ hc hv)
  | seq f p q ihp ihq =>
    intro c Q h hc _ c' he
    simp only [eval] at he
    split at he <;> try cases he
    rename_i a d hp
    split at he <;> cases he
    rename_i b hq
    have hcd := eval_reaches hreaches p hp
    have hde := d.reaches_advance (blank d.rest)
    exact ihq (ihp h hc hp _ hcd.offset_le hde.offset_le) (hc.reaches (hcd.trans hde)) hq
  | tight f p q ihp ihq =>
    intro c Q h hc _ c' he
    simp only [eval] at he
    split at he <;> try cases he
    rename_i a d hp
    split at he <;> cases he
    rename_i b hq
    have hcd := eval_reaches hreaches p hp
    exact ihq (ihp h hc hp _ hcd.offset_le le_rfl) (hc.reaches hcd) hq
  | choice p q ihp ihq =>
    intro c Q h hc _ c' he
    simp only [eval] at he
    split at he
    · exact ihq h.2 hc he
    · rename_i hp
      exact ihp h.1 hc (hp.trans he)
  | opt f p ih =>
    intro c Q h hc _ c' he
    simp only [eval] at he
    split at he <;> cases he
    · exact h.1
    · rename_i hp
      exact ih h.2 hc hp
  | many f p ih =>
    intro c Q h hc _ c' he
    obtain ⟨A, hA, hQ⟩ := h
    simp only [eval] at he
    split at he <;> cases he
    · exact hQ _ _ (.nil le_rfl)
    · rename_i a d hp
      have hcd := eval_reaches hreaches p hp
      refine hQ _ _ (.cons le_rfl hcd.offset_le (ih (hA _) hc hp)
        (Series.of_repeated (fun e a e' hin hstep => ?_) _ d (hc.reaches hcd)))
      have hblank := e.reaches_advance (blank e.rest)
      have hreach := eval_reaches hreaches p hstep
      exact ⟨_, hblank.offset_le, hreach.offset_le, ih (hA _) (hin.reaches hblank) hstep,
        hin.reaches (hblank.trans hreach)⟩
  | manyTight f p ih =>
    intro c Q h hc _ c' he
    obtain ⟨A, hA, hQ⟩ := h
    simp only [eval, Option.some.injEq, Prod.mk.injEq] at he
    rw [← he.1, ← he.2]
    refine hQ _ _ (Series.of_repeated (fun e a e' hin hstep => ?_) _ c hc)
    have hreach := eval_reaches hreaches p hstep
    exact ⟨_, le_rfl, hreach.offset_le, ih (hA _) hin hstep, hin.reaches hreach⟩
  | span f p ih =>
    intro c Q h hc _ c' he
    simp only [eval] at he
    split at he <;> cases he
    rename_i hp
    exact ih h hc hp
  | slice f p ih =>
    intro c Q h hc _ c' he
    simp only [eval] at he
    split at he <;> cases he
    rename_i hp
    exact ih h hc hp _
  | map f p ih =>
    intro c Q h hc _ c' he
    simp only [eval] at he
    split at he <;> cases he
    rename_i hp
    exact ih h hc hp

theorem Locates.mono {α : Type} {p : Peg V α} : ∀ {i : Nat} {Q R : α → Nat → Prop},
    p.Locates source S i Q → (∀ v j, Q v j → R v j) → p.Locates source S i R := by
  induction p with
  | succeed v | absent ss v => exact fun h hQR => hQR _ _ h
  | text s v => exact fun h hQR j hj => hQR _ _ (h j hj)
  | lexeme scan f => exact fun h hQR cs n j hn hj => hQR _ _ (h cs n j hn hj)
  | call r f => exact fun h hQR v j hv => hQR _ _ (h v j hv)
  | seq f p q ihp ihq | tight f p q ihp ihq =>
    exact fun h hQR => ihp h fun a j ha k hij hjk => ihq (ha k hij hjk) fun b l hb => hQR _ _ hb
  | choice p q ihp ihq => exact fun h hQR => ⟨ihp h.1 hQR, ihq h.2 hQR⟩
  | opt f p ih => exact fun h hQR => ⟨hQR _ _ h.1, ih h.2 fun a j ha => hQR _ _ ha⟩
  | many f p ih | manyTight f p ih =>
    rintro i Q R ⟨A, hA, hQ⟩ hQR
    exact ⟨A, hA, fun as l has => hQR _ _ (hQ as l has)⟩
  | span f p ih | map f p ih => exact fun h hQR => ih h fun a j ha => hQR _ _ ha
  | slice f p ih => exact fun h hQR => ih h fun a j ha cs => hQR _ _ (ha cs)

/-- What is true of all values and offsets needs no look at the expression. -/
theorem Locates.of_forall {α : Type} {p : Peg V α} : ∀ {i : Nat} {Q : α → Nat → Prop},
    (∀ v j, Q v j) → p.Locates source S i Q := by
  induction p with
  | succeed v | absent ss v => exact fun h => h _ _
  | text s v => exact fun h j _ => h _ _
  | lexeme scan f => exact fun h cs n j _ _ => h _ _
  | call r f => exact fun h v j _ => h _ _
  | seq f p q ihp ihq | tight f p q ihp ihq => exact fun h => ihp fun a j k _ _ => ihq fun b l => h _ _
  | choice p q ihp ihq => exact fun h => ⟨ihp h, ihq h⟩
  | opt f p ih => exact fun h => ⟨h _ _, ih fun a j => h _ _⟩
  | many f p ih | manyTight f p ih =>
    exact fun h => ⟨fun _ _ _ => True, fun j => ih fun _ _ => trivial, fun as l _ => h _ _⟩
  | span f p ih | map f p ih => exact fun h => ih fun a j => h _ _
  | slice f p ih => exact fun h => ih fun a j cs => h _ _

end Peg

end Downlevel
