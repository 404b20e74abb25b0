import Mathlib.Data.List.Induction
import Downlevel.Proofs.Locating

/-!
# Looking up positions

A position in a text is told by what stands before it: so many bytes, so many line feeds, and so many
characters since the last one (`LineIndex.position_byteLength`). A text before a place is a run of whole
lines, one for each line feed, and the beginning of another line. Halving the table of lines finds that
line, since it is the last one that starts no later than the place (`LineIndex.LastUpTo.lineAt`).
-/

namespace Downlevel

open Cursor (byteLength_append)

/-! ## Whole lines -/

/-- The text ends where a line does. -/
def WholeLines (cs : List Char) : Prop :=
  cs = [] ∨ cs.getLast? = some '\n'

/-- A text is a run of whole lines and the beginning of another one. -/
theorem exists_wholeLines (before : List Char) :
    ∃ earlier current, before = earlier ++ current ∧ WholeLines earlier ∧ '\n' ∉ current := by
  induction before using List.reverseRecOn with
  | nil => exact ⟨[], [], rfl, .inl rfl, List.not_mem_nil⟩
  | append_singleton cs c ih =>
    by_cases hc : c = '\n'
    · exact ⟨cs ++ [c], [], (List.append_nil _).symm, .inr (by simp [hc]), List.not_mem_nil⟩
    · obtain ⟨earlier, current, rfl, hearlier, hcurrent⟩ := ih
      exact ⟨earlier, current ++ [c], List.append_assoc _ _ _, hearlier, by simp [hcurrent, Ne.symm hc]⟩

theorem WholeLines.tail {c : Char} {cs : List Char} (h : WholeLines (c :: cs)) : WholeLines cs := by
  rcases List.eq_nil_or_concat cs with rfl | ⟨init, last, rfl⟩
  · exact .inl rfl
  · rcases h with h | h
    · cases h
    · rw [List.concat_eq_append, ← List.cons_append, List.getLast?_concat] at h
      exact .inr (by rw [List.concat_eq_append, List.getLast?_concat, h])

theorem WholeLines.head_eq {c : Char} (h : WholeLines [c]) : c = '\n' := by
  rcases h with h | h
  · cases h
  · exact Option.some.inj h

/-- A text of whole lines that is not empty has a line feed. -/
theorem WholeLines.mem {cs : List Char} (h : WholeLines cs) (hne : cs ≠ []) : '\n' ∈ cs :=
  List.mem_of_getLast? (h.resolve_left hne)

/-! ## The table of lines -/

namespace Line

theorem exists_split (start : Nat) (cs : List Char) :
    ∃ l ls, split start cs = l :: ls ∧ l.start = start ∧ ∀ m ∈ ls, start < m.start := by
  induction cs generalizing start with
  | nil => exact ⟨_, [], rfl, rfl, nofun⟩
  | cons c cs ih =>
    obtain ⟨l, ls, hsplit, hl, hls⟩ := ih (start + c.utf8Size)
    have hpos := c.utf8Size_pos
    have hlater : ∀ m ∈ ls, start < m.start := fun m hm => by
      have := hls m hm
      omega
    rw [split, hsplit]
    split
    · exact ⟨_, _, rfl, rfl, List.forall_mem_cons.mpr ⟨by omega, hlater⟩⟩
    · exact ⟨_, _, rfl, rfl, hlater⟩

/-- The beginning of a line is in the first line, and later lines start behind it. -/
theorem split_current {current : List Char} (h : '\n' ∉ current) (start : Nat) (after : List Char) :
    ∃ more ls, split start (current ++ after) = ⟨start, current ++ more⟩ :: ls ∧
      ∀ l ∈ ls, start + byteLength current < l.start := by
  induction current generalizing start with
  | nil =>
    obtain ⟨l, ls, hsplit, rfl, hls⟩ := exists_split start after
    exact ⟨l.chars, ls, hsplit, hls⟩
  | cons c current ih =>
    obtain ⟨hc, hcurrent⟩ := not_or.mp (mt List.mem_cons.mpr h)
    obtain ⟨more, ls, hsplit, hls⟩ := ih hcurrent (start + c.utf8Size)
    refine ⟨more, ls, ?_, fun l hl => ?_⟩
    · rw [List.cons_append, split, hsplit, if_neg (Ne.symm hc)]
      rfl
    · have := hls l hl
      rw [byteLength]
      omega

/-- Whole lines come before the lines of what follows, one for each line feed. -/
theorem split_wholeLines {earlier : List Char} (h : WholeLines earlier) (start : Nat)
    (after : List Char) :
    ∃ done, split start (earlier ++ after) = done ++ split (start + byteLength earlier) after ∧
      done.length = earlier.count '\n' ∧ ∀ l ∈ done, l.start < start + byteLength earlier := by
  induction earlier generalizing start with
  | nil => exact ⟨[], rfl, rfl, nofun⟩
  | cons c cs ih =>
    obtain ⟨done, hsplit, hlength, hdone⟩ := ih h.tail (start + c.utf8Size)
    have hpos := c.utf8Size_pos
    rw [Nat.add_assoc start] at hsplit hdone
    have hstart : start < start + byteLength (c :: cs) := by
      rw [byteLength]
      omega
    by_cases hc : c = '\n'
    · refine ⟨⟨start, [c]⟩ :: done, ?_, ?_, List.forall_mem_cons.mpr ⟨hstart, hdone⟩⟩
      · rw [List.cons_append, split, hsplit, if_pos hc]
        rfl
      · rw [List.length_cons, hlength, hc, List.count_cons_self]
    · -- The character belongs to the first line of the rest, which is a whole one.
      cases done with
      | nil =>
        have hcs : cs ≠ [] := by
          rintro rfl
          exact hc h.head_eq
        exact absurd (List.count_pos_iff.mpr (h.tail.mem hcs)) (hlength ▸ Nat.lt_irrefl 0)
      | cons l done =>
        refine ⟨⟨start, c :: l.chars⟩ :: done, ?_, ?_, ?_⟩
        · rw [List.cons_append, split, hsplit, if_neg hc]
          rfl
        · rw [List.count_cons_of_ne hc, ← hlength]
          rfl
        · exact List.forall_mem_cons.mpr ⟨hstart, (List.forall_mem_cons.mp hdone).2⟩

end Line

/-! ## Searching the table -/

namespace LineIndex

variable {index : LineIndex} {offset n : Nat}

/-- Line `n` is the last one that starts no later than `offset`. -/
structure LastUpTo (index : LineIndex) (offset n : Nat) : Prop where
  stored : n < index.lines.size
  start_lt : ∀ m < n, (index.line m).start < offset
  start_le : (index.line n).start ≤ offset
  lt_start : ∀ m, n < m → m < index.lines.size → offset < (index.line m).start

theorem lastUpTo_of_append {done ls : List Line} {l : Line} (hdone : ∀ m ∈ done, m.start < offset)
    (hl : l.start ≤ offset) (hls : ∀ m ∈ ls, offset < m.start) :
    LastUpTo ⟨(done ++ l :: ls).toArray⟩ offset done.length where
  stored := by simp
  start_lt m hm := by
    simpa [line, List.getElem?_append_left hm, hm] using hdone _ (List.getElem_mem hm)
  start_le := by simpa [line] using hl
  lt_start m hm hsize := by
    obtain ⟨i, rfl⟩ := Nat.exists_eq_add_of_lt hm
    have hi : i < ls.length := by
      simp at hsize
      omega
    simpa [line, Nat.add_assoc, hi] using hls _ (List.getElem_mem hi)

/-- As long as the line, or the place behind it, is not ruled out, halving ends there. -/
theorem LastUpTo.search (h : index.LastUpTo offset n) {lo hi : Nat} (hlo : lo ≤ n + 1) (hhi : n < hi)
    (hsize : hi ≤ index.lines.size) :
    index.search offset lo hi = .ok n ∨ index.search offset lo hi = .error (n + 1) := by
  fun_induction LineIndex.search index offset lo hi with
  | case1 lo hi hlt mid start hstart =>
    -- No other line starts at the place.
    rcases Nat.lt_trichotomy mid n with hmid | rfl | hmid
    · exact absurd hstart (h.start_lt mid hmid).ne
    · exact .inl rfl
    · exact absurd hstart (h.lt_start mid hmid (by omega)).ne'
  | case2 lo hi hlt mid start hne hstart ih =>
    have hmid : mid ≤ n := by
      by_contra hmid
      have := h.lt_start mid (by omega) (by omega)
      omega
    exact ih (by omega) hhi hsize
  | case3 lo hi hlt mid start hne hstart ih =>
    have hmid : n < mid := by
      by_contra hmid
      rcases Nat.lt_or_eq_of_le (Nat.le_of_not_lt hmid) with hmid | hmid
      · exact hstart (h.start_lt mid hmid)
      · have := h.start_le
        rw [← hmid] at this
        omega
    exact ih hlo hmid (by omega)
  | case4 lo hi hlt =>
    obtain rfl : lo = n + 1 := by omega
    exact .inr rfl

theorem LastUpTo.lineAt (h : index.LastUpTo offset n) : index.lineAt offset = n := by
  unfold LineIndex.lineAt
  rcases h.search (Nat.zero_le _) h.stored le_rfl with hsearch | hsearch <;> rw [hsearch]
  rfl

/-- The line of a place has as many lines before it as there are line feeds before the place, and its
column counts the characters of the line before it. -/
theorem position_wholeLines {earlier current : List Char} (hearlier : WholeLines earlier)
    (hcurrent : '\n' ∉ current) (after : List Char) :
    (ofText (earlier ++ current ++ after)).position (byteLength (earlier ++ current))
      = ⟨byteLength (earlier ++ current), 1 + earlier.count '\n', current.length⟩ := by
  obtain ⟨done, hsplit, hlength, hdone⟩ := Line.split_wholeLines hearlier 0 (current ++ after)
  obtain ⟨more, ls, hsplit', hls⟩ := Line.split_current hcurrent (0 + byteLength earlier) after
  rw [hsplit'] at hsplit
  have hlast : LastUpTo ⟨(done ++ ⟨0 + byteLength earlier, current ++ more⟩ :: ls).toArray⟩
      (byteLength (earlier ++ current)) done.length := by
    refine lastUpTo_of_append (fun m hm => ?_) ?_ (fun m hm => ?_)
    · have := hdone m hm
      rw [byteLength_append]
      omega
    · rw [byteLength_append, Nat.zero_add]
      exact Nat.le_add_right _ _
    · have := hls m hm
      rw [byteLength_append]
      omega
  have hline : line ⟨(done ++ ⟨0 + byteLength earlier, current ++ more⟩ :: ls).toArray⟩ done.length
      = ⟨0 + byteLength earlier, current ++ more⟩ := by
    simp [line]
  rw [List.append_assoc, ofText, hsplit, position, hlast.lineAt, hline, hlength, Nat.add_comm 1]
  simp only [Nat.zero_add]
  rw [byteLength_append, Nat.add_sub_cancel_left, takeBytes_append]

end LineIndex

/-! ## Positions -/

/-- The number of characters since the last line feed. -/
def columnBehind (before : List Char) : Nat :=
  (before.reverse.takeWhile (· ≠ '\n')).length

/-- The position behind a text. -/
def Position.behind (before : List Char) : Position :=
  ⟨byteLength before, 1 + before.count '\n', columnBehind before⟩

/-- The position is one in the text, with its true line and column. -/
def Position.In (source : List Char) (p : Position) : Prop :=
  ∃ before, before <+: source ∧ p = .behind before

/-- The position comes before the other one in reading order. -/
def Position.Precedes (p q : Position) : Prop :=
  p.line < q.line ∨ p.line = q.line ∧ p.column < q.column

/-- Whole lines before a text do not count for a column. -/
theorem WholeLines.columnBehind_append {earlier : List Char} (h : WholeLines earlier)
    (before : List Char) : columnBehind (earlier ++ before) = columnBehind before := by
  have hnone : earlier.reverse.takeWhile (· ≠ '\n') = [] := by
    rcases h with rfl | hlast
    · rfl
    · rw [← List.head?_reverse] at hlast
      obtain ⟨cs, hcs⟩ := List.head?_eq_some_iff.mp hlast
      rw [hcs]
      rfl
  unfold columnBehind
  rw [List.reverse_append, List.takeWhile_append, hnone, List.append_nil]
  split
  · rename_i hall
    exact hall.symm
  · rfl

theorem columnBehind_append (before : List Char) {more : List Char} (h : '\n' ∉ more) :
    columnBehind (before ++ more) = columnBehind before + more.length := by
  have hall : ∀ c ∈ more.reverse, decide (c ≠ '\n') = true := by
    intro c hc
    exact decide_eq_true fun hlf => h (hlf ▸ List.mem_reverse.mp hc)
  rw [columnBehind, List.reverse_append, List.takeWhile_append_of_pos hall, List.length_append,
    List.length_reverse, Nat.add_comm]
  rfl

/-- More text leads to a later line, or further on the same line. -/
theorem Position.behind_precedes (before : List Char) {more : List Char} (h : more ≠ []) :
    (behind before).Precedes (behind (before ++ more)) := by
  by_cases hmore : '\n' ∈ more
  · refine .inl (Nat.add_lt_add_left ?_ 1)
    rw [List.count_append]
    exact Nat.lt_add_of_pos_right (List.count_pos_iff.mpr hmore)
  · refine .inr ⟨congrArg (1 + ·) ?_, ?_⟩
    · rw [List.count_append, List.count_eq_zero.mpr hmore, Nat.add_zero]
    · rw [behind, behind, columnBehind_append before hmore]
      exact Nat.lt_add_of_pos_right (List.length_pos_iff.mpr h)

theorem Position.Precedes.asymm {p q : Position} (h : p.Precedes q) : ¬ q.Precedes p := by
  unfold Precedes at *
  omega

theorem Position.Precedes.ne {p q : Position} (h : p.Precedes q) :
    (p.line, p.column) ≠ (q.line, q.column) := by
  intro heq
  obtain ⟨hline, hcolumn⟩ := Prod.mk.inj heq
  rcases h with hless | ⟨-, hless⟩
  · exact hless.ne hline
  · exact hless.ne hcolumn

namespace LineIndex

/-- The position of an offset is that behind the text before it. -/
theorem position_byteLength (before after : List Char) :
    (ofText (before ++ after)).position (byteLength before) = .behind before := by
  obtain ⟨earlier, current, rfl, hearlier, hcurrent⟩ := exists_wholeLines before
  have hcolumn : columnBehind (earlier ++ current) = current.length := by
    rw [columnBehind_append earlier hcurrent, ← List.append_nil earlier, hearlier.columnBehind_append]
    exact Nat.zero_add _
  rw [position_wholeLines hearlier hcurrent, Position.behind, hcolumn, List.count_append,
    List.count_eq_zero.mpr hcurrent, Nat.add_zero]

theorem position_in {source : List Char} {offset : Nat} (h : IsBoundary source offset) :
    ((ofText source).position offset).In source := by
  obtain ⟨before, ⟨after, rfl⟩, rfl⟩ := h
  exact ⟨before, List.prefix_append _ _, position_byteLength before after⟩

/-- Of two places, the first is the one whose position comes first. -/
theorem precedes_iff {source : List Char} {o o' : Nat} (h : IsBoundary source o)
    (h' : IsBoundary source o') :
    ((ofText source).position o).Precedes ((ofText source).position o') ↔ o < o' := by
  have hlt {i j : Nat} (hi : IsBoundary source i) (hj : IsBoundary source j) (hij : i < j) :
      ((ofText source).position i).Precedes ((ofText source).position j) := by
    obtain ⟨before, hbefore, rfl⟩ := hi
    obtain ⟨upto, hupto, rfl⟩ := hj
    obtain ⟨more, rfl⟩ := isPrefix_of_byteLength_le hbefore hupto hij.le
    obtain ⟨after, rfl⟩ := hupto
    rw [position_byteLength, List.append_assoc, position_byteLength]
    refine Position.behind_precedes before ?_
    rintro rfl
    simp at hij
  refine ⟨fun hprecedes => ?_, hlt h h'⟩
  rcases Nat.lt_trichotomy o o' with hlt' | rfl | hgt
  · exact hlt'
  · exact absurd hprecedes hprecedes.asymm
  · exact absurd hprecedes (hlt h' h hgt).asymm

end LineIndex

/-! ## Line feeds as bytes -/

/-- The bytes of a text before an offset. -/
def bytesBefore (source : String) (offset : Nat) : List UInt8 :=
  source.toByteArray.data.toList.take offset

theorem lineFeed_eq_ofNat {n : Nat} : '\n'.toUInt8 = UInt8.ofNat n ↔ n % 256 = 10 := by
  rw [← UInt8.toNat_inj, UInt8.toNat_ofNat', eq_comm]
  rfl

/-- The byte of a line feed belongs to no other character. -/
theorem count_utf8EncodeChar (c : Char) :
    (String.utf8EncodeChar c).count '\n'.toUInt8 = if c = '\n' then 1 else 0 := by
  have hc : c = '\n' ↔ c.val.toNat = 10 := by
    rw [Char.ext_iff, ← UInt32.toNat_inj]
    rfl
  by_cases h : c.val.toNat ≤ 127
  · have hbyte : (UInt8.ofNat c.val.toNat == '\n'.toUInt8) = decide (c = '\n') := by
      rw [Bool.eq_iff_iff, beq_iff_eq, decide_eq_true_eq, eq_comm, lineFeed_eq_ofNat, hc]
      omega
    rw [String.utf8EncodeChar, if_pos h, List.count_singleton, hbyte]
    simp
  · -- All bytes of a longer character are 128 or more.
    rw [if_neg (by rw [hc]; omega), List.count_eq_zero, String.utf8EncodeChar, if_neg h]
    split_ifs <;> simp only [List.mem_cons, List.not_mem_nil, or_false, lineFeed_eq_ofNat] <;> omega

theorem count_flatMap_utf8EncodeChar (cs : List Char) :
    (cs.flatMap String.utf8EncodeChar).count '\n'.toUInt8 = cs.count '\n' := by
  induction cs with
  | nil => rfl
  | cons c cs ih =>
    rw [List.flatMap_cons, List.count_append, count_utf8EncodeChar, ih, List.count_cons, Nat.add_comm]
    simp

theorem length_flatMap_utf8EncodeChar (cs : List Char) :
    (cs.flatMap String.utf8EncodeChar).length = byteLength cs := by
  induction cs with
  | nil => rfl
  | cons c cs ih =>
    rw [List.flatMap_cons, List.length_append, String.length_utf8EncodeChar, ih, byteLength]

theorem bytesBefore_byteLength {source : String} {before after : List Char}
    (h : source.toList = before ++ after) :
    bytesBefore source (byteLength before) = before.flatMap String.utf8EncodeChar := by
  obtain rfl : source = String.ofList (before ++ after) := by rw [← h, String.ofList_toList]
  have hbytes : (String.ofList (before ++ after)).toByteArray.data.toList
      = before.flatMap String.utf8EncodeChar ++ after.flatMap String.utf8EncodeChar := by
    rw [String.toByteArray_ofList, List.utf8Encode]
    simp
  rw [bytesBefore, hbytes, ← length_flatMap_utf8EncodeChar, List.take_left]

/-! ## What a lookup gives -/

/-- A place in a text is on the line whose number is one more than the line feeds before it, and its
column counts the characters of that line before it. So places are in the order of their positions, and
no two have the same line and column. -/
theorem lookup_exact (source : String) :
    (∀ o, IsBoundary source.toList o →
      ∃ earlier current after, source.toList = earlier ++ current ++ after ∧
        byteLength (earlier ++ current) = o ∧ WholeLines earlier ∧ '\n' ∉ current ∧
        (LineIndex.ofText source.toList).position o
          = ⟨o, 1 + (bytesBefore source o).count '\n'.toUInt8, current.length⟩) ∧
    ∀ o o', IsBoundary source.toList o → IsBoundary source.toList o' →
      let p := (LineIndex.ofText source.toList).position o
      let p' := (LineIndex.ofText source.toList).position o'
      (p.Precedes p' ↔ o < o') ∧ (o ≠ o' → (p.line, p.column) ≠ (p'.line, p'.column)) := by
  constructor
  · rintro o ⟨before, ⟨after, hsource⟩, rfl⟩
    obtain ⟨earlier, current, rfl, hearlier, hcurrent⟩ := exists_wholeLines before
    refine ⟨earlier, current, after, hsource.symm, rfl, hearlier, hcurrent, ?_⟩
    have hcount : (earlier ++ current).count '\n' = earlier.count '\n' := by
      rw [List.count_append, List.count_eq_zero.mpr hcurrent, Nat.add_zero]
    rw [bytesBefore_byteLength hsource.symm, count_flatMap_utf8EncodeChar, hcount, ← hsource]
    exact LineIndex.position_wholeLines hearlier hcurrent after
  · intro o o' h h' p p'
    refine ⟨LineIndex.precedes_iff h h', fun hne => ?_⟩
    rcases Nat.lt_or_gt_of_ne hne with hlt | hlt
    · exact ((LineIndex.precedes_iff h h').mpr hlt).ne
    · exact ((LineIndex.precedes_iff h' h).mpr hlt).ne.symm

/-- At the line feed that ends an empty line, and at the end of the text. -/
theorem lookup_exact_emptyLine :
    IsBoundary "aé\n\nbc".toList 4 ∧ IsBoundary "aé\n\nbc".toList 7 ∧
      (∃ earlier current after, "aé\n\nbc".toList = earlier ++ current ++ after ∧
        byteLength (earlier ++ current) = 4 ∧ WholeLines earlier ∧ '\n' ∉ current ∧
        (LineIndex.ofText "aé\n\nbc".toList).position 4
          = ⟨4, 1 + (bytesBefore "aé\n\nbc" 4).count '\n'.toUInt8, current.length⟩) ∧
      (((LineIndex.ofText "aé\n\nbc".toList).position 4).Precedes
        ((LineIndex.ofText "aé\n\nbc".toList).position 7) ↔ 4 < 7) := by
  have hempty : IsBoundary "aé\n\nbc".toList 4 := ⟨"aé\n".toList, by decide, by decide⟩
  have hend : IsBoundary "aé\n\nbc".toList 7 := ⟨"aé\n\nbc".toList, by decide, by decide⟩
  exact ⟨hempty, hend, (lookup_exact "aé\n\nbc").1 4 hempty,
    ((lookup_exact "aé\n\nbc").2 4 7 hempty hend).1⟩

end Downlevel
