import Mathlib.Data.List.TakeWhile
import Downlevel.Directive

/-!
# Directive lines go through a conversion untouched

A directive that was taken off and put back before another text is taken off again with that text
behind it (`strip_reattach`, `strip_reattach_self`). All that matters of the text is how it starts: it
must not be a directive itself, nor continue a line end.
-/

namespace Downlevel.Directive

/-- A directive line, without its end. -/
structure IsLine (line : List Char) : Prop where
  start : ∃ text, line = '#' :: '!' :: text
  inside : ∀ c ∈ line, isLineEnd c = false

theorem isPrefixOf_iff {cs : List Char} :
    "#!".toList.isPrefixOf cs = true ↔ ∃ text, cs = '#' :: '!' :: text := by
  rw [List.isPrefixOf_iff_prefix]
  exact ⟨fun ⟨text, h⟩ => ⟨text, h.symm⟩, fun ⟨text, h⟩ => ⟨text, h.symm⟩⟩

theorem strip_of_not_start {cs : List Char} (h : ¬"#!".toList.isPrefixOf cs = true) :
    strip cs = ⟨none, cs⟩ :=
  if_neg h

theorem strip_of_directive_eq_none {cs : List Char} (h : (strip cs).directive = none) :
    strip cs = ⟨none, cs⟩ := by
  unfold strip at h ⊢
  split at h
  · cases h
  · rename_i hstart
    exact if_neg hstart

/-- A directive line ends where a line end follows, or the text ends. -/
theorem strip_line {line tail : List Char} (h : IsLine line)
    (htail : ∀ c ∈ tail.head?, isLineEnd c = true) :
    strip (line ++ tail)
      = ⟨some (line ++ tail.take (lineEnd tail)), tail.drop (lineEnd tail)⟩ := by
  have hstart : "#!".toList.isPrefixOf (line ++ tail) = true := by
    obtain ⟨text, rfl⟩ := h.start
    exact isPrefixOf_iff.mpr ⟨text ++ tail, rfl⟩
  have hline : (line ++ tail).takeWhile (!isLineEnd ·) = line := by
    rw [List.takeWhile_append_of_pos fun c hc => by simp [h.inside c hc]]
    cases tail with
    | nil => simp
    | cons c cs => simp [htail c rfl]
  rw [strip, if_pos hstart, hline]
  simp only [List.drop_left, List.take_length_add_append, List.drop_length_add_append]

/-- A text with a directive is a directive line with what follows its end. -/
theorem exists_line {source : List Char} (h : "#!".toList.isPrefixOf source = true) :
    ∃ line tail, source = line ++ tail ∧ IsLine line ∧ ∀ c ∈ tail.head?, isLineEnd c = true := by
  refine ⟨source.takeWhile (!isLineEnd ·), source.dropWhile (!isLineEnd ·),
    List.takeWhile_append_dropWhile.symm, ⟨?_, fun c hc => ?_⟩, fun c hc => ?_⟩
  · obtain ⟨text, rfl⟩ := isPrefixOf_iff.mp h
    exact ⟨text.takeWhile (!isLineEnd ·), rfl⟩
  · simpa using List.mem_takeWhile_imp hc
  · have := List.head?_dropWhile_not (!isLineEnd ·) source
    rw [hc] at this
    simpa using this

/-- The end of a line is one line end or none. -/
theorem take_lineEnd_mem (cs : List Char) :
    cs.take (lineEnd cs) ∈ [[], ['\n'], ['\r'], ['\r', '\n']] := by
  cases cs with
  | nil => simp
  | cons c cs =>
    simp only [lineEnd]
    split_ifs with hn hr hhead
    · simp [hn]
    · cases cs with
      | nil => cases hhead
      | cons d ds =>
        obtain rfl : d = '\n' := by simpa using hhead
        simp [hr]
    · simp [hr]
    · simp

/-- A line end is taken off as it was put, before a text that does not continue it. -/
theorem lineEnd_append {ending code : List Char} (h : ending ∈ [['\n'], ['\r'], ['\r', '\n']])
    (hcode : code.head? ≠ some '\n') : lineEnd (ending ++ code) = ending.length := by
  simp only [List.mem_cons, List.not_mem_nil, or_false] at h
  rcases h with rfl | rfl | rfl
  · rfl
  · simp [lineEnd, hcode]
  · rfl

theorem strip_append {line ending code : List Char} (h : IsLine line)
    (hending : ending ∈ [['\n'], ['\r'], ['\r', '\n']]) (hcode : code.head? ≠ some '\n') :
    strip (line ++ ending ++ code) = ⟨some (line ++ ending), code⟩ := by
  rw [List.append_assoc, strip_line h, lineEnd_append hending hcode]
  · simp
  · simp only [List.mem_cons, List.not_mem_nil, or_false] at hending
    rcases hending with rfl | rfl | rfl <;> simp [isLineEnd]

theorem reattach_ended {d : List Char} (h : d.getLast?.any isLineEnd = true) (code : List Char) :
    reattach (some d) code = d ++ code := by
  simp [reattach, h]

theorem reattach_line {line : List Char} (h : IsLine line) {code : List Char} (hcode : code ≠ []) :
    reattach (some line) code = line ++ ['\n'] ++ code := by
  have hlast : line.getLast?.any isLineEnd = false := by
    rw [Option.any_eq_false_iff_get]
    intro hsome
    rw [h.inside _ (List.mem_of_getLast? (Option.some_get hsome).symm)]
  simp [reattach, hlast, hcode]

theorem getLast?_ended (line : List Char) {ending : List Char}
    (h : ending ∈ [['\n'], ['\r'], ['\r', '\n']]) :
    (line ++ ending).getLast?.any isLineEnd = true := by
  simp only [List.mem_cons, List.not_mem_nil, or_false] at h
  rcases h with rfl | rfl | rfl <;> simp [isLineEnd]

/-- What is put back is taken off again, and putting it back once more gives the same text. -/
theorem strip_reattach (source : List Char) {code : List Char}
    (hhash : code.head? ≠ some '#') (hline : code.head? ≠ some '\n') :
    ∃ directive, strip (reattach (strip source).directive code) = ⟨directive, code⟩ ∧
      reattach directive code = reattach (strip source).directive code := by
  by_cases hstart : "#!".toList.isPrefixOf source = true
  · obtain ⟨line, tail, rfl, h, htail⟩ := exists_line hstart
    rw [strip_line h htail]
    rcases List.mem_cons.mp (take_lineEnd_mem tail) with hnone | hending
    · rw [hnone, List.append_nil]
      by_cases hcode : code = []
      · subst hcode
        refine ⟨some line, ?_, rfl⟩
        have hstrip : strip (line ++ []) = _ := strip_line h nofun
        simpa [reattach, lineEnd] using hstrip
      · have hnewline : ['\n'] ∈ [['\n'], ['\r'], ['\r', '\n']] := List.mem_cons_self
        rw [reattach_line h hcode, strip_append h hnewline hline]
        exact ⟨_, rfl, reattach_ended (getLast?_ended line hnewline) code⟩
    · rw [reattach_ended (getLast?_ended line hending), strip_append h hending hline]
      exact ⟨_, rfl, reattach_ended (getLast?_ended line hending) code⟩
  · have hcode : ¬"#!".toList.isPrefixOf code = true := by
      rw [isPrefixOf_iff]
      rintro ⟨text, rfl⟩
      exact hhash rfl
    rw [strip_of_not_start hstart]
    exact ⟨none, strip_of_not_start hcode, rfl⟩

/-- Nothing but the end of a text follows a line that has no line end. -/
theorem eq_nil_of_take_lineEnd {tail : List Char} (htail : ∀ c ∈ tail.head?, isLineEnd c = true)
    (h : tail.take (lineEnd tail) = []) : tail = [] := by
  cases tail with
  | nil => rfl
  | cons c cs =>
    have hc : c = '\n' ∨ c = '\r' := by simpa [isLineEnd] using htail c rfl
    rcases hc with rfl | rfl
    · simp [lineEnd] at h
    · simp only [lineEnd] at h
      split_ifs at h <;> simp at h

end Downlevel.Directive
