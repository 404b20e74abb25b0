import Downlevel.Proofs.Failing
import Downlevel.Proofs.FirstOffender
import Downlevel.Proofs.Transparency

/-!
# Where a rejected text is said to be wrong

The line and the column of an error are those of a place in the text, in either dialect
(`parse_error_place`), whether the text does not match, cannot be put together or uses a construct that
the dialect lacks. Below a directive line they are those of the place in the whole text just when the
directive ends in a line feed (`convert_error_place`): it is counted as a line in any case.
-/

namespace Downlevel

/-! ## Errors in a text -/

theorem Tree.Faithful.in_of_mem_features {source : List Char} {t : RawTree} (h : t.Faithful source) :
    ∀ use ∈ t.features, use.1.In source := by
  induction h with
  | @node range k inside _ _ _ ih =>
    intro use huse
    rw [features_node, List.mem_append, List.mem_flatMap] at huse
    rcases huse with hhere | ⟨c, hc, hbelow⟩
    · obtain ⟨f, -, rfl⟩ := Option.map_eq_some_iff.mp (Option.mem_toList.mp hhere)
      exact inside
    · exact ih c hc use hbelow

/-- Whatever is wrong with a text is so at a place of it. -/
theorem isBoundary_of_checked {source : List Char} {dialect : Dialect} {cause : ParseError.Cause}
    {offset : Nat} (h : (parseRaw source >>= checkDialect dialect) = .error (cause, offset)) :
    IsBoundary source offset := by
  cases hraw : parseRaw source with
  | error fault =>
    rw [hraw] at h
    obtain rfl : fault = (cause, offset) := Except.error.inj h
    exact isBoundary_of_parseRaw hraw
  | ok raw =>
    rw [hraw] at h
    change checkDialect dialect raw = _ at h
    unfold checkDialect at h
    split at h <;> cases h
    rename_i range f more hfeatures
    have hfirst : (range, f) ∈ raw.features := by rw [hfeatures]; exact List.mem_cons_self
    exact ((parseRaw_faithful hraw).in_of_mem_features _ hfirst).1

/-- The error is at the place behind `before`, with line and column counted from one. -/
structure ParseError.PointsBehind (source : String) (before : List Char) (e : ParseError) : Prop where
  inside : before <+: source.toList
  offset_le : byteLength before ≤ source.utf8ByteSize
  line : e.line = 1 + before.count '\n'
  column : e.column = 1 + columnBehind before

section Read

variable {source : String} {dialect : Dialect} {e : ParseError}

theorem exists_checked_of_parse (h : parse source dialect = .error e) :
    ∃ offset, (parseRaw source.toList >>= checkDialect dialect) = .error (e.cause, offset) ∧
      e = .ofPosition e.cause ((LineIndex.ofText source.toList).position offset) := by
  unfold parse parseTree at h
  dsimp only at h
  split at h <;> cases h
  rename_i cause offset hchecked
  exact ⟨offset, hchecked, rfl⟩

/-- An error is reported where the text was found wrong. -/
theorem exists_pointsBehind_of_parse (h : parse source dialect = .error e) :
    ∃ before, e.PointsBehind source before ∧
      (parseRaw source.toList >>= checkDialect dialect) = .error (e.cause, byteLength before) := by
  obtain ⟨offset, hchecked, he⟩ := exists_checked_of_parse h
  obtain ⟨before, ⟨after, hsplit⟩, rfl⟩ := isBoundary_of_checked hchecked
  have hinside : before <+: source.toList := ⟨after, hsplit⟩
  rw [← hsplit, LineIndex.position_byteLength] at he
  refine ⟨before, ⟨hinside, ?_, ?_, ?_⟩, hchecked⟩
  · rw [← byteLength_toList]
    exact byteLength_le_of_isPrefix hinside
  · rw [he]
    rfl
  · rw [he]
    exact Nat.add_comm _ _

theorem validate_of_parse_error (h : parse source .stable = .error e) :
    (validate source).1 = some ⟨outputValidationFailure, e.message, ⟨e.line, e.column - 1⟩⟩ := by
  unfold validate
  simp only [h]

end Read

/-- A rejected text is rejected at a place of it, and the error gives its line and column. A check of the
text points to the same place, with the column counted from zero. -/
theorem parse_error_place {source : String} {dialect : Dialect} {e : ParseError}
    (h : parse source dialect = .error e) :
    ∃ before, e.PointsBehind source before ∧
      (parseRaw source.toList >>= checkDialect dialect) = .error (e.cause, byteLength before) ∧
      (dialect = .stable → ∃ d, (validate source).1 = some d ∧ d.message = e.message ∧
        d.location = ⟨1 + before.count '\n', columnBehind before⟩ ∧
        e.line = d.location.line ∧ e.column = d.location.column + 1) := by
  obtain ⟨before, hpoints, hchecked⟩ := exists_pointsBehind_of_parse h
  refine ⟨before, hpoints, hchecked, ?_⟩
  rintro rfl
  have hlocation : (⟨e.line, e.column - 1⟩ : Location) = ⟨1 + before.count '\n', columnBehind before⟩ := by
    rw [hpoints.line, hpoints.column, Nat.add_sub_cancel_left]
  have hcolumn : e.column = e.column - 1 + 1 := by
    rw [hpoints.column]
    omega
  exact ⟨_, validate_of_parse_error h, rfl, hlocation, rfl, hcolumn⟩

/-- Line ends of both kinds, a return on its own, and characters of several bytes. -/
def mixedLines : String :=
  "var s = \"é\";\r\n\r\"ü\" + `ö`;\n"

theorem parse_error_place_mixedLines :
    parse mixedLines .stable = .error ⟨.unsupported .templateLiteral, 2, 8⟩ ∧
      ∃ before d, byteLength before = 23 ∧ before <+: mixedLines.toList ∧
        (validate mixedLines).1 = some d ∧ d.location = ⟨2, 7⟩ := by
  have hparse : parse mixedLines .stable = .error ⟨.unsupported .templateLiteral, 2, 8⟩ := by
    decide +kernel
  have hread : ((parseRaw mixedLines.toList >>= checkDialect .stable).mapError Prod.snd).map
      (fun _ => ()) = .error 23 := by
    decide +kernel
  obtain ⟨before, hpoints, hoffset, hvalidate⟩ := parse_error_place hparse
  obtain ⟨d, hd, -, -, hline, hcolumn⟩ := hvalidate rfl
  rw [hoffset] at hread
  refine ⟨hparse, before, d, Except.error.inj hread, hpoints.inside, hd, ?_⟩
  obtain ⟨kind, message, line, column⟩ := d
  cases hline
  cases hcolumn
  rfl

/-! ## Errors below a directive -/

/-- Only what follows the last line feed counts for a column. -/
theorem columnBehind_append_newline (before after : List Char) :
    columnBehind (before ++ '\n' :: after) = columnBehind after := by
  have hwhole : WholeLines (before ++ ['\n']) := .inr List.getLast?_concat
  rw [List.append_cons]
  exact hwhole.columnBehind_append after

namespace Directive

/-- What is taken off is a line with its end, and what is left is the rest of the text. -/
theorem exists_line_of_strip {source d body : List Char} (h : strip source = ⟨some d, body⟩) :
    ∃ line ending, IsLine line ∧ ending ∈ [[], ['\n'], ['\r'], ['\r', '\n']] ∧ d = line ++ ending ∧
      source = d ++ body ∧ (ending = [] → body = []) := by
  have hstart : "#!".toList.isPrefixOf source = true := by
    by_contra hnot
    rw [strip_of_not_start hnot] at h
    cases h
  obtain ⟨line, tail, rfl, hline, htail⟩ := exists_line hstart
  rw [strip_line hline htail] at h
  cases h
  refine ⟨line, _, hline, take_lineEnd_mem tail, rfl, ?_, fun hnone => ?_⟩
  · rw [List.append_assoc, List.take_append_drop]
  · rw [eq_nil_of_take_lineEnd htail hnone]
    rfl

theorem IsLine.count_newline {line : List Char} (h : IsLine line) : line.count '\n' = 0 := by
  rw [List.count_eq_zero]
  intro hmem
  cases h.inside _ hmem

/-- A directive that a text follows ends in a line feed, and then it is a line of the text, or in a
return, and then it is a part of one. -/
theorem line_of_strip {source d body : List Char} (h : strip source = ⟨some d, body⟩) (hbody : body ≠ []) :
    d.getLast? = some '\n' ∧ d.count '\n' = 1 ∧ (∀ before, columnBehind (d ++ before) = columnBehind before) ∨
      d.getLast? ≠ some '\n' ∧ d.count '\n' = 0 := by
  obtain ⟨line, ending, hline, hending, rfl, -, hnone⟩ := exists_line_of_strip h
  have hcount := hline.count_newline
  simp only [List.mem_cons, List.not_mem_nil, or_false] at hending
  rcases hending with rfl | rfl | rfl | rfl
  · exact absurd (hnone rfl) hbody
  · refine .inl ⟨by simp, by simp [hcount], fun before => ?_⟩
    rw [List.append_assoc]
    exact columnBehind_append_newline line before
  · exact .inr ⟨by simp, by simp [hcount]⟩
  · refine .inl ⟨by simp, by simp [hcount], fun before => ?_⟩
    rw [List.append_cons, List.append_assoc]
    exact columnBehind_append_newline (line ++ ['\r']) before

end Directive

open Directive

/-- A conversion fails to read the text that is left below the directive, and counts the directive as one
line. -/
theorem exists_parse_of_convert_error {source : String} {options : Options} {d body : List Char}
    {e : ParseError} (hstrip : strip source.toList = ⟨some d, body⟩)
    (h : (convert source options).result = .error (.parse e)) :
    ∃ e', parse (.ofList body) .next = .error e' ∧ e = e'.shift 1 := by
  rw [convert_of_strip hstrip, Module.ofSource] at h
  dsimp only at h
  cases hparse : parse (.ofList body) .next with
  | error e' =>
    rw [hparse] at h
    cases h
    exact ⟨e', rfl, rfl⟩
  | ok s =>
    rw [hparse] at h
    change (Module.convert _ _ _).result = _ at h
    unfold Module.convert at h
    split at h <;> cases h

/-- There is nothing wrong with an empty text. -/
theorem parseRaw_nil_ne_error (fault : ParseError.Cause × Nat) : parseRaw [] ≠ .error fault := by
  intro h
  have hread : (parseRaw []).isOk = true := by decide +kernel
  rw [h] at hread
  cases hread

/-- A text below a directive that cannot be read is rejected at the line and column of the place in the
whole text, if the directive ends in a line feed. If it ends in a return, it is counted as a line that
it is not. -/
theorem convert_error_place {source : String} {options : Options} {d body : List Char} {e : ParseError}
    (hstrip : strip source.toList = ⟨some d, body⟩)
    (h : (convert source options).result = .error (.parse e)) :
    ∃ offset place, parseRaw body = .error (e.cause, offset) ∧
      (LineIndex.ofText source.toList).position (byteLength d + offset) = place ∧
      (e.line = place.line ∧ e.column = place.column + 1 ↔ d.getLast? = some '\n') ∧
      (d.getLast? ≠ some '\n' → e.line = place.line + 1) := by
  obtain ⟨e', hparse, rfl⟩ := exists_parse_of_convert_error hstrip h
  obtain ⟨before, hpoints, hchecked⟩ := exists_pointsBehind_of_parse hparse
  obtain ⟨-, -, -, -, -, hsource, -⟩ := exists_line_of_strip hstrip
  obtain ⟨after, hafter⟩ := hpoints.inside
  rw [String.toList_ofList] at hchecked hafter
  have hraw : parseRaw body = .error (e'.cause, byteLength before) := by
    cases hbody : parseRaw body with
    | error fault => rw [hbody] at hchecked; exact hchecked
    | ok raw =>
      rw [hbody] at hchecked
      cases (checkDialect_next raw).symm.trans hchecked
  have hplace : (LineIndex.ofText source.toList).position (byteLength d + byteLength before)
      = .behind (d ++ before) := by
    rw [hsource, ← hafter, ← List.append_assoc, ← Cursor.byteLength_append]
    exact LineIndex.position_byteLength (d ++ before) after
  have hne : body ≠ [] := by
    rintro rfl
    exact parseRaw_nil_ne_error _ hraw
  have hlines : (d ++ before).count '\n' = d.count '\n' + before.count '\n' := List.count_append
  have hline : (e'.shift 1).line = 1 + before.count '\n' + 1 := congrArg (· + 1) hpoints.line
  have hcolumn : (e'.shift 1).column = 1 + columnBehind before := hpoints.column
  refine ⟨_, _, hraw, hplace, ?_⟩
  simp only [Position.behind, hlines, hline, hcolumn]
  rcases line_of_strip hstrip hne with ⟨hlast, hone, hsame⟩ | ⟨hlast, hnone⟩
  · rw [hone, hsame]
    exact ⟨iff_of_true ⟨by omega, by omega⟩ hlast, fun hnot => absurd hlast hnot⟩
  · rw [hnone]
    exact ⟨iff_of_false (by omega) hlast, fun _ => by omega⟩

theorem convert_error_place_crlf :
    strip "#!x\r\n(".toList = ⟨some "#!x\r\n".toList, "(".toList⟩ ∧
      ∃ e offset place, (convert "#!x\r\n(").result = .error (.parse e) ∧
        parseRaw "(".toList = .error (e.cause, offset) ∧
        (LineIndex.ofText "#!x\r\n(".toList).position (5 + offset) = place ∧
        e.line = place.line ∧ e.column = place.column + 1 := by
  have hstrip : strip "#!x\r\n(".toList = ⟨some "#!x\r\n".toList, "(".toList⟩ := by decide +kernel
  have hresult : (convert "#!x\r\n(").result
      = .error (.parse ⟨.expected [.param, .assignment], 2, 2⟩) := by
    decide +kernel
  obtain ⟨offset, place, hraw, hplace, hsame, -⟩ := convert_error_place hstrip hresult
  exact ⟨hstrip, _, offset, place, hresult, hraw, hplace, hsame.mpr rfl⟩

/-- A directive that ends in a return is on the same line as the text that follows it, but the error is
reported one line below, at the column that it has without the directive. -/
theorem convert_error_after_return :
    strip "#!x\r(".toList = ⟨some "#!x\r".toList, "(".toList⟩ ∧
      (convert "#!x\r(").result = .error (.parse ⟨.expected [.param, .assignment], 2, 2⟩) ∧
      (∃ cause, parseRaw "(".toList = .error (cause, 1)) ∧
      (LineIndex.ofText "#!x\r(".toList).position (byteLength "#!x\r".toList + 1) = ⟨5, 1, 5⟩ := by
  refine ⟨by decide +kernel, by decide +kernel, ?_, by decide +kernel⟩
  have hread : ((parseRaw "(".toList).mapError Prod.snd).map (fun _ => ()) = .error 1 := by
    decide +kernel
  cases hraw : parseRaw "(".toList with
  | ok raw =>
    rw [hraw] at hread
    cases hread
  | error fault =>
    rw [hraw] at hread
    obtain ⟨cause, offset⟩ := fault
    cases hread
    exact ⟨cause, rfl⟩

end Downlevel
