import Mathlib.Data.List.TakeWhile
import Downlevel.Grammar.Lexeme

/-!
# Words and literals in a longer text

A lexeme that takes up all of a text is taken up again, and nothing more, when the text goes on with
something that does not prolong it (`tokenEnds`). Conversely what a lexeme takes up of a text is a
lexeme by itself. Blanks are skipped at once: behind them there are none.
-/

namespace Downlevel.Lexeme

/-! ## Blanks -/

attribute [local simp] blank

/-- What is left of a text behind its blanks. -/
def skip (cs : List Char) : List Char :=
  cs.drop (blank cs)

theorem blank_drop :
    (∀ cs : List Char, blank (cs.drop (blank cs)) = 0) ∧
      (∀ (cs : List Char) (n : Nat), blockComment cs = some n → blank (cs.drop n) = 0) ∧
      ∀ cs : List Char, blank (cs.drop (lineComment cs)) = 0 := by
  apply blank.mutual_induct
  case case1 => intro cs ih; simpa using ih
  case case2 => intro cs h _; simp [h]
  case case3 => intro cs n h ih; simpa [h] using ih n h
  case case4 => simp
  case case5 =>
    intro c cs h₁ h₂ hc ih
    rw [blank.eq_4 c cs h₁ h₂, if_pos hc]
    exact ih
  case case6 =>
    intro c cs h₁ h₂ hc
    rw [blank.eq_4 c cs h₁ h₂, if_neg hc, List.drop_zero, blank.eq_4 c cs h₁ h₂, if_neg hc]
  case case7 =>
    intro cs ih n h
    simp only [blockComment, Option.some.injEq] at h
    subst h
    exact ih
  case case8 => simp [blockComment]
  case case9 =>
    intro c cs h₁ ih n h
    rw [blockComment.eq_3 c cs h₁, Option.map_eq_some_iff] at h
    obtain ⟨m, hm, rfl⟩ := h
    exact ih m hm
  case case10 => simp [lineComment]
  case case11 =>
    intro c cs hc ih
    simpa [lineComment, hc] using ih
  case case12 =>
    intro c cs hc ih
    simpa [lineComment, hc] using ih

@[simp] theorem blank_skip (cs : List Char) : blank (skip cs) = 0 :=
  blank_drop.1 cs

@[simp] theorem skip_skip (cs : List Char) : skip (skip cs) = skip cs := by
  rw [skip, blank_skip, List.drop_zero]

@[simp] theorem skip_space (cs : List Char) : skip (' ' :: cs) = skip cs := by
  simp [skip, isSpace]

@[simp] theorem skip_newline (cs : List Char) : skip ('\n' :: cs) = skip cs := by
  simp [skip, isSpace]

@[simp] theorem skip_spaces (n : Nat) (cs : List Char) :
    skip (List.replicate n ' ' ++ cs) = skip cs := by
  induction n with
  | zero => simp
  | succ n ih => simpa [List.replicate_succ] using ih

/-- A text that starts with neither a space nor a slash has no blanks to skip. -/
theorem skip_cons {c : Char} (hs : isSpace c = false) (hc : c ≠ '/') (cs : List Char) :
    skip (c :: cs) = c :: cs := by
  have h : blank (c :: cs) = 0 := by
    rw [blank.eq_4 c cs (fun _ h => absurd h hc) (fun _ h => absurd h hc), hs]
    simp
  rw [skip, h, List.drop_zero]

/-- A slash before a space starts no comment. -/
@[simp] theorem skip_slash_space (cs : List Char) : skip ('/' :: ' ' :: cs) = '/' :: ' ' :: cs := by
  have h : blank ('/' :: ' ' :: cs) = 0 := by
    rw [blank.eq_4 _ _ (by simp) (by simp)]
    simp [isSpace]
  rw [skip, h, List.drop_zero]

/-! ## Where a token ends -/

/-- Whether a text prolongs no word and no number that stands before it. -/
def tokenEnds : List Char → Bool
  | '.' :: c :: _ => !c.isDigit
  | c :: _ => !isNameChar c
  | [] => true

theorem isNameChar_of_isNameStart {c : Char} (h : isNameStart c = true) : isNameChar c = true := by
  simp only [isNameStart, isNameChar, Char.isAlphanum, Bool.or_eq_true] at h ⊢
  rcases h with (h | h) | h <;> simp [h]

theorem isNameChar_of_isDigit {c : Char} (h : c.isDigit = true) : isNameChar c = true := by
  simp [isNameChar, Char.isAlphanum, h]

theorem isNameChar_head_of_tokenEnds {rest : List Char} (h : tokenEnds rest = true) :
    rest.takeWhile isNameChar = [] := by
  cases rest with
  | nil => rfl
  | cons c rest =>
    refine List.takeWhile_cons_of_neg ?_
    unfold tokenEnds at h
    split at h
    · rename_i heq
      cases heq
      decide
    · rename_i heq
      cases heq
      simpa using h
    · rename_i heq
      cases heq

theorem isDigit_head_of_tokenEnds {rest : List Char} (h : tokenEnds rest = true) :
    digits rest = [] := by
  cases rest with
  | nil => rfl
  | cons c rest =>
    have hn := isNameChar_head_of_tokenEnds h
    rw [digits, List.takeWhile_cons_of_neg]
    intro hc
    rw [List.takeWhile_cons_of_pos (isNameChar_of_isDigit hc)] at hn
    simp at hn

theorem word_append {cs rest : List Char} (hcs : word cs = cs) (hrest : tokenEnds rest = true) :
    word (cs ++ rest) = cs := by
  rw [word, List.takeWhile_append_of_pos (List.takeWhile_eq_self_iff.mp hcs),
    isNameChar_head_of_tokenEnds hrest, List.append_nil]

theorem word_eq_self {cs : List Char} (h : (word cs).length = cs.length) : word cs = cs :=
  (List.takeWhile_prefix isNameChar).eq_of_length h

/-! ## Names and keywords -/

theorem word_of_name {cs : List Char} (h : name cs = some cs.length) : word cs = cs := by
  unfold name at h
  split at h
  · rfl
  · split_ifs at h
    exact word_eq_self (Option.some.inj h)

theorem name_append {cs rest : List Char} (h : name cs = some cs.length)
    (hrest : tokenEnds rest = true) : name (cs ++ rest) = some cs.length := by
  have hw := word_append (word_of_name h) hrest
  cases cs with
  | nil => simp [name] at h
  | cons c cs =>
    have hc : isNameStart c = true := by
      by_contra hc
      simp [name, hc] at h
    simp only [List.cons_append, name, hc, if_true] at hw ⊢
    rw [hw]

theorem identifier_append {cs rest : List Char} (h : identifier cs = some cs.length)
    (hrest : tokenEnds rest = true) : identifier (cs ++ rest) = some cs.length := by
  unfold identifier at h ⊢
  split_ifs at h with hk
  have hw := word_of_name h
  rw [hw] at hk
  rw [word_append hw hrest, if_neg hk]
  exact name_append h hrest

theorem keyword_append {w : String} {rest : List Char} (h : word w.toList = w.toList)
    (hrest : tokenEnds rest = true) : keyword w (w.toList ++ rest) = some w.toList.length := by
  rw [keyword, word_append h hrest, if_pos rfl]
  rfl

theorem name_pos {cs : List Char} {n : Nat} (h : name cs = some n) : 0 < n ∧ cs ≠ [] := by
  unfold name at h
  split at h
  · simp at h
  · rename_i c cs
    split_ifs at h with hc
    obtain rfl := Option.some.inj h
    rw [word, List.takeWhile_cons_of_pos (isNameChar_of_isNameStart hc)]
    simp

theorem identifier_pos {cs : List Char} {n : Nat} (h : identifier cs = some n) :
    0 < n ∧ cs ≠ [] := by
  unfold identifier at h
  split_ifs at h
  exact name_pos h

theorem keyword_pos {w : String} (hw : w ≠ "") {cs : List Char} {n : Nat}
    (h : keyword w cs = some n) : 0 < n ∧ cs ≠ [] := by
  unfold keyword at h
  split_ifs at h with hcs
  obtain rfl := Option.some.inj h
  refine ⟨?_, ?_⟩
  · rw [← String.length_toList, List.length_pos_iff]
    simpa using hw
  · rintro rfl
    exact hw (by simpa [word] using hcs.symm)

/-- What a name takes up is a name by itself. -/
theorem name_take {cs : List Char} {n : Nat} (h : name cs = some n) :
    name (cs.take n) = some (cs.take n).length ∧ word cs = cs.take n := by
  unfold name at h
  split at h
  · simp at h
  · rename_i c cs
    split_ifs at h with hc
    obtain rfl := Option.some.inj h
    have ht : (c :: cs).take (word (c :: cs)).length = word (c :: cs) :=
      List.prefix_iff_eq_take.mp (List.takeWhile_prefix isNameChar) |>.symm
    have hw : word (c :: cs) = c :: word cs :=
      List.takeWhile_cons_of_pos (isNameChar_of_isNameStart hc)
    have hww : word (word (c :: cs)) = word (c :: cs) := List.takeWhile_idem
    rw [ht]
    refine ⟨?_, rfl⟩
    rw [hw] at hww ⊢
    rw [name, if_pos hc, hww]

theorem identifier_take {cs : List Char} {n : Nat} (h : identifier cs = some n) :
    identifier (cs.take n) = some (cs.take n).length := by
  unfold identifier at h
  split_ifs at h with hk
  obtain ⟨hn, hw⟩ := name_take h
  rw [identifier, word_of_name hn, ← hw, if_neg hk, hw]
  exact hn

/-! ## Numbers -/

theorem digits_append {cs rest : List Char} (hcs : digits cs = cs) (hrest : digits rest = []) :
    digits (cs ++ rest) = cs := by
  rw [digits, List.takeWhile_append_of_pos (List.takeWhile_eq_self_iff.mp hcs)]
  exact (congrArg (cs ++ ·) hrest).trans (List.append_nil cs)

theorem digits_tail_of_tokenEnds {rest : List Char} (h : tokenEnds ('.' :: rest) = true) :
    digits rest = [] := by
  cases rest with
  | nil => rfl
  | cons c rest =>
    refine List.takeWhile_cons_of_neg ?_
    simpa [tokenEnds] using h

/-- The digits a text starts with, and a rest that starts with none. -/
theorem exists_digits_append (cs : List Char) :
    ∃ rest, cs = digits cs ++ rest ∧ digits (digits cs) = digits cs ∧ digits rest = [] := by
  refine ⟨cs.dropWhile Char.isDigit, List.takeWhile_append_dropWhile.symm, ?_, ?_⟩
  · exact List.takeWhile_idem
  · rw [digits, List.takeWhile_eq_nil_iff]
    intro hl
    simpa using List.dropWhile_get_zero_not Char.isDigit cs hl

theorem number_digits {ds : List Char} (hne : ds ≠ []) (hds : digits ds = ds) {rest : List Char}
    (hrest : digits rest = []) (hpoint : ∀ cs, rest = '.' :: cs → digits cs = []) :
    number (ds ++ rest) = some ds.length := by
  have hl : ds.length ≠ 0 := by simpa using hne
  simp only [number, digits_append hds hrest, if_neg hl, List.drop_left]
  split
  · simp [hpoint _ rfl]
  · rfl

theorem number_fraction {ds fs : List Char} (hne : ds ≠ []) (hds : digits ds = ds) (hfe : fs ≠ [])
    (hfs : digits fs = fs) {rest : List Char} (hrest : digits rest = []) :
    number (ds ++ '.' :: (fs ++ rest)) = some (ds.length + 1 + fs.length) := by
  have hl : ds.length ≠ 0 := by simpa using hne
  have hf : fs.length ≠ 0 := by simpa using hfe
  have hp : digits ('.' :: (fs ++ rest)) = [] := List.takeWhile_cons_of_neg (by decide)
  simp only [number, digits_append hds hp, if_neg hl, List.drop_left, digits_append hfs hrest,
    if_neg hf]

/-- What a number takes up is digits, or digits, a point and digits. -/
theorem number_eq_some {cs : List Char} {n : Nat} (h : number cs = some n) :
    (∃ ds rest, cs = ds ++ rest ∧ n = ds.length ∧ ds ≠ [] ∧ digits ds = ds ∧ digits rest = [] ∧
        ∀ fs, rest = '.' :: fs → digits fs = []) ∨
      ∃ ds fs rest, cs = ds ++ '.' :: (fs ++ rest) ∧ n = ds.length + 1 + fs.length ∧ ds ≠ [] ∧
        digits ds = ds ∧ fs ≠ [] ∧ digits fs = fs ∧ digits rest = [] := by
  obtain ⟨rest, hcs, hds, hrest⟩ := exists_digits_append cs
  have hdrop : cs.drop (digits cs).length = rest := by
    rw [hcs, digits_append hds hrest, List.drop_left]
  simp only [number, hdrop] at h
  split_ifs at h with hl
  have hne : digits cs ≠ [] := by simpa using hl
  split at h
  · rename_i tail
    obtain ⟨rest', htail, hfs, hrest'⟩ := exists_digits_append tail
    split_ifs at h with hf
    · refine Or.inl ⟨digits cs, _, hcs, (Option.some.inj h).symm, hne, hds, hrest, fun fs e => ?_⟩
      cases e
      simpa using hf
    · refine Or.inr ⟨digits cs, digits tail, rest', ?_, (Option.some.inj h).symm, hne, hds, ?_, hfs,
        hrest'⟩
      · rw [← htail]
        exact hcs
      · simpa using hf
  · rename_i hpoint
    exact Or.inl ⟨digits cs, rest, hcs, (Option.some.inj h).symm, hne, hds, hrest,
      fun fs e => absurd e (hpoint fs)⟩

theorem number_append {cs rest : List Char} (h : number cs = some cs.length)
    (hrest : tokenEnds rest = true) : number (cs ++ rest) = some cs.length := by
  obtain ⟨ds, tail, rfl, hn, hne, hds, -, -⟩ | ⟨ds, fs, tail, rfl, hn, hne, hds, hfe, hfs, -⟩ :=
    number_eq_some h
  · obtain rfl : tail = [] := by simpa using hn
    simp only [List.append_nil]
    exact number_digits hne hds (isDigit_head_of_tokenEnds hrest)
      fun cs e => digits_tail_of_tokenEnds (e ▸ hrest)
  · obtain rfl : tail = [] := by
      simp only [List.length_append, List.length_cons] at hn
      exact List.length_eq_zero_iff.mp (by omega)
    have := number_fraction hne hds hfe hfs (isDigit_head_of_tokenEnds hrest)
    simp only [List.append_nil, List.append_assoc, List.cons_append] at hn ⊢
    rw [this, hn]

/-- What a number takes up is a number by itself. -/
theorem number_take {cs : List Char} {n : Nat} (h : number cs = some n) :
    number (cs.take n) = some (cs.take n).length := by
  obtain ⟨ds, rest, rfl, rfl, hne, hds, -, -⟩ | ⟨ds, fs, rest, rfl, rfl, hne, hds, hfe, hfs, -⟩ :=
    number_eq_some h
  · rw [List.take_left]
    simpa using number_digits hne hds (show digits [] = [] from rfl) (by simp)
  · have ht : (ds ++ '.' :: (fs ++ rest)).take (ds.length + 1 + fs.length)
        = ds ++ '.' :: (fs ++ []) := by
      rw [List.append_nil, ← List.cons_append, ← List.append_assoc]
      refine List.take_left' ?_
      simp only [List.length_append, List.length_cons]
      omega
    rw [ht, number_fraction hne hds hfe hfs rfl]
    simp only [List.length_append, List.length_cons, List.length_nil, Option.some.injEq]
    omega

theorem number_pos {cs : List Char} {n : Nat} (h : number cs = some n) : 0 < n ∧ cs ≠ [] := by
  obtain ⟨ds, rest, rfl, rfl, hne, -⟩ | ⟨ds, fs, rest, rfl, rfl, hne, -⟩ := number_eq_some h
  · exact ⟨List.length_pos_iff.mpr hne, by simp [hne]⟩
  · exact ⟨by omega, by simp⟩

/-! ## Strings and templates -/

attribute [local simp] stringContents templateText

theorem stringContents_le (cs : List Char) : stringContents cs ≤ cs.length := by
  induction cs using stringContents.induct with
  | case1 c cs ih => simp; omega
  | case2 => simp
  | case3 c cs h₁ h₂ => simp [stringContents.eq_3 c cs h₁, h₂]
  | case4 c cs h₁ h₂ ih => rw [stringContents.eq_3 c cs h₁, if_neg h₂]; simpa using ih

/-- Behind contents of a string, contents go on. -/
theorem stringContents_append {raw : List Char} (h : stringContents raw = raw.length)
    (rest : List Char) : stringContents (raw ++ rest) = raw.length + stringContents rest := by
  induction raw using stringContents.induct with
  | case1 c cs ih =>
    simp only [stringContents, List.length_cons, Nat.add_right_cancel_iff] at h
    simp only [List.cons_append, stringContents, ih h, List.length_cons]
    omega
  | case2 => simp
  | case3 c cs h₁ h₂ => simp [stringContents.eq_3 c cs h₁, h₂] at h
  | case4 c cs h₁ h₂ ih =>
    rw [stringContents.eq_3 c cs h₁, if_neg h₂, List.length_cons, Nat.add_right_cancel_iff] at h
    have hc : c ≠ '\\' := by
      rintro rfl
      simp at h₂
    rw [List.cons_append, stringContents.eq_3 _ _ (fun _ _ e => absurd e hc), if_neg h₂, ih h,
      List.length_cons, Nat.add_right_comm]

/-- The contents a string takes up are contents by themselves. -/
theorem stringContents_take (cs : List Char) :
    stringContents (cs.take (stringContents cs)) = stringContents cs := by
  induction cs using stringContents.induct with
  | case1 c cs ih => simpa using ih
  | case2 => simp
  | case3 c cs h₁ h₂ => simp [stringContents.eq_3 c cs h₁, h₂]
  | case4 c cs h₁ h₂ ih =>
    have hc : c ≠ '\\' := by
      rintro rfl
      simp at h₂
    rw [stringContents.eq_3 c cs h₁, if_neg h₂, List.take_succ_cons,
      stringContents.eq_3 _ _ (fun _ _ e => absurd e hc), if_neg h₂, ih]

theorem string_quoted {raw : List Char} (h : stringContents raw = raw.length) (rest : List Char) :
    string ('"' :: (raw ++ '"' :: rest)) = some (raw.length + 2) := by
  simp [string, stringContents_append h]

/-- What a string takes up is contents between quotes. -/
theorem string_eq_some {cs : List Char} {n : Nat} (h : string cs = some n) :
    ∃ raw, cs.take n = '"' :: (raw ++ ['"']) ∧ stringContents raw = raw.length ∧ 0 < n := by
  unfold string at h
  split at h
  · rename_i cs
    dsimp only at h
    split at h
    · rename_i rest hd
      obtain rfl := Option.some.inj h
      refine ⟨cs.take (stringContents cs), ?_, ?_, by omega⟩
      · rw [List.take_succ_cons, List.take_add_one, ← List.head?_drop, hd]
        rfl
      · rw [stringContents_take, List.length_take, min_eq_left (stringContents_le cs)]
    · simp at h
  · simp at h

theorem templateText_le (cs : List Char) : templateText cs ≤ cs.length := by
  induction cs using templateText.induct with
  | case1 c cs ih => simp; omega
  | case2 => simp
  | case3 => simp
  | case4 c cs h₁ h₂ h₃ => simp [templateText.eq_4 c cs h₁ h₂, h₃]
  | case5 c cs h₁ h₂ h₃ ih => rw [templateText.eq_4 c cs h₁ h₂, if_neg h₃]; simpa using ih

theorem templateChars_of_pos {cs : List Char} (h : 0 < templateText cs) :
    templateChars cs = some (templateText cs) := by
  unfold templateChars
  split <;> simp_all

theorem templateChars_eq_some {cs : List Char} {n : Nat} (h : templateChars cs = some n) :
    n = templateText cs ∧ 0 < n := by
  unfold templateChars at h
  split at h
  · cases h
  · rename_i hn
    obtain rfl := Option.some.inj h
    exact ⟨rfl, Nat.pos_of_ne_zero hn⟩

/-- Template text goes on to the next substitution or to the end of the template. -/
theorem templateText_append {text : List Char} (h : templateText text = text.length)
    {rest : List Char} (hrest : templateText rest = 0) (hbrace : ∀ cs, rest ≠ '\x7b' :: cs) :
    templateText (text ++ rest) = text.length := by
  induction text using templateText.induct with
  | case1 c cs ih =>
    simp only [templateText, List.length_cons, Nat.add_right_cancel_iff] at h
    simpa using ih h
  | case2 => simp at h
  | case3 => simpa using hrest
  | case4 c cs h₁ h₂ h₃ => simp [templateText.eq_4 c cs h₁ h₂, h₃] at h
  | case5 c cs h₁ h₂ h₃ ih =>
    rw [templateText.eq_4 c cs h₁ h₂, if_neg h₃, List.length_cons, Nat.add_right_cancel_iff] at h
    have hc : c ≠ '\\' := by
      rintro rfl
      simp at h₃
    have hd : ∀ tail, c = '$' → cs ++ rest = '\x7b' :: tail → False := by
      intro tail hc e
      cases cs with
      | nil => exact hbrace tail e
      | cons d cs =>
        simp only [List.cons_append, List.cons.injEq] at e
        exact h₂ cs hc (by rw [e.1])
    rw [List.cons_append, templateText.eq_4 _ _ (fun _ _ e => absurd e hc) hd, if_neg h₃, ih h,
      List.length_cons]

/-- The text a template takes up is such text by itself. -/
theorem templateText_take (cs : List Char) :
    templateText (cs.take (templateText cs)) = templateText cs := by
  induction cs using templateText.induct with
  | case1 c cs ih => simpa using ih
  | case2 => simp
  | case3 => simp
  | case4 c cs h₁ h₂ h₃ => simp [templateText.eq_4 c cs h₁ h₂, h₃]
  | case5 c cs h₁ h₂ h₃ ih =>
    have hc : c ≠ '\\' := by
      rintro rfl
      simp at h₃
    have hd : ∀ tail, c = '$' → cs.take (templateText cs) = '\x7b' :: tail → False := by
      intro tail hc e
      cases cs with
      | nil => simp at e
      | cons d cs =>
        cases ht : templateText (d :: cs) with
        | zero => simp [ht] at e
        | succ n =>
          rw [ht, List.take_succ_cons, List.cons.injEq] at e
          exact h₂ cs hc (by rw [e.1])
    rw [templateText.eq_4 c cs h₁ h₂, if_neg h₃, List.take_succ_cons,
      templateText.eq_4 _ _ (fun _ _ e => absurd e hc) hd, if_neg h₃, ih]

/-- Behind template text no template text follows. -/
theorem templateText_drop (cs : List Char) : templateText (cs.drop (templateText cs)) = 0 := by
  induction cs using templateText.induct with
  | case1 c cs ih => simpa using ih
  | case2 => simp
  | case3 => simp
  | case4 c cs h₁ h₂ h₃ => simp [templateText.eq_4 c cs h₁ h₂, h₃]
  | case5 c cs h₁ h₂ h₃ ih => rw [templateText.eq_4 c cs h₁ h₂, if_neg h₃]; exact ih

end Downlevel.Lexeme
