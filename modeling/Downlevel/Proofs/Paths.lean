import Mathlib.Data.List.Basic
import Mathlib.Data.List.Induction
import Downlevel.File.Path

/-!
# Paths below a path

What a path is once names are put behind it (`Path.down`): its segments are those of the path it starts
from and the names, it ends in the last name, and the path above it is the one without that name.
-/

namespace Downlevel

namespace Text

variable {separator : Char} {s s' : List Char}

attribute [local simp] split

theorem split_ne_nil (separator : Char) (s : List Char) : split separator s ≠ [] := by
  cases s with
  | nil => simp
  | cons c cs =>
    rw [split]
    split
    · simp
    · split <;> simp

theorem split_cons_separator : split separator (separator :: s) = [] :: split separator s := by
  obtain ⟨p, ps, h⟩ := List.exists_cons_of_ne_nil (split_ne_nil separator s)
  simp [h]

theorem split_cons_of_ne {c : Char} (hc : c ≠ separator) {p : List Char} {ps : List (List Char)}
    (h : split separator s = p :: ps) : split separator (c :: s) = (c :: p) :: ps := by
  simp [h, hc]

theorem split_append : split separator (s ++ separator :: s') = split separator s ++ split separator s' := by
  induction s with
  | nil => exact split_cons_separator
  | cons c cs ih =>
    by_cases hc : c = separator
    · subst hc
      rw [List.cons_append, split_cons_separator, split_cons_separator, ih, List.cons_append]
    · obtain ⟨p, ps, h⟩ := List.exists_cons_of_ne_nil (split_ne_nil separator cs)
      rw [h, List.cons_append] at ih
      rw [List.cons_append, split_cons_of_ne hc ih, split_cons_of_ne hc h, List.cons_append]

theorem split_eq_singleton (h : separator ∉ s) : split separator s = [s] := by
  induction s with
  | nil => rfl
  | cons c cs ih =>
    rw [List.mem_cons, not_or] at h
    rw [split_cons_of_ne (Ne.symm h.1) (ih h.2)]

theorem notMem_of_mem_split {piece : List Char} (h : piece ∈ split separator s) :
    separator ∉ piece := by
  induction s generalizing piece with
  | nil =>
    rw [split, List.mem_singleton] at h
    simp [h]
  | cons c cs ih =>
    obtain ⟨p, ps, hcs⟩ := List.exists_cons_of_ne_nil (split_ne_nil separator cs)
    rw [hcs] at ih
    by_cases hc : c = separator
    · subst hc
      rw [split_cons_separator, hcs, List.mem_cons] at h
      rcases h with rfl | h
      · simp
      · exact ih h
    · rw [split_cons_of_ne hc hcs, List.mem_cons] at h
      rcases h with rfl | h
      · rw [List.mem_cons, not_or]
        exact ⟨Ne.symm hc, ih (by simp)⟩
      · exact ih (by simp [h])

theorem mem_of_mem_split {piece : List Char} {c : Char} (h : piece ∈ split separator s)
    (hc : c ∈ piece) : c ∈ s := by
  induction s generalizing piece with
  | nil =>
    rw [split, List.mem_singleton] at h
    simp [h] at hc
  | cons d cs ih =>
    obtain ⟨p, ps, hcs⟩ := List.exists_cons_of_ne_nil (split_ne_nil separator cs)
    rw [hcs] at ih
    by_cases hd : d = separator
    · subst hd
      rw [split_cons_separator, hcs, List.mem_cons] at h
      rcases h with rfl | h
      · simp at hc
      · exact .tail _ (ih h hc)
    · rw [split_cons_of_ne hd hcs, List.mem_cons] at h
      rcases h with rfl | h
      · rcases List.mem_cons.mp hc with rfl | hc
        · simp
        · exact .tail _ (ih (List.mem_cons_self ..) hc)
      · exact .tail _ (ih (.tail _ h) hc)

theorem intercalate_split (separator : Char) (s : List Char) :
    [separator].intercalate (split separator s) = s := by
  induction s with
  | nil => rfl
  | cons c cs ih =>
    obtain ⟨p, ps, h⟩ := List.exists_cons_of_ne_nil (split_ne_nil separator cs)
    rw [h] at ih
    by_cases hc : c = separator
    · subst hc
      rw [split_cons_separator, h, List.intercalate_cons_cons, ih]
      rfl
    · rw [split_cons_of_ne hc h]
      cases ps with
      | nil =>
        rw [List.intercalate_singleton] at ih ⊢
        rw [ih]
      | cons q ps =>
        rw [List.intercalate_cons_cons] at ih ⊢
        rw [← ih]
        rfl

end Text

/-- What the name of a file or of a directory can be. -/
structure IsName (name : String) : Prop where
  nonempty : name ≠ ""
  dot : name ≠ "."
  dots : name ≠ ".."
  slash : '/' ∉ name.toList
  nul : Char.ofNat 0 ∉ name.toList
  short : name.utf8ByteSize ≤ 255

theorem IsName.not_idle {name : String} (h : IsName name) : Path.isIdle name = false := by
  simp [Path.isIdle, h.nonempty, h.dot]

/-- What a segment of a path can be that counts. -/
structure IsSegment (segment : String) : Prop where
  slash : '/' ∉ segment.toList
  not_idle : Path.isIdle segment = false

theorem IsSegment.nonempty {segment : String} (h : IsSegment segment) : segment ≠ "" := by
  rintro rfl
  cases h.not_idle

theorem IsName.isSegment {name : String} (h : IsName name) : IsSegment name :=
  ⟨h.slash, h.not_idle⟩

namespace Path

variable {p : Path} {name : String} {names : List String}

theorem toList_text_eq (p : Path) : ['/'].intercalate (p.segments.map String.toList) = p.text.toList := by
  rw [segments, Text.pieces, List.map_map]
  simpa [Function.comp_def] using Text.intercalate_split '/' p.text.toList

theorem ofSegments_segments (p : Path) : ofSegments p.segments = p := by
  have h : ("/".intercalate p.segments).toList = p.text.toList := by
    rw [String.toList_intercalate]
    exact p.toList_text_eq
  rw [ofSegments, String.toList_inj.mp h]

theorem segments_eq_singleton (h : '/' ∉ name.toList) : segments ⟨name⟩ = [name] := by
  simp [segments, Text.pieces, Text.split_eq_singleton h]

theorem segments_append_slash (s s' : String) :
    segments ⟨s ++ "/" ++ s'⟩ = segments ⟨s⟩ ++ segments ⟨s'⟩ := by
  simp [segments, Text.pieces, String.toList_append, Text.split_append]

theorem ofSegments_concat (hne : names ≠ []) (name : String) :
    ofSegments (names ++ [name]) = ⟨(ofSegments names).text ++ "/" ++ name⟩ := by
  suffices h : (ofSegments (names ++ [name])).text.toList =
      ((ofSegments names).text ++ "/" ++ name).toList by
    rw [← String.toList_inj.mp h]
  simp only [ofSegments, String.toList_append, String.toList_intercalate, List.map_append]
  induction names with
  | nil => exact absurd rfl hne
  | cons first rest ih =>
    cases rest with
    | nil => simp [List.intercalate_cons_cons]
    | cons second rest =>
      simp only [List.map_cons, List.cons_append, List.intercalate_cons_cons] at ih ⊢
      rw [ih (by simp)]
      simp

theorem mem_text_ofSegments {c : Char} (h : c ∈ (ofSegments names).text.toList) (hc : c ≠ '/') :
    ∃ n ∈ names, c ∈ n.toList := by
  induction names using List.reverseRecOn with
  | nil => exact absurd h (by simp [ofSegments])
  | append_singleton names name ih =>
    rcases eq_or_ne names [] with rfl | hne
    · exact ⟨name, by simp, h⟩
    · rw [ofSegments_concat hne, String.toList_append, String.toList_append, List.mem_append,
        List.mem_append] at h
      rcases h with (h | h) | h
      · obtain ⟨n, hn, hmem⟩ := ih h
        exact ⟨n, by simp [hn], hmem⟩
      · exact absurd (by simpa using h) hc
      · exact ⟨name, by simp, h⟩

theorem exists_append_of_prefix {segments : List String} (hne : names ≠ []) (h : names <+: segments) :
    ∃ rest, (ofSegments segments).text = (ofSegments names).text ++ rest := by
  obtain ⟨rest, rfl⟩ := h
  induction rest using List.reverseRecOn with
  | nil => exact ⟨"", by simp⟩
  | append_singleton rest segment ih =>
    obtain ⟨text, htext⟩ := ih
    refine ⟨text ++ "/" ++ segment, ?_⟩
    rw [← List.append_assoc, ofSegments_concat (by simp [hne]), htext]
    simp [String.append_assoc]

theorem slash_notMem_of_mem_segments {segment : String} (h : segment ∈ p.segments) :
    '/' ∉ segment.toList := by
  obtain ⟨piece, hpiece, rfl⟩ := List.mem_map.mp h
  rw [String.toList_ofList]
  exact Text.notMem_of_mem_split hpiece

theorem segments_ofSegments (hne : names ≠ []) (h : ∀ n ∈ names, '/' ∉ n.toList) :
    (ofSegments names).segments = names := by
  induction names using List.reverseRecOn with
  | nil => exact absurd rfl hne
  | append_singleton names name ih =>
    rw [List.forall_mem_append, List.forall_mem_singleton] at h
    rcases eq_or_ne names [] with rfl | hnames
    · exact segments_eq_singleton h.2
    · rw [ofSegments_concat hnames, segments_append_slash, segments_eq_singleton h.2]
      congr 1
      exact ih hnames h.1

theorem isAbsolute_iff : p.isAbsolute = true ↔ ∃ rest, rest ≠ [] ∧ p.segments = "" :: rest := by
  rcases htext : p.text.toList with _ | ⟨c, cs⟩
  · simp [isAbsolute, segments, Text.pieces, htext, Text.split]
  · obtain ⟨piece, pieces, hsplit⟩ := List.exists_cons_of_ne_nil (Text.split_ne_nil '/' cs)
    by_cases hc : c = '/'
    · subst hc
      simp [isAbsolute, segments, Text.pieces, htext, Text.split_cons_separator, hsplit]
    · simp [isAbsolute, segments, Text.pieces, htext, Text.split_cons_of_ne hc hsplit, hc]

/-- The segments that a name is put behind. -/
def front (p : Path) : List String :=
  if p.text = "" then []
  else if p.text.toList.getLast? = some '/' then p.segments.dropLast
  else p.segments

/-- A text that ends in a slash has an empty last segment. -/
theorem exists_of_getLast (h : p.text.toList.getLast? = some '/') : ∃ s, p.text = s ++ "/" := by
  obtain ⟨cs, hcs⟩ := List.getLast?_eq_some_iff.mp h
  exact ⟨String.ofList cs, String.toList_inj.mp (by simp [hcs])⟩

theorem segments_eq (p : Path) : p.segments = p.front ∨ p.segments = p.front ++ [""] := by
  unfold front
  split
  · rename_i h
    right
    simp [segments, Text.pieces, h, Text.split]
  · split
    · rename_i h
      right
      obtain ⟨s, hs⟩ := exists_of_getLast h
      have : p.segments = segments ⟨s⟩ ++ [""] := by
        have := segments_append_slash s ""
        rw [String.append_empty, ← hs] at this
        rw [show p.segments = segments ⟨p.text⟩ from rfl, this]
        rfl
      rw [this, List.dropLast_concat]
    · exact .inl rfl

theorem join_text (p : Path) (hname : '/' ∉ name.toList) : (p.join ⟨name⟩).text =
    if p.text = "" then name
    else if p.text.toList.getLast? = some '/' then p.text ++ name
    else p.text ++ "/" ++ name := by
  have hrelative : isAbsolute ⟨name⟩ = false := by
    rw [isAbsolute, decide_eq_false_iff_not]
    intro h
    exact hname (List.mem_of_mem_head? h)
  unfold join
  rw [hrelative]
  by_cases h : p.text = ""
  · simp [h]
  · by_cases h' : p.text.toList.getLast? = some '/' <;> simp [h, h']

/-- A path ends in its last segment. -/
theorem exists_join_eq {segments : List String} (h : p.segments = segments ++ [name]) :
    ∃ q : Path, q.join ⟨name⟩ = p ∧ ∃ rest, p.text = q.text ++ rest := by
  have hslash : '/' ∉ name.toList := slash_notMem_of_mem_segments (p := p) (by simp [h])
  have hp : p = ofSegments (segments ++ [name]) := by rw [← h, ofSegments_segments]
  rcases eq_or_ne segments [] with rfl | hne
  · refine ⟨⟨""⟩, ?_, name, ?_⟩
    · show (⟨(join ⟨""⟩ ⟨name⟩).text⟩ : Path) = p
      rw [hp, join_text _ hslash, if_pos rfl]
      rfl
    · rw [hp]
      rfl
  · rw [ofSegments_concat hne] at hp
    refine ⟨⟨(ofSegments segments).text ++ "/"⟩, ?_, name, by rw [hp]⟩
    have hlast : ((ofSegments segments).text ++ "/").toList.getLast? = some '/' := by simp
    have hempty : (ofSegments segments).text ++ "/" ≠ "" := by
      intro hempty
      rw [hempty] at hlast
      cases hlast
    show (⟨(join ⟨(ofSegments segments).text ++ "/"⟩ ⟨name⟩).text⟩ : Path) = p
    rw [hp, join_text _ hslash, if_neg hempty, if_pos hlast]

theorem segments_join (p : Path) (hname : '/' ∉ name.toList) :
    (p.join ⟨name⟩).segments = p.front ++ [name] := by
  have htext := p.join_text hname
  rw [show (p.join ⟨name⟩).segments = segments ⟨(p.join ⟨name⟩).text⟩ from rfl, htext, front]
  split
  · exact segments_eq_singleton hname
  · split
    · rename_i h
      obtain ⟨s, hs⟩ := exists_of_getLast h
      have hdropLast : p.segments.dropLast = segments ⟨s⟩ := by
        have := segments_append_slash s ""
        rw [String.append_empty, ← hs] at this
        rw [show p.segments = segments ⟨p.text⟩ from rfl, this]
        exact List.dropLast_concat
      rw [hs, segments_append_slash, hdropLast, segments_eq_singleton hname]
    · rw [segments_append_slash, segments_eq_singleton hname]

theorem isAbsolute_join (p : Path) (hname : '/' ∉ name.toList) :
    (p.join ⟨name⟩).isAbsolute = p.isAbsolute := by
  rw [isAbsolute, isAbsolute, p.join_text hname]
  split
  · rename_i h
    have : name.toList.head? ≠ some '/' := fun h => hname (List.mem_of_mem_head? h)
    simp [h, this]
  · rename_i h
    obtain ⟨c, cs, hcs⟩ := List.exists_cons_of_ne_nil (mt String.toList_eq_nil_iff.mp h)
    split <;> simp [String.toList_append, hcs]

theorem add_size_le_size_join (p : Path) (hname : '/' ∉ name.toList) :
    p.text.utf8ByteSize + name.utf8ByteSize ≤ (p.join ⟨name⟩).text.utf8ByteSize := by
  rw [p.join_text hname]
  split
  · rename_i h
    simp [h]
  · split <;> simp only [String.utf8ByteSize_append] <;> omega

theorem size_join (p : Path) (hname : IsName name) :
    p.text.utf8ByteSize < (p.join ⟨name⟩).text.utf8ByteSize := by
  have hpos : name.utf8ByteSize ≠ 0 := mt String.utf8ByteSize_eq_zero_iff.mp hname.nonempty
  have := p.add_size_le_size_join hname.slash
  omega

theorem join_text_ne (p : Path) (hname : IsName name) : (p.join ⟨name⟩).text ≠ "" := by
  intro h
  have := p.size_join hname
  simp [h] at this

theorem mem_join_text {c : Char} (hname : '/' ∉ name.toList) (h : c ∈ (p.join ⟨name⟩).text.toList)
    (hc : c ≠ '/') : c ∈ p.text.toList ∨ c ∈ name.toList := by
  rw [p.join_text hname] at h
  split at h
  · exact .inr h
  · split at h <;> simp only [String.toList_append, List.mem_append] at h
    · exact h
    · rcases h with (h | h) | h
      · exact .inl h
      · exact absurd (by simpa using h) hc
      · exact .inr h

theorem getLast_join (p : Path) (hname : IsName name) :
    (p.join ⟨name⟩).text.toList.getLast? ≠ some '/' := by
  have hne : name.toList ≠ [] := mt String.toList_eq_nil_iff.mp hname.nonempty
  have hlast : name.toList.getLast? ≠ some '/' := fun h => hname.slash (List.mem_of_getLast? h)
  rw [p.join_text hname.slash]
  split
  · exact hlast
  · split <;> rwa [String.toList_append, List.getLast?_append_of_ne_nil _ hne]

theorem front_join (p : Path) (hname : IsName name) : (p.join ⟨name⟩).front = p.front ++ [name] := by
  rw [front, if_neg (p.join_text_ne hname), if_neg (p.getLast_join hname), p.segments_join hname.slash]

theorem trimIdle_concat (hname : IsSegment name) (segments : List String) :
    trimIdle (segments ++ [name]) = segments ++ [name] := by
  cases segments with
  | nil => rfl
  | cons first rest => simp [trimIdle, hname.not_idle]

theorem trimmed_join (p : Path) (hname : IsSegment name) : (p.join ⟨name⟩).trimmed = p.front ++ [name] := by
  rw [trimmed, p.segments_join hname.slash, trimIdle_concat hname]
  split
  · rename_i h
    cases List.append_eq_singleton_iff.mp h <;> simp_all [hname.nonempty]
  · rfl

theorem fileName?_join (p : Path) (hname : IsName name) : (p.join ⟨name⟩).fileName? = some name := by
  rw [fileName?, p.trimmed_join hname.isSegment, List.getLast?_concat]
  split
  · rename_i h
    exact absurd (Option.some.inj h) hname.dot
  · rename_i h
    exact absurd (Option.some.inj h) hname.dots
  · rename_i h
    cases h
  · rename_i h
    exact h.symm

theorem ofTrimmed_of_ne {segments : List String} (h : segments ≠ [""]) :
    ofTrimmed segments = ofSegments segments := by
  rw [ofTrimmed]
  exact h

theorem parent?_join (p : Path) (hname : IsSegment name) :
    (p.join ⟨name⟩).parent? = some (ofTrimmed (trimIdle p.front)) := by
  rw [parent?, p.trimmed_join hname]
  split
  · rename_i h
    simp at h
  · rw [List.dropLast_concat]

/-- The path above a name below a name. -/
theorem parent?_join_join (p : Path) {above : String} (habove : IsName above) (hname : IsSegment name) :
    ((p.join ⟨above⟩).join ⟨name⟩).parent? = some (p.join ⟨above⟩) := by
  have hne : p.front ++ [above] ≠ [""] := by
    intro h
    cases List.append_eq_singleton_iff.mp h <;> simp_all [habove.nonempty]
  rw [parent?_join _ hname, front_join p habove, trimIdle_concat habove.isSegment, ofTrimmed_of_ne hne,
    ← p.segments_join habove.slash, ofSegments_segments]

/-- A path itself, and the paths above it. -/
inductive OnWayTo : Path → Path → Prop
  | refl (p : Path) : OnWayTo p p
  | parent {q p parent : Path} (hparent : p.parent? = some parent) (h : OnWayTo q parent) : OnWayTo q p

/-- The path to what names lead to from a path. -/
def down (p : Path) (names : List String) : Path :=
  names.foldl (fun p name => p.join ⟨name⟩) p

@[simp] theorem down_nil (p : Path) : p.down [] = p := rfl

theorem down_concat (p : Path) (names : List String) (name : String) :
    p.down (names ++ [name]) = (p.down names).join ⟨name⟩ := by
  simp [down]

theorem join_join {s : String} (p : Path) (hs : s ≠ "") (hhead : isAbsolute ⟨s⟩ = false)
    (hlast : s.toList.getLast? ≠ some '/') (hname : '/' ∉ name.toList) :
    p.join ⟨s ++ "/" ++ name⟩ = (p.join ⟨s⟩).join ⟨name⟩ := by
  have hne : s.toList ≠ [] := mt String.toList_eq_nil_iff.mp hs
  have hhead' : isAbsolute ⟨s ++ "/" ++ name⟩ = false := by
    obtain ⟨c, cs, hcs⟩ := List.exists_cons_of_ne_nil hne
    simpa [isAbsolute, String.toList_append, hcs] using hhead
  have hrelative : isAbsolute ⟨name⟩ = false := by
    simpa [isAbsolute] using fun h => hname (List.mem_of_mem_head? h)
  have hlast' (prior : String) : (prior ++ s).toList.getLast? ≠ some '/' := by
    rwa [String.toList_append, List.getLast?_append_of_ne_nil _ hne]
  unfold join
  by_cases hp : p.text = ""
  · simp [hp, hhead, hhead', hrelative, hs, hlast]
  · by_cases hp' : p.text.toList.getLast? = some '/'
    · simp only [hp, hp', hhead, hhead', hrelative, Bool.false_or, decide_false, if_true, if_false,
        Bool.false_eq_true, String.append_eq_empty_iff, hs, and_false, hlast']
      simp [String.append_assoc]
    · simp only [hp, hp', hhead, hhead', hrelative, Bool.false_or, decide_false, if_false,
        Bool.false_eq_true, String.append_eq_empty_iff, hs, and_false, hlast']
      simp [String.append_assoc]

theorem front_down (p : Path) (hnames : ∀ n ∈ names, IsName n) :
    (p.down names).front = p.front ++ names := by
  induction names using List.reverseRecOn with
  | nil => simp
  | append_singleton names name ih =>
    rw [List.forall_mem_append, List.forall_mem_singleton] at hnames
    rw [down_concat, front_join _ hnames.2, ih hnames.1, List.append_assoc]

theorem segments_down (p : Path) (hne : names ≠ []) (hnames : ∀ n ∈ names, IsName n) :
    (p.down names).segments = p.front ++ names := by
  obtain ⟨names, name, rfl⟩ := (List.eq_nil_or_concat' names).resolve_left hne
  rw [List.forall_mem_append, List.forall_mem_singleton] at hnames
  rw [down_concat, segments_join _ hnames.2.slash, front_down p hnames.1, List.append_assoc]

theorem isAbsolute_down (p : Path) (hnames : ∀ n ∈ names, IsName n) :
    (p.down names).isAbsolute = p.isAbsolute := by
  induction names using List.reverseRecOn with
  | nil => rfl
  | append_singleton names name ih =>
    rw [List.forall_mem_append, List.forall_mem_singleton] at hnames
    rw [down_concat, isAbsolute_join _ hnames.2.slash, ih hnames.1]

theorem ofSegments_eq_down (hne : names ≠ []) (hnames : ∀ n ∈ names, IsName n) :
    ofSegments names = down ⟨""⟩ names := by
  have h := segments_down ⟨""⟩ hne hnames
  rw [← ofSegments_segments (down ⟨""⟩ names), h]
  rfl

theorem join_ofSegments (p : Path) (hne : names ≠ []) (hnames : ∀ n ∈ names, IsName n) :
    p.join (ofSegments names) = p.down names := by
  rw [ofSegments_eq_down hne hnames]
  induction names using List.reverseRecOn with
  | nil => exact absurd rfl hne
  | append_singleton names name ih =>
    rw [List.forall_mem_append, List.forall_mem_singleton] at hnames
    rcases List.eq_nil_or_concat' names with rfl | ⟨above, last, rfl⟩
    · have hempty : join ⟨""⟩ ⟨name⟩ = ⟨name⟩ := by simp [join]
      rw [down_concat, down_concat, down_nil, down_nil, hempty]
    · have hlast : IsName last := hnames.1 last (by simp)
      rw [down_concat p, ← ih (by simp) hnames.1, down_concat]
      have hs := join_text_ne (down ⟨""⟩ above) hlast
      have hslash := getLast_join (down ⟨""⟩ above) hlast
      rw [← down_concat] at hs hslash
      have htext := join_text (down ⟨""⟩ (above ++ [last])) hnames.2.slash
      rw [if_neg hs, if_neg hslash] at htext
      rw [← join_join p hs (isAbsolute_down _ hnames.1) hslash hnames.2.slash, ← htext]

theorem size_down_le (p : Path) (hnames : ∀ n ∈ names, IsName n) {above : List String}
    (h : above <+: names) : (p.down above).text.utf8ByteSize ≤ (p.down names).text.utf8ByteSize := by
  obtain ⟨rest, rfl⟩ := h
  induction rest using List.reverseRecOn with
  | nil => simp
  | append_singleton rest name ih =>
    rw [← List.append_assoc] at hnames ⊢
    rw [List.forall_mem_append, List.forall_mem_singleton] at hnames
    rw [down_concat]
    exact Nat.le_trans (ih hnames.1) (Nat.le_of_lt (size_join _ hnames.2))

end Path

end Downlevel
