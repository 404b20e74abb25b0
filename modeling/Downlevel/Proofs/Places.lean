import Mathlib.Data.List.Basic
import Mathlib.Data.List.Induction
import Downlevel.File.Tree
import Downlevel.Proofs.Paths

/-!
# Places of a file tree

In a well-formed file tree whatever stands at a place stands in a directory, under a name. Operations
keep it so, and they only add to it: `FileTree.Grows` says where directories may come to stand, and
where files may be written. A path leads to a place by its text alone (`FileTree.placeOf`) if it leads
anywhere.
-/

namespace Downlevel

namespace FileTree

variable {t t' t'' : FileTree} {place : List String} {name : String} {names : List String}
  {p : Path} {e : Entry} {bytes : ByteArray}

/-- What a regular file holds. -/
def file? (t : FileTree) (place : List String) : Option ByteArray :=
  match t.entry? place with
  | some (.file bytes) => some bytes
  | _ => none

theorem file?_eq_some : t.file? place = some bytes ↔ t.entry? place = some (.file bytes) := by
  rw [file?]
  split <;> simp_all

theorem file?_of_directory (h : t.entry? place = some .directory) : t.file? place = none := by
  rw [file?, h]

theorem file?_of_none (h : t.entry? place = none) : t.file? place = none := by
  rw [file?, h]

theorem entry?_ne_none (h : (t.file? place).isSome = true) : t.entry? place ≠ none := by
  intro hnone
  rw [file?_of_none hnone] at h
  cases h

structure WellFormed (t : FileTree) : Prop where
  here : t.entry? t.here = some .directory
  keys : (t.entries.map Prod.fst).Nodup
  /-- What there is lies in a directory, under a name. -/
  parent : ∀ place name e, t.entry? (place ++ [name]) = some e →
    t.entry? place = some .directory ∧ IsName name

@[simp] theorem entry?_nil (t : FileTree) : t.entry? [] = some .directory := rfl

theorem entry?_of_ne_nil (h : place ≠ []) : t.entry? place = t.entries.lookup place := by
  cases place with
  | nil => exact absurd rfl h
  | cons => rfl

theorem lookup_filter {α β : Type} [BEq α] [LawfulBEq α] [DecidableEq α] {entries : List (α × β)}
    {a b : α} (h : b ≠ a) : (entries.filter (·.1 ≠ a)).lookup b = entries.lookup b := by
  induction entries with
  | nil => rfl
  | cons entry entries ih =>
    obtain ⟨c, e⟩ := entry
    by_cases hc : c = a
    · subst hc
      simp only [ne_eq, not_true_eq_false, decide_false, Bool.false_eq_true, not_false_eq_true,
        List.filter_cons_of_neg, List.lookup_cons, beq_false_of_ne h]
      simpa using ih
    · rw [List.filter_cons_of_pos (by simpa using hc), List.lookup_cons, List.lookup_cons, ih]

theorem entry?_insert (t : FileTree) (e : Entry) (h : place ≠ []) (place' : List String) :
    FileTree.entry? (t.insert place e) place'
      = if place' = place then some e else t.entry? place' := by
  by_cases hplace' : place' = []
  · subst hplace'
    rw [if_neg (Ne.symm h)]
    rfl
  · rw [entry?_of_ne_nil hplace', entry?_of_ne_nil hplace', insert, List.lookup_cons]
    split
    · rename_i heq
      rw [if_pos (eq_of_beq heq)]
    · rename_i hne
      have hne : place' ≠ place := by simpa using hne
      rw [if_neg hne, lookup_filter hne]

theorem lookup_isSome {α β : Type} [BEq α] [LawfulBEq α] {entries : List (α × β)} {a : α} :
    (entries.lookup a).isSome = true ↔ a ∈ entries.map Prod.fst := by
  induction entries with
  | nil => simp
  | cons entry entries ih =>
    rw [List.lookup_cons, List.map_cons, List.mem_cons]
    split
    · rename_i heq
      simp [eq_of_beq heq]
    · rename_i hne
      have hne : a ≠ entry.1 := by simpa using hne
      simp [hne, ih]

theorem mem_keys (h : place ≠ []) :
    place ∈ t.entries.map Prod.fst ↔ (t.entry? place).isSome = true := by
  rw [entry?_of_ne_nil h, lookup_isSome]

namespace WellFormed

/-- Whatever stands at a place, only directories are above it. -/
theorem directory_of_prefix (ht : t.WellFormed) (h : t.entry? (place ++ names) ≠ none)
    {above : List String} (habove : above <+: names) (hne : above ≠ names) :
    t.entry? (place ++ above) = some .directory := by
  obtain ⟨rest, rfl⟩ := habove
  have hrest : rest ≠ [] := by
    rintro rfl
    simp at hne
  clear hne
  induction rest using List.reverseRecOn with
  | nil => exact absurd rfl hrest
  | append_singleton rest name ih =>
    obtain ⟨e, he⟩ := Option.ne_none_iff_exists'.mp h
    rw [← List.append_assoc, ← List.append_assoc] at he
    obtain ⟨hdirectory, -⟩ := ht.parent _ _ _ he
    rcases eq_or_ne rest [] with rfl | hrest
    · simpa using hdirectory
    · exact ih (by simp [← List.append_assoc, hdirectory]) hrest

theorem isName (ht : t.WellFormed) (h : t.entry? (place ++ names) ≠ none) : ∀ n ∈ names, IsName n := by
  intro n hn
  obtain ⟨front, back, rfl⟩ := List.append_of_mem hn
  have hentry : t.entry? (place ++ (front ++ [n])) ≠ none := by
    rcases eq_or_ne back [] with rfl | hback
    · exact h
    · have habove : front ++ [n] <+: front ++ n :: back := ⟨back, by simp⟩
      rw [ht.directory_of_prefix h habove (by simp [hback])]
      simp
  obtain ⟨e, he⟩ := Option.ne_none_iff_exists'.mp hentry
  exact (ht.parent (place ++ front) n e (by simpa using he)).2

theorem insert (ht : t.WellFormed) (hplace : t.entry? place = some .directory) (hname : IsName name)
    (h : t.entry? (place ++ [name]) ≠ some .directory) : (t.insert (place ++ [name]) e).WellFormed := by
  have hentry := entry?_insert t e (List.concat_ne_nil name place)
  refine ⟨?_, ?_, ?_⟩
  · have hhere : t.here ≠ place ++ [name] := fun hhere => h (hhere ▸ ht.here)
    exact (hentry _).trans ((if_neg hhere).trans ht.here)
  · rw [FileTree.insert, List.map_cons, List.nodup_cons]
    refine ⟨by simp, ?_⟩
    exact List.Nodup.sublist (List.filter_sublist.map _) ht.keys
  · intro place' name' e' he'
    rw [hentry] at he'
    rw [hentry]
    split at he'
    · rename_i heq
      obtain ⟨rfl, hlast⟩ := List.append_inj' heq rfl
      cases hlast
      rw [if_neg (by simp)]
      exact ⟨hplace, hname⟩
    · obtain ⟨hdirectory, hname'⟩ := ht.parent _ _ _ he'
      rw [if_neg fun heq : place' = place ++ [name] => h (heq ▸ hdirectory)]
      exact ⟨hdirectory, hname'⟩

end WellFormed

/-! ## Growth -/

/-- From one tree to another, directories come to stand only where nothing stood at a place of `D`, and
files are written only at places of `F`. -/
structure Grows (D F : List String → Prop) (t t' : FileTree) : Prop where
  here : t'.here = t.here
  faults : t'.faults = t.faults
  wellFormed : t'.WellFormed
  entry : ∀ place, t'.entry? place = t.entry? place ∨
    (D place ∧ t.entry? place = none ∧ t'.entry? place = some .directory) ∨
    (F place ∧ t.entry? place ≠ some .directory ∧ ∃ bytes, t'.entry? place = some (.file bytes))

namespace Grows

variable {D D' F F' : List String → Prop}

theorem refl (ht : t.WellFormed) : Grows D F t t :=
  ⟨rfl, rfl, ht, fun _ => .inl rfl⟩

theorem mono (h : Grows D F t t') (hD : ∀ place, D place → D' place) (hF : ∀ place, F place → F' place) :
    Grows D' F' t t' where
  here := h.here
  faults := h.faults
  wellFormed := h.wellFormed
  entry place := (h.entry place).imp_right (Or.imp (And.imp_left (hD place)) (And.imp_left (hF place)))

theorem trans (h : Grows D F t t') (h' : Grows D F t' t'') : Grows D F t t'' where
  here := h'.here.trans h.here
  faults := h'.faults.trans h.faults
  wellFormed := h'.wellFormed
  entry place := by
    rcases h'.entry place with he' | ⟨hD, hnone, hdirectory⟩ | ⟨hF, hne, hfile⟩
    · rw [he']
      exact h.entry place
    · rcases h.entry place with he | ⟨-, -, he⟩ | ⟨-, -, bytes, he⟩
      · exact .inr (.inl ⟨hD, he ▸ hnone, hdirectory⟩)
      · cases hnone.symm.trans he
      · cases hnone.symm.trans he
    · rcases h.entry place with he | ⟨-, -, he⟩ | ⟨hF, hne, -, -⟩
      · exact .inr (.inr ⟨hF, he ▸ hne, hfile⟩)
      · exact absurd he hne
      · exact .inr (.inr ⟨hF, hne, hfile⟩)

/-- Directories stay. -/
theorem directory (h : Grows D F t t') (hplace : t.entry? place = some .directory) :
    t'.entry? place = some .directory := by
  rcases h.entry place with he | ⟨-, hnone, -⟩ | ⟨-, hne, -⟩
  · rw [he, hplace]
  · cases hnone.symm.trans hplace
  · exact absurd hplace hne

/-- What stands at a place stays there, and stays a file or a directory. -/
theorem kind (h : Grows D F t t') (hplace : t.entry? place ≠ none) :
    t'.entry? place ≠ none ∧ (t'.entry? place = some .directory ↔ t.entry? place = some .directory) := by
  rcases h.entry place with he | ⟨-, hnone, -⟩ | ⟨-, hne, bytes, he⟩
  · rw [he]
    exact ⟨hplace, .rfl⟩
  · exact absurd hnone hplace
  · exact ⟨by simp [he], iff_of_false (by simp [he]) hne⟩

/-- Nothing changes at other places. -/
theorem entry_eq (h : Grows D F t t') (hD : ¬ D place) (hF : ¬ F place) :
    t'.entry? place = t.entry? place := by
  rcases h.entry place with he | ⟨hplace, -⟩ | ⟨hplace, -⟩
  · exact he
  · exact absurd hplace hD
  · exact absurd hplace hF

/-- Files stay as they are where none is written. -/
theorem file? (h : Grows D F t t') (hF : ¬ F place) : t'.file? place = t.file? place := by
  rcases h.entry place with he | ⟨-, hnone, hdirectory⟩ | ⟨hplace, -⟩
  · rw [FileTree.file?, FileTree.file?, he]
  · rw [file?_of_directory hdirectory, file?_of_none hnone]
  · exact absurd hplace hF

theorem insert_directory (ht : t.WellFormed) (hplace : t.entry? place = some .directory)
    (hname : IsName name) (hnone : t.entry? (place ++ [name]) = none) (hD : D (place ++ [name])) :
    Grows D F t (t.insert (place ++ [name]) .directory) where
  here := rfl
  faults := rfl
  wellFormed := ht.insert hplace hname (by simp [hnone])
  entry place' := by
    rw [entry?_insert _ _ (by simp)]
    split
    · rename_i heq
      exact .inr (.inl ⟨heq ▸ hD, heq ▸ hnone, rfl⟩)
    · exact .inl rfl

theorem insert_file (ht : t.WellFormed) (hplace : t.entry? place = some .directory)
    (hname : IsName name) (hne : t.entry? (place ++ [name]) ≠ some .directory)
    (hF : F (place ++ [name])) : Grows D F t (t.insert (place ++ [name]) (.file bytes)) where
  here := rfl
  faults := rfl
  wellFormed := ht.insert hplace hname hne
  entry place' := by
    rw [entry?_insert _ _ (by simp)]
    split
    · rename_i heq
      exact .inr (.inr ⟨heq ▸ hF, heq ▸ hne, bytes, rfl⟩)
    · exact .inl rfl

end Grows

/-! ## Ways -/

theorem enter_eq_ok : t.enter place = .ok () ↔ t.entry? place = some .directory := by
  rw [enter]
  split <;> simp_all

theorem enter_of_directory (h : t.entry? place = some .directory) : t.enter place = .ok () :=
  enter_eq_ok.mpr h

/-- Where one segment leads to by itself. -/
def lexical (place : List String) (segment : String) : List String :=
  if Path.isIdle segment then place
  else if segment = ".." then place.dropLast
  else place ++ [segment]

/-- Where a path leads to by its text. -/
def placeOf (t : FileTree) (p : Path) : List String :=
  p.segments.foldl lexical (t.origin p)

/-- Where a path leads to in the tree, however long it is. -/
def reach (t : FileTree) (p : Path) : Except OsError (List String) :=
  t.follow (t.origin p) p.segments

theorem resolve_eq (t : FileTree) (p : Path) : t.resolve p = (checkPath p).bind fun _ => t.reach p := rfl

theorem step_eq_ok {segment : String} {place' : List String} (h : t.step place segment = .ok place') :
    t.entry? place = some .directory ∧ place' = lexical place segment := by
  rw [step] at h
  rcases henter : t.enter place with e | _
  · rw [henter] at h
    cases h
  · refine ⟨enter_eq_ok.mp henter, ?_⟩
    rw [henter] at h
    rw [lexical]
    by_cases hidle : Path.isIdle segment = true
    · rw [if_pos hidle]
      simp only [hidle, if_true] at h
      cases h
      rfl
    · rw [if_neg hidle]
      by_cases hdots : segment = ".."
      · rw [if_pos hdots]
        simp only [hdots] at h
        cases h
        rfl
      · rw [if_neg hdots]
        by_cases hlong : 255 < segment.utf8ByteSize
        · simp only [hidle, hdots, hlong] at h
          cases h
        · simp only [hidle, hdots, hlong] at h
          cases h
          rfl

theorem size_of_step {segment : String} {place' : List String} (h : t.step place segment = .ok place')
    (hidle : Path.isIdle segment = false) (hdots : segment ≠ "..") : segment.utf8ByteSize ≤ 255 := by
  have hdirectory := (step_eq_ok h).1
  by_contra hlong
  rw [step, enter_of_directory hdirectory] at h
  simp only [hidle, hdots, Nat.not_le.mp hlong] at h
  cases h

theorem step_name (hname : IsName name) :
    t.step place name = (t.enter place).map fun _ => place ++ [name] := by
  rw [step]
  have hshort : ¬ 255 < name.utf8ByteSize := Nat.not_lt.mpr hname.short
  rcases t.enter place with e | _
  · rfl
  · simp only [hname.not_idle, hname.dots, hshort]
    rfl

theorem step_empty : t.step place "" = (t.enter place).map fun _ => place := by
  rw [step]
  rcases t.enter place with e | _ <;> rfl

@[simp] theorem follow_nil : t.follow place [] = .ok place := rfl

theorem follow_concat (segments : List String) (segment : String) :
    t.follow place (segments ++ [segment]) =
      (t.follow place segments).bind fun place => t.step place segment := by
  rw [follow, List.foldlM_append]
  rcases h : segments.foldlM t.step place with e | place'
  · rw [follow, h]
    rfl
  · rw [follow, h]
    show t.step place' segment >>= pure = t.step place' segment
    exact bind_pure _

theorem follow_append (segments more : List String) :
    t.follow place (segments ++ more) =
      (t.follow place segments).bind fun place => t.follow place more :=
  List.foldlM_append

/-- Segments that add nothing lead from a directory to itself. -/
theorem follow_idle {idle : List String} (h : t.entry? place = some .directory)
    (hidle : ∀ s ∈ idle, Path.isIdle s = true) : t.follow place idle = .ok place := by
  induction idle using List.reverseRecOn with
  | nil => rfl
  | append_singleton idle segment ih =>
    rw [List.forall_mem_append, List.forall_mem_singleton] at hidle
    rw [follow_concat, ih hidle.1]
    show t.step place segment = .ok place
    rw [step, enter_of_directory h]
    simp only [hidle.2]
    rfl

theorem follow_eq_ok {segments : List String} {place' : List String}
    (h : t.follow place segments = .ok place') : place' = segments.foldl lexical place := by
  induction segments using List.reverseRecOn generalizing place' with
  | nil => cases h; rfl
  | append_singleton segments segment ih =>
    rw [follow_concat] at h
    rcases hfollow : t.follow place segments with e | between
    · rw [hfollow] at h
      cases h
    · rw [hfollow] at h
      rw [List.foldl_concat, ← ih hfollow]
      exact (step_eq_ok h).2

theorem reach_eq_placeOf (h : t.reach p = .ok place) : place = t.placeOf p :=
  follow_eq_ok h

/-- Where a path leads to once a name is put behind it. -/
theorem reach_join (hname : IsName name) :
    t.reach (p.join ⟨name⟩) = (t.reach p).bind fun place => t.step place name := by
  have horigin : t.origin (p.join ⟨name⟩) = t.origin p := by
    rw [origin, origin, p.isAbsolute_join hname.slash]
  rw [reach, reach, horigin, p.segments_join hname.slash, follow_concat]
  rcases p.segments_eq with hsegments | hsegments
  · rw [hsegments]
  · rw [hsegments, follow_concat]
    rcases t.follow (t.origin p) p.front with e | place
    · rfl
    · -- an empty segment asks for a directory, and so does the name
      show t.step place name = (t.step place "").bind fun place => t.step place name
      rw [step_empty]
      rcases henter : t.enter place with e | _
      · rw [step_name hname, henter]
        rfl
      · rfl

theorem reach_down (hnames : ∀ n ∈ names, IsName n) :
    t.reach (p.down names) = (t.reach p).bind fun place => t.follow place names := by
  induction names using List.reverseRecOn with
  | nil =>
    rw [Path.down_nil]
    rcases t.reach p with e | place <;> rfl
  | append_singleton names name ih =>
    rw [List.forall_mem_append, List.forall_mem_singleton] at hnames
    rw [Path.down_concat, reach_join hnames.2, ih hnames.1]
    rcases t.reach p with e | place
    · rfl
    · exact (follow_concat names name).symm

theorem Grows.follow {D F : List String → Prop} (h : Grows D F t t') {segments place' : List String}
    (hfollow : t.follow place segments = .ok place') : t'.follow place segments = .ok place' := by
  induction segments using List.reverseRecOn generalizing place' with
  | nil => exact hfollow
  | append_singleton segments segment ih =>
    rw [follow_concat] at hfollow ⊢
    rcases hbefore : t.follow place segments with e | between
    · rw [hbefore] at hfollow
      cases hfollow
    · rw [hbefore] at hfollow
      rw [ih hbefore]
      have hdirectory := (step_eq_ok hfollow).1
      show t'.step between segment = .ok place'
      rw [← hfollow]
      show t'.step between segment = t.step between segment
      rw [step, step, enter_of_directory hdirectory, enter_of_directory (h.directory hdirectory)]

theorem Grows.origin {D F : List String → Prop} (h : Grows D F t t') (p : Path) :
    t'.origin p = t.origin p := by
  rw [FileTree.origin, FileTree.origin, h.here]

theorem Grows.placeOf {D F : List String → Prop} (h : Grows D F t t') (p : Path) :
    t'.placeOf p = t.placeOf p := by
  rw [FileTree.placeOf, FileTree.placeOf, h.origin]

/-- A path that leads to a directory. The empty one leads to where relative paths start. -/
structure Opens (t : FileTree) (p : Path) (place : List String) : Prop where
  reach : t.reach p = .ok place
  directory : t.entry? place = some .directory
  sound : p.text = "" ∨ checkPath p = .ok ()

theorem Opens.grows {D F : List String → Prop} (h : t.Opens p place) (hgrows : Grows D F t t') :
    t'.Opens p place where
  reach := by
    rw [FileTree.reach, hgrows.origin]
    exact hgrows.follow h.reach
  directory := hgrows.directory h.directory
  sound := h.sound

theorem checkPath_eq_ok : checkPath p = .ok () ↔
    Char.ofNat 0 ∉ p.text.toList ∧ p.text ≠ "" ∧ p.text.utf8ByteSize < 4096 := by
  rw [checkPath]
  split_ifs <;> simp_all

theorem Opens.nul (h : t.Opens p place) : Char.ofNat 0 ∉ p.text.toList := by
  rcases h.sound with hempty | hcheck
  · simp [hempty]
  · exact (checkPath_eq_ok.mp hcheck).1

theorem checkPath_down (hnul : Char.ofNat 0 ∉ p.text.toList) (hnames : ∀ n ∈ names, IsName n)
    (hne : names ≠ []) : checkPath (p.down names) =
      if 4096 ≤ (p.down names).text.utf8ByteSize then .error .nameTooLong else .ok () := by
  have hnul : Char.ofNat 0 ∉ (p.down names).text.toList := by
    clear hne
    induction names using List.reverseRecOn with
    | nil => exact hnul
    | append_singleton names name ih =>
      rw [List.forall_mem_append, List.forall_mem_singleton] at hnames
      rw [Path.down_concat]
      intro hmem
      rcases Path.mem_join_text hnames.2.slash hmem (by decide) with hmem | hmem
      · exact ih hnames.1 hmem
      · exact hnames.2.nul hmem
  have htext : (p.down names).text ≠ "" := by
    obtain ⟨names, name, rfl⟩ := (List.eq_nil_or_concat' names).resolve_left hne
    rw [Path.down_concat]
    exact Path.join_text_ne _ (hnames name (by simp))
  rw [checkPath, if_neg (by simpa using hnul), if_neg htext]

theorem any_isDirectory :
    (t.entry? place).any Entry.isDirectory = true ↔ t.entry? place = some .directory := by
  rcases t.entry? place with _ | _ | bytes <;> simp [Entry.isDirectory]

theorem isDirectory_eq_true : t.isDirectory p = true ↔
    ∃ place, t.resolve p = .ok place ∧ t.entry? place = some .directory := by
  rw [isDirectory]
  rcases t.resolve p with e | place
  · simp
  · simp [any_isDirectory]

theorem resolve_eq_ok : t.resolve p = .ok place ↔ checkPath p = .ok () ∧ t.reach p = .ok place := by
  rw [resolve_eq]
  rcases checkPath p with e | _
  · exact ⟨nofun, nofun⟩
  · exact ⟨fun h => ⟨rfl, h⟩, fun h => h.2⟩

theorem opens_of_isDirectory (h : t.isDirectory p = true) : t.Opens p (t.placeOf p) := by
  obtain ⟨place, hresolve, hdirectory⟩ := isDirectory_eq_true.mp h
  obtain ⟨hcheck, hreach⟩ := resolve_eq_ok.mp hresolve
  rw [← reach_eq_placeOf hreach]
  exact ⟨hreach, hdirectory, .inr hcheck⟩

theorem opens_of_empty (ht : t.WellFormed) (h : p.text = "") : t.Opens p (t.placeOf p) := by
  obtain ⟨text⟩ := p
  cases h
  have hreach : t.reach ⟨""⟩ = .ok t.here := follow_idle ht.here (by decide)
  rw [← reach_eq_placeOf hreach]
  exact ⟨hreach, ht.here, .inl rfl⟩

theorem Opens.isDirectory (h : t.Opens p place) (htext : p.text ≠ "") : t.isDirectory p = true :=
  isDirectory_eq_true.mpr
    ⟨place, resolve_eq_ok.mpr ⟨h.sound.resolve_left htext, h.reach⟩, h.directory⟩

/-! ## Making directories -/

/-- Segments without the empty ones at the end. -/
theorem exists_replicate (segments : List String) :
    ∃ k, segments = (segments.reverse.dropWhile (· = "")).reverse ++ List.replicate k "" := by
  induction segments using List.reverseRecOn with
  | nil => exact ⟨0, rfl⟩
  | append_singleton segments segment ih =>
    rw [List.reverse_concat]
    by_cases h : segment = ""
    · subst h
      obtain ⟨k, hk⟩ := ih
      refine ⟨k + 1, ?_⟩
      rw [List.dropWhile_cons_of_pos (by simp), List.replicate_succ', ← List.append_assoc, ← hk]
    · refine ⟨0, ?_⟩
      rw [List.dropWhile_cons_of_neg (by simpa using h)]
      simp

/-- A place for something new, in a directory. -/
theorem placeNew_eq_some {place' : List String} (h : t.placeNew p = .ok (some place')) :
    checkPath p = .ok () ∧ ∃ place name front, place' = place ++ [name] ∧ IsName name ∧
      t.entry? place = some .directory ∧ t.follow (t.origin p) front = .ok place ∧
      ∃ k, p.segments = front ++ [name] ++ List.replicate k "" := by
  obtain ⟨k, hk⟩ := exists_replicate p.segments
  rw [placeNew] at h
  rcases hcheck : checkPath p with e | _
  · rw [hcheck] at h
    cases h
  rw [hcheck] at h
  simp only [Bind.bind, Except.bind] at h
  rcases List.eq_nil_or_concat' (p.segments.reverse.dropWhile (· = "")).reverse with
    hempty | ⟨front, name, hfront⟩
  · rw [hempty] at h
    rcases henter : t.enter (t.origin p) with e | _
    · simp [henter] at h
    · simp [henter] at h
      cases h
  · rw [hfront] at h hk
    rw [List.dropLast_concat, List.getLast?_concat] at h
    rcases hfollow : t.follow (t.origin p) front with e | place
    · rw [hfollow] at h
      cases h
    rw [hfollow] at h
    dsimp only at h
    rcases henter : t.enter place with e | _
    · rw [henter] at h
      cases h
    rw [henter] at h
    dsimp only at h
    split at h
    · cases h
    · cases h
    · cases h
    · rename_i name' hdot hdots hname'
      cases hname'
      rcases hstep : t.step place name with e | place''
      · rw [hstep] at h
        cases h
      rw [hstep] at h
      cases h
      have hmem : name ∈ p.segments := by simp [hk]
      have hnonempty : name ≠ "" := by
        have hhead := List.head?_dropWhile_not (· = "") p.segments.reverse
        rw [List.reverse_eq_iff.mp hfront, List.reverse_concat] at hhead
        simpa using hhead
      have hname : IsName name := by
        obtain ⟨piece, hpiece, rfl⟩ := List.mem_map.mp hmem
        refine ⟨hnonempty, hdot, hdots, ?_, ?_, ?_⟩
        · rw [String.toList_ofList]
          exact Text.notMem_of_mem_split hpiece
        · rw [String.toList_ofList]
          exact fun hnul => (checkPath_eq_ok.mp hcheck).1 (Text.mem_of_mem_split hpiece hnul)
        · exact size_of_step hstep (by simpa [Path.isIdle, hnonempty] using hdot) hdots
      refine ⟨rfl, place, name, front, ?_, hname, enter_eq_ok.mp henter, hfollow, k, hk⟩
      rw [step_name hname, henter] at hstep
      cases hstep
      rfl

theorem createDirectory_eq_ok (ht : t.WellFormed) (h : t.createDirectory p = .ok t') :
    Grows (· = t.placeOf p) (fun _ => False) t t' ∧ t'.Opens p (t.placeOf p) := by
  rw [createDirectory] at h
  rcases hnew : t.placeNew p with e | _ | place'
  · rw [hnew] at h
    cases h
  · rw [hnew] at h
    cases h
  · rw [hnew] at h
    simp only [Bind.bind, Except.bind] at h
    split at h
    · cases h
    · rename_i hnone
      cases h
      rw [Option.not_isSome_iff_eq_none] at hnone
      obtain ⟨hcheck, place, name, front, rfl, hname, hplace, hfollow, k, hk⟩ := placeNew_eq_some hnew
      have hgrows : Grows (· = place ++ [name]) (fun _ => False) t (t.insert (place ++ [name]) .directory) :=
        .insert_directory ht hplace hname hnone rfl
      have hmade : FileTree.entry? (t.insert (place ++ [name]) .directory) (place ++ [name])
          = some .directory := by
        rw [entry?_insert _ _ (by simp), if_pos rfl]
      have hreach : (t.insert (place ++ [name]) .directory).reach p = .ok (place ++ [name]) := by
        have hstep : (t.insert (place ++ [name]) .directory).step place name = .ok (place ++ [name]) := by
          rw [step_name hname, enter_of_directory (hgrows.directory hplace)]
          rfl
        rw [reach, hk, hgrows.origin, follow_append, follow_concat, hgrows.follow hfollow]
        show ((t.insert (place ++ [name]) .directory).step place name).bind _ = _
        rw [hstep]
        exact follow_idle hmade (by simp [Path.isIdle])
      have hplaceOf : place ++ [name] = t.placeOf p := (reach_eq_placeOf hreach).trans (hgrows.placeOf p)
      rw [← hplaceOf]
      exact ⟨hgrows, hreach, hmade, .inr hcheck⟩

theorem ensureDirectory_grows (p : Path) (ht : t.WellFormed) :
    Grows (· = t.placeOf p) (fun _ => False) t (t.ensureDirectory p).2 ∧
      ((t.ensureDirectory p).1 = .ok () → (t.ensureDirectory p).2.Opens p (t.placeOf p)) := by
  rw [ensureDirectory]
  rcases h : t.createDirectory p with e | t'
  · refine ⟨.refl ht, fun hok => ?_⟩
    dsimp only at hok ⊢
    split at hok
    · exact opens_of_isDirectory ‹_›
    · cases hok
  · exact ⟨(createDirectory_eq_ok ht h).1, fun _ => (createDirectory_eq_ok ht h).2⟩

/-- The places of a path and of those above it. -/
def OnWayTo (t : FileTree) (p : Path) (place : List String) : Prop :=
  ∃ q, q.OnWayTo p ∧ t.placeOf q = place

theorem OnWayTo.of_eq (h : place = t.placeOf p) : t.OnWayTo p place :=
  ⟨p, .refl p, h.symm⟩

theorem OnWayTo.of_parent {parent : Path} (hparent : p.parent? = some parent)
    (h : t.OnWayTo parent place) : t.OnWayTo p place := by
  obtain ⟨q, hq, hplace⟩ := h
  exact ⟨q, .parent hparent hq, hplace⟩

theorem createWithin_grows (ht : t.WellFormed) (depth : Nat) (p : Path) :
    Grows (t.OnWayTo p) (fun _ => False) t (t.createWithin depth p).2 ∧
      ((t.createWithin depth p).1 = .ok () → (t.createWithin depth p).2.Opens p (t.placeOf p)) := by
  induction depth generalizing p with
  | zero => exact ⟨.refl ht, nofun⟩
  | succ depth ih =>
    rw [createWithin]
    split
    · exact ⟨.refl ht, fun _ => opens_of_empty ht ‹_›⟩
    · split
      · rename_i parent _ hparent
        obtain ⟨habove, hopens⟩ := ih parent
        have hgrows := habove.mono (fun _ => OnWayTo.of_parent hparent) fun _ => id
        split
        · rename_i t' hcreate
          rw [hcreate] at hgrows
          have hensure := ensureDirectory_grows p hgrows.wellFormed
          rw [hgrows.placeOf] at hensure
          exact ⟨hgrows.trans (hensure.1.mono (fun _ => OnWayTo.of_eq) fun _ => id), hensure.2⟩
        · rename_i hfailed
          refine ⟨hgrows, fun hok => absurd ?_ (hfailed (t.createWithin depth parent).2)⟩
          rw [← hok]
      · have hensure := ensureDirectory_grows p ht
        exact ⟨hensure.1.mono (fun _ => OnWayTo.of_eq) fun _ => id, hensure.2⟩

/-- Directories are made only on the way to the one that is asked for. -/
theorem createDirectories_grows (ht : t.WellFormed) (p : Path) :
    Grows (t.OnWayTo p) (fun _ => False) t (t.createDirectories p).2 :=
  (createWithin_grows ht _ p).1

theorem opens_of_createDirectories (ht : t.WellFormed) (h : t.createDirectories p = (.ok (), t')) :
    t'.Opens p (t.placeOf p) := by
  have hopens := (createWithin_grows ht (p.segments.length + 1) p).2
  rw [← createDirectories, h] at hopens
  exact hopens rfl

theorem createDirectories_of_isOk (h : (t.createDirectories p).1.isOk = true) :
    t.createDirectories p = (.ok (), (t.createDirectories p).2) := by
  rcases hfirst : t.createDirectories p with ⟨e | _, t'⟩
  · rw [hfirst] at h
    cases h
  · rfl

theorem wellFormed_write (ht : t.WellFormed) (h : t.write p bytes = .ok t') : t'.WellFormed := by
  rw [write] at h
  rcases hnew : t.placeNew p with e | _ | place' <;> rw [hnew] at h
  · cases h
  · cases h
  · simp only [Bind.bind, Except.bind] at h
    split at h
    · cases h
    · rename_i hfree
      cases h
      obtain ⟨-, place, name, -, rfl, hname, hplace, -⟩ := placeNew_eq_some hnew
      refine ht.insert hplace hname fun hdirectory => hfree ?_
      simp [hdirectory, Entry.isDirectory]

/-- The file trees there are to start from are well-formed. -/
theorem wellFormed_ofFiles (directories : List Path) (files : List (Path × ByteArray)) :
    (ofFiles directories files).WellFormed := by
  have hhome : WellFormed { entries := [(["work"], .directory)], here := ["work"] } := by
    refine ⟨rfl, by simp, fun place name e he => ?_⟩
    have hmem := (mem_keys (List.concat_ne_nil name place)).mpr (by rw [he]; rfl)
    obtain ⟨rfl, hname⟩ := List.append_eq_singleton_iff.mp (List.mem_singleton.mp hmem) |>.resolve_right
      (by simp)
    cases hname
    exact ⟨rfl, by decide, by decide, by decide, by decide, by decide, by decide⟩
  have hdirectories (t : FileTree) (ht : t.WellFormed) :
      (directories.foldl (fun t p => (t.createDirectories p).2) t).WellFormed := by
    induction directories generalizing t with
    | nil => exact ht
    | cons p directories ih => exact ih _ (createDirectories_grows ht p).wellFormed
  have hfiles (t : FileTree) (ht : t.WellFormed) :
      (files.foldl (fun t file => t.withFile file.1 file.2) t).WellFormed := by
    induction files generalizing t with
    | nil => exact ht
    | cons file files ih =>
      obtain ⟨p, bytes⟩ := file
      refine ih (t.withFile p bytes) ?_
      have ht' := (createDirectories_grows ht (p.parent?.getD ⟨""⟩)).wellFormed
      rw [withFile]
      split
      · exact wellFormed_write ht' ‹_›
      · exact ht'
  exact hfiles _ (hdirectories _ hhome)

end FileTree

end Downlevel
