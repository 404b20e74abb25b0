import Mathlib.Data.List.Infix
import Downlevel.Proofs.Places

/-!
# Storing below a directory

What becomes of an attempt to make directories below a directory, or to write a file there, is decided
by how long the path is and by which files and directories stand in the way.
-/

namespace Downlevel

namespace FileTree

variable {t t' : FileTree} {place names : List String} {name : String} {p : Path} {bytes : ByteArray}

/-- Whether a file stands where names lead through. -/
def blocked (t : FileTree) (place names : List String) : Bool :=
  names.inits.any fun above => (t.file? (place ++ above)).isSome

theorem blocked_iff : t.blocked place names = true ↔
    ∃ above, above <+: names ∧ (t.file? (place ++ above)).isSome = true := by
  simp [blocked]

theorem blocked_eq_false : t.blocked place names = false ↔
    ∀ above, above <+: names → t.file? (place ++ above) = none := by
  simp [blocked, List.any_eq_false]

/-- Whether names lead to a directory, and if not, why. -/
def passage (t : FileTree) (place names : List String) : Except OsError Unit :=
  if (t.entry? (place ++ names)).any Entry.isDirectory then .ok ()
  else if t.blocked place names then .error .notADirectory
  else .error .notFound

theorem passage_of_directory (h : t.entry? (place ++ names) = some .directory) :
    t.passage place names = .ok () := by
  rw [passage, if_pos (any_isDirectory.mpr h)]

theorem passage_of_blocked (h : t.entry? (place ++ names) ≠ some .directory)
    (hblocked : t.blocked place names = true) : t.passage place names = .error .notADirectory := by
  rw [passage, if_neg (mt any_isDirectory.mp h), if_pos hblocked]

theorem passage_of_missing (h : t.entry? (place ++ names) ≠ some .directory)
    (hblocked : t.blocked place names = false) : t.passage place names = .error .notFound := by
  rw [passage, if_neg (mt any_isDirectory.mp h), if_neg (by simp [hblocked])]

namespace WellFormed

/-- No file is on the way to a directory. -/
theorem not_blocked (ht : t.WellFormed) (h : t.entry? (place ++ names) = some .directory) :
    t.blocked place names = false := by
  rw [blocked_eq_false]
  intro above habove
  rcases eq_or_ne above names with rfl | hne
  · exact file?_of_directory h
  · exact file?_of_directory (ht.directory_of_prefix (by simp [h]) habove hne)

/-- Nothing stands below what is no directory. -/
theorem entry?_concat (ht : t.WellFormed) (h : t.entry? place ≠ some .directory) :
    t.entry? (place ++ [name]) = none := by
  by_contra hne
  obtain ⟨e, he⟩ := Option.ne_none_iff_exists'.mp hne
  exact h (ht.parent place name e he).1

end WellFormed

theorem blocked_concat (h : t.file? (place ++ (names ++ [name])) = none) :
    t.blocked place (names ++ [name]) = t.blocked place names := by
  simp only [blocked, List.inits_append, List.any_append]
  simp [h]

/-- Where names lead to from a directory. -/
theorem follow_names (ht : t.WellFormed) (hplace : t.entry? place = some .directory)
    (hnames : ∀ n ∈ names ++ [name], IsName n) : t.follow place (names ++ [name]) =
      (t.passage place names).map fun _ => place ++ (names ++ [name]) := by
  induction names using List.reverseRecOn generalizing name with
  | nil =>
    rw [passage_of_directory (by simpa using hplace), List.nil_append]
    show t.step place name >>= pure = _
    rw [bind_pure, step_name (hnames name (by simp)), enter_of_directory hplace]
  | append_singleton names above ih =>
    rw [List.forall_mem_append, List.forall_mem_singleton] at hnames
    rw [follow_concat, ih hnames.1]
    by_cases hdirectory : t.entry? (place ++ names) = some .directory
    · rw [passage_of_directory hdirectory]
      show t.step (place ++ (names ++ [above])) name = _
      rw [step_name hnames.2, List.append_assoc place]
      congr 1
      rw [enter]
      split
      · exact (passage_of_directory ‹_›).symm
      · rename_i bytes hfile
        refine (passage_of_blocked (by simp [hfile]) ?_).symm
        exact blocked_iff.mpr ⟨_, List.prefix_rfl, by simp [file?_eq_some.mpr hfile]⟩
      · rename_i hnone
        refine (passage_of_missing (by simp [hnone]) ?_).symm
        rw [blocked_concat (file?_of_none hnone)]
        exact ht.not_blocked hdirectory
    · have hnone : t.entry? (place ++ (names ++ [above])) = none := by
        rw [← List.append_assoc]
        exact ht.entry?_concat hdirectory
      rw [passage, passage, if_neg (mt any_isDirectory.mp hdirectory), hnone,
        blocked_concat (file?_of_none hnone)]
      rcases t.blocked place names with _ | _ <;> rfl

theorem resolve_down (ht : t.WellFormed) (h : t.Opens p place) (hnames : ∀ n ∈ names ++ [name], IsName n) :
    t.resolve (p.down (names ++ [name])) =
      if 4096 ≤ (p.down (names ++ [name])).text.utf8ByteSize then .error .nameTooLong
      else (t.passage place names).map fun _ => place ++ (names ++ [name]) := by
  rw [resolve_eq, checkPath_down h.nul hnames (by simp), reach_down hnames, h.reach]
  split
  · rfl
  · exact follow_names ht h.directory hnames

/-- What is read from a path depends on where it leads to and on what stands there. -/
theorem read_congr (hfaults : t'.faults = t.faults) (hresolve : t'.resolve p = t.resolve p)
    (hentry : ∀ place, t.resolve p = .ok place → t'.entry? place = t.entry? place) :
    t'.read p = t.read p := by
  rw [read, read, hresolve]
  rcases h : t.resolve p with e | place
  · rfl
  · simp only [Bind.bind, Except.bind, hentry place h, unlock, hfaults]

/-- What is read from a path is what stands where it leads to. -/
theorem file?_of_read (hresolve : t.resolve p = .ok place) (hread : t.read p = .ok bytes) :
    t.file? place = some bytes := by
  rw [read, hresolve] at hread
  simp only [Bind.bind, Except.bind] at hread
  split at hread
  · rename_i hentry
    rcases hunlock : t.unlock place with e | _ <;> rw [hunlock] at hread <;> cases hread
    exact file?_eq_some.mpr hentry
  · cases hread
  · cases hread

/-- A path that ends in a name leads to the place of what is new there. -/
theorem placeNew_join (hname : IsName name) :
    t.placeNew (p.join ⟨name⟩) = (t.resolve (p.join ⟨name⟩)).map some := by
  have horigin : t.origin (p.join ⟨name⟩) = t.origin p := by
    rw [origin, origin, p.isAbsolute_join hname.slash]
  have htrim : ((p.front ++ [name]).reverse.dropWhile (· = "")).reverse = p.front ++ [name] := by
    rw [List.reverse_concat, List.dropWhile_cons_of_neg (by simpa using hname.nonempty)]
    simp
  rw [placeNew, resolve_eq, reach, horigin, p.segments_join hname.slash, htrim]
  dsimp only
  rw [List.dropLast_concat, List.getLast?_concat, follow_concat]
  rcases checkPath (p.join ⟨name⟩) with e | _
  · rfl
  rcases t.follow (t.origin p) p.front with e | place
  · rfl
  simp only [Bind.bind, Except.bind]
  rcases henter : t.enter place with e | _
  · rw [step_name hname, henter]
    rfl
  dsimp only
  split
  · rename_i h
    cases h
  · rename_i h
    exact absurd (Option.some.inj h) hname.dot
  · rename_i h
    exact absurd (Option.some.inj h) hname.dots
  · rename_i h
    cases h
    rw [step_name hname, henter]
    rfl

theorem createDirectory_join (hname : IsName name) : t.createDirectory (p.join ⟨name⟩) =
    (t.resolve (p.join ⟨name⟩)).bind fun place =>
      if (t.entry? place).isSome then .error .exists else .ok (t.insert place .directory) := by
  rw [createDirectory, placeNew_join hname]
  rcases t.resolve (p.join ⟨name⟩) with e | place <;> rfl

theorem write_join (hname : IsName name) (bytes : ByteArray) : t.write (p.join ⟨name⟩) bytes =
    (t.resolve (p.join ⟨name⟩)).bind fun place =>
      if (t.entry? place).any Entry.isDirectory then .error .isADirectory
      else .ok (t.insert place (.file bytes)) := by
  rw [write, placeNew_join hname]
  rcases t.resolve (p.join ⟨name⟩) with e | place
  · rfl
  · simp only [p.getLast_join hname, decide_false, Bool.false_or]
    rfl

/-- Nothing is written under a segment that is no name. -/
theorem isName_of_write {segment : String} (hsegment : IsSegment segment)
    (h : t.write (p.join ⟨segment⟩) bytes = .ok t') : IsName segment := by
  rw [write] at h
  rcases hnew : t.placeNew (p.join ⟨segment⟩) with e | _ | place' <;> rw [hnew] at h
  · cases h
  · cases h
  obtain ⟨-, -, name, front, -, hname, -, -, k, hk⟩ := placeNew_eq_some hnew
  rw [p.segments_join hsegment.slash] at hk
  cases k with
  | zero =>
    rw [List.replicate_zero, List.append_nil] at hk
    obtain ⟨-, hlast⟩ := List.append_inj' hk rfl
    rwa [List.singleton_inj.mp hlast]
  | succ k =>
    rw [List.replicate_succ', ← List.append_assoc] at hk
    obtain ⟨-, hlast⟩ := List.append_inj' hk rfl
    exact absurd (List.singleton_inj.mp hlast) hsegment.nonempty

/-- What becomes of an attempt to make the directories of names below a directory. -/
def makeOutcome (t : FileTree) (p : Path) (place names : List String) : Except OsError Unit :=
  if names = [] then .ok ()
  else if 4096 ≤ (p.down names).text.utf8ByteSize then .error .nameTooLong
  else if (t.file? (place ++ names)).isSome then .error .exists
  else if t.blocked place names then .error .notADirectory
  else .ok ()

/-- Making one directory below those there are. -/
theorem ensureDirectory_down (ht : t.WellFormed) (h : t.Opens p place)
    (hnames : ∀ n ∈ names ++ [name], IsName n)
    (hshort : ¬ 4096 ≤ (p.down (names ++ [name])).text.utf8ByteSize)
    (hdirectory : t.entry? (place ++ names) = some .directory) :
    ∃ t', t.ensureDirectory (p.down (names ++ [name])) = (t.makeOutcome p place (names ++ [name]), t') ∧
      Grows (· = place ++ (names ++ [name])) (fun _ => False) t t' ∧
      (t.makeOutcome p place (names ++ [name]) = .ok () →
        t'.entry? (place ++ (names ++ [name])) = some .directory) := by
  have hname : IsName name := hnames name (by simp)
  have hresolve := resolve_down ht h hnames
  rw [if_neg hshort, passage_of_directory hdirectory] at hresolve
  have hcreate := createDirectory_join (t := t) (p := p.down names) hname
  rw [← Path.down_concat, hresolve] at hcreate
  have houtcome : t.makeOutcome p place (names ++ [name]) =
      if (t.file? (place ++ (names ++ [name]))).isSome then .error .exists else .ok () := by
    rw [makeOutcome, if_neg (by simp), if_neg hshort]
    split
    · rfl
    · rename_i hfile
      rw [blocked_concat (by simpa using hfile), ht.not_blocked hdirectory]
      rfl
  rw [ensureDirectory, hcreate, houtcome]
  rcases hentry : t.entry? (place ++ (names ++ [name])) with _ | _ | bytes
  · refine ⟨t.insert (place ++ (names ++ [name])) .directory, ?_, ?_, ?_⟩
    · simp [hentry, file?_of_none hentry, Except.map, Except.bind]
    · rw [← List.append_assoc] at hentry ⊢
      exact .insert_directory ht hdirectory hname hentry rfl
    · intro _
      rw [entry?_insert _ _ (by simp), if_pos rfl]
  · refine ⟨t, ?_, .refl ht, fun _ => hentry⟩
    have hisDirectory := isDirectory_eq_true.mpr ⟨_, hresolve, hentry⟩
    simp [hentry, file?_of_directory hentry, Except.map, Except.bind, hisDirectory]
  · refine ⟨t, ?_, .refl ht, ?_⟩
    · have hisDirectory : t.isDirectory (p.down (names ++ [name])) = false := by
        rw [isDirectory, hresolve]
        simp [Except.map, hentry, Entry.isDirectory]
      simp [hentry, file?_eq_some.mpr hentry, Except.map, Except.bind, hisDirectory]
    · simp [file?_eq_some.mpr hentry]

theorem ensureDirectory_of_error {e : OsError} (hname : IsName name)
    (h : t.resolve (p.join ⟨name⟩) = .error e) : t.ensureDirectory (p.join ⟨name⟩) = (.error e, t) := by
  have hisDirectory : t.isDirectory (p.join ⟨name⟩) = false := by rw [isDirectory, h]
  rw [ensureDirectory, createDirectory_join hname, h]
  simp [Except.bind, hisDirectory]

theorem createWithin_of_done {depth : Nat} {r : Except OsError Unit} (htext : p.text ≠ "")
    (h : t.ensureDirectory p = (r, t')) (hr : r ≠ .error .notFound) :
    t.createWithin (depth + 1) p = (r, t') := by
  rw [createWithin, if_neg htext]
  split
  · rename_i hensure _
    cases h.symm.trans hensure
    exact absurd rfl hr
  · exact h

theorem createWithin_of_missing {depth : Nat} {parent : Path} (htext : p.text ≠ "")
    (h : t.ensureDirectory p = (.error .notFound, t)) (hparent : p.parent? = some parent)
    (hcreate : t.createWithin depth parent = (.ok (), t')) :
    t.createWithin (depth + 1) p = t'.ensureDirectory p := by
  rw [createWithin, if_neg htext, h, hparent]
  simp only
  rw [hcreate]

theorem makeOutcome_ne_notFound : t.makeOutcome p place names ≠ .error .notFound := by
  rw [makeOutcome]
  split_ifs <;> simp

theorem Grows.makeOutcome {D : List String → Prop} (h : Grows D (fun _ => False) t t') :
    t'.makeOutcome p place names = t.makeOutcome p place names := by
  have hfile (place : List String) : t'.file? place = t.file? place := h.file? id
  have hblocked : t'.blocked place names = t.blocked place names := by
    simp only [blocked, hfile]
  rw [FileTree.makeOutcome, FileTree.makeOutcome, hfile, hblocked]

/-- The places that names lead through from a place. -/
def Along (place names onWay : List String) : Prop :=
  ∃ above, above <+: names ∧ onWay = place ++ above

theorem not_along {route : List String} (h : ¬ route <+: names) : ¬ Along place names (place ++ route) := by
  rintro ⟨above, habove, heq⟩
  exact h (List.append_cancel_left heq ▸ habove)

/-- How the directories of names are made below a directory. -/
def Makes (t t' : FileTree) (p : Path) (place names : List String) (r : Except OsError Unit) : Prop :=
  r = t.makeOutcome p place names ∧ Grows (Along place names) (fun _ => False) t t' ∧
    (r = .ok () → t'.entry? (place ++ names) = some .directory)

/-- The last directory is made, or is there, if it comes to that. -/
theorem createWithin_near (ht : t.WellFormed) (h : t.Opens p place)
    (hnames : ∀ n ∈ names ++ [name], IsName n)
    (hnear : 4096 ≤ (p.down (names ++ [name])).text.utf8ByteSize ∨
      t.entry? (place ++ names) = some .directory) (depth : Nat) :
    ∃ r t', t.createWithin (depth + 1) (p.down (names ++ [name])) = (r, t') ∧
      t.Makes t' p place (names ++ [name]) r := by
  have hname : IsName name := hnames name (by simp)
  have htext := (p.down names).join_text_ne hname
  rw [← Path.down_concat] at htext
  by_cases hlong : 4096 ≤ (p.down (names ++ [name])).text.utf8ByteSize
  · have hresolve := resolve_down ht h hnames
    rw [if_pos hlong, Path.down_concat] at hresolve
    have hensure := ensureDirectory_of_error hname hresolve
    rw [← Path.down_concat] at hensure
    refine ⟨_, t, createWithin_of_done htext hensure (by simp), ?_, .refl ht, by simp⟩
    rw [makeOutcome, if_neg (by simp), if_pos hlong]
  · obtain ⟨t', hensure, hgrows, hmade⟩ :=
      ensureDirectory_down ht h hnames hlong (hnear.resolve_left hlong)
    refine ⟨_, t', createWithin_of_done htext hensure makeOutcome_ne_notFound, rfl, ?_, hmade⟩
    refine hgrows.mono ?_ fun _ => id
    rintro _ rfl
    exact ⟨_, List.prefix_rfl, rfl⟩

theorem createWithin_down (ht : t.WellFormed) (h : t.Opens p place)
    (hnames : ∀ n ∈ names ++ [name], IsName n) {depth : Nat} (hdepth : names.length < depth) :
    ∃ r t', t.createWithin depth (p.down (names ++ [name])) = (r, t') ∧
      t.Makes t' p place (names ++ [name]) r := by
  obtain ⟨depth, rfl⟩ := Nat.exists_eq_add_one_of_ne_zero (Nat.ne_of_gt (Nat.zero_lt_of_lt hdepth))
  induction names using List.reverseRecOn generalizing name depth with
  | nil => exact createWithin_near ht h hnames (.inr (by simpa using h.directory)) depth
  | append_singleton names above ih =>
    by_cases hnear : 4096 ≤ (p.down (names ++ [above] ++ [name])).text.utf8ByteSize ∨
        t.entry? (place ++ (names ++ [above])) = some .directory
    · exact createWithin_near ht h hnames hnear depth
    obtain ⟨hshort, hdirectory⟩ := not_or.mp hnear
    have hnames' : ∀ n ∈ names ++ [above], IsName n := fun n hn => hnames n (List.mem_append_left _ hn)
    have hname : IsName name := hnames name (by simp)
    have htext := (p.down (names ++ [above])).join_text_ne hname
    rw [← Path.down_concat] at htext
    have hnone : t.entry? (place ++ (names ++ [above] ++ [name])) = none := by
      rw [← List.append_assoc]
      exact ht.entry?_concat hdirectory
    have hresolve := resolve_down ht h hnames
    rw [if_neg hshort, Path.down_concat] at hresolve
    have houtcome : t.makeOutcome p place (names ++ [above] ++ [name]) =
        if t.blocked place (names ++ [above]) then .error .notADirectory else .ok () := by
      have hfile := file?_of_none hnone
      rw [makeOutcome, if_neg (by simp), if_neg hshort, blocked_concat hfile, hfile]
      rfl
    rcases hblocked : t.blocked place (names ++ [above]) with _ | _
    · -- the directory above is missing as well, and is made before
      rw [passage_of_missing hdirectory hblocked] at hresolve
      have hensure := ensureDirectory_of_error hname hresolve
      rw [← Path.down_concat] at hensure
      have hparent : (p.down (names ++ [above] ++ [name])).parent? = some (p.down (names ++ [above])) := by
        rw [Path.down_concat, Path.down_concat]
        exact Path.parent?_join_join _ (hnames' above (by simp)) hname.isSegment
      rw [List.length_append, List.length_singleton] at hdepth
      obtain ⟨depth, rfl⟩ := Nat.exists_eq_add_one_of_ne_zero (by omega : depth ≠ 0)
      obtain ⟨r, t', hcreate, rfl, hgrows, hmade⟩ := ih hnames' depth (by omega)
      have hok : t.makeOutcome p place (names ++ [above]) = .ok () := by
        have hsize := (p.down (names ++ [above])).size_join hname
        rw [← Path.down_concat] at hsize
        have hfile := blocked_eq_false.mp hblocked _ List.prefix_rfl
        rw [makeOutcome, if_neg (by simp), if_neg (by omega), hfile, hblocked]
        rfl
      rw [hok] at hcreate
      obtain ⟨t'', hensure', hgrows', hmade'⟩ :=
        ensureDirectory_down hgrows.wellFormed (h.grows hgrows) hnames hshort (hmade hok)
      rw [hgrows.makeOutcome] at hensure' hmade'
      refine ⟨_, t'', (createWithin_of_missing htext hensure hparent hcreate).trans hensure', rfl, ?_,
        hmade'⟩
      refine (hgrows.mono ?_ fun _ => id).trans (hgrows'.mono ?_ fun _ => id)
      · rintro _ ⟨above', habove', rfl⟩
        exact ⟨above', habove'.trans (List.prefix_append _ _), rfl⟩
      · rintro _ rfl
        exact ⟨_, List.prefix_rfl, rfl⟩
    · rw [passage_of_blocked hdirectory hblocked] at hresolve
      have hensure := ensureDirectory_of_error hname hresolve
      rw [← Path.down_concat] at hensure
      refine ⟨_, t, createWithin_of_done htext hensure (by simp), ?_, .refl ht, by simp⟩
      rw [houtcome, hblocked]
      rfl

/-- Segments that add nothing can be left out at the end of a way. -/
theorem follow_of_idle {segments idle place' : List String} (hidle : ∀ s ∈ idle, Path.isIdle s = true)
    (h : t.follow place (segments ++ idle) = .ok place') : t.follow place segments = .ok place' := by
  induction idle using List.reverseRecOn with
  | nil => simpa using h
  | append_singleton idle segment ih =>
    rw [List.forall_mem_append, List.forall_mem_singleton] at hidle
    rw [← List.append_assoc, follow_concat] at h
    rcases hfollow : t.follow place (segments ++ idle) with e | between
    · rw [hfollow] at h
      cases h
    · rw [hfollow] at h
      have hplace' := (step_eq_ok h).2
      rw [lexical, if_pos hidle.2] at hplace'
      subst hplace'
      exact ih hidle.1 hfollow

theorem exists_trimIdle (first : String) (rest : List String) :
    ∃ rest' idle, Path.trimIdle (first :: rest) = first :: rest' ∧ rest = rest' ++ idle ∧
      ∀ s ∈ idle, Path.isIdle s = true := by
  refine ⟨(rest.reverse.dropWhile Path.isIdle).reverse, (rest.reverse.takeWhile Path.isIdle).reverse,
    rfl, ?_, ?_⟩
  · rw [← List.reverse_append, List.takeWhile_append_dropWhile, List.reverse_reverse]
  · intro s hs
    exact List.all_eq_true.mp List.all_takeWhile s (List.mem_reverse.mp hs)

/-- The path above a segment in a directory leads to the directory. -/
theorem Opens.parent (ht : t.WellFormed) (h : t.Opens p place) (hname : IsSegment name) :
    ∃ parent, (p.join ⟨name⟩).parent? = some parent ∧ t.Opens parent place := by
  rw [p.parent?_join hname]
  by_cases htext : p.text = ""
  · have hempty : t.Opens ⟨""⟩ (t.placeOf ⟨""⟩) := opens_of_empty ht rfl
    obtain ⟨text⟩ := p
    cases htext
    rw [reach_eq_placeOf h.reach]
    exact ⟨⟨""⟩, rfl, hempty⟩
  have hcheck := checkPath_eq_ok.mp (h.sound.resolve_left htext)
  have hfollow : t.follow (t.origin p) p.front = .ok place := by
    have hreach := h.reach
    rw [FileTree.reach] at hreach
    rcases p.segments_eq with hsegments | hsegments <;> rw [hsegments] at hreach
    · exact hreach
    · exact follow_of_idle (by simp [Path.isIdle]) hreach
  have hsegments : p.front <+: p.segments := by
    rcases p.segments_eq with hsegments | hsegments <;> simp [hsegments]
  have hsingle : p.segments ≠ [""] := by
    intro hsingle
    have := p.ofSegments_segments
    rw [hsingle] at this
    exact htext (this ▸ rfl)
  rcases hfront : p.front with _ | ⟨first, rest⟩
  · rcases p.segments_eq with heq | heq <;> rw [hfront] at heq
    · exact absurd (List.map_eq_nil_iff.mp heq) (Text.split_ne_nil _ _)
    · exact absurd heq hsingle
  obtain ⟨rest', idle, htrim, rfl, hidle⟩ := exists_trimIdle first rest
  rw [hfront] at hfollow hsegments
  have hfollow' : t.follow (t.origin p) (first :: rest') = .ok place := follow_of_idle hidle hfollow
  have hstart : first :: rest' <+: p.segments := by
    refine List.IsPrefix.trans ?_ hsegments
    exact ⟨idle, rfl⟩
  have habsolute : p.isAbsolute = true ↔ first = "" := by
    obtain ⟨more, hmore⟩ := hsegments
    rw [Path.isAbsolute_iff, ← hmore]
    constructor
    · rintro ⟨rest, -, heq⟩
      exact (List.cons.inj heq).1
    · rintro rfl
      refine ⟨_, fun hnil => hsingle ?_, rfl⟩
      rw [← hmore]
      exact congrArg _ hnil
  rw [htrim]
  by_cases hroot : first :: rest' = [""]
  · -- the directory is the root
    rw [hroot] at hfollow' ⊢
    have hplace := follow_eq_ok hfollow'
    rw [origin, if_pos (habsolute.mpr (List.cons.inj hroot).1)] at hplace
    subst hplace
    have hidle : ∀ s ∈ ["", ""], Path.isIdle s = true := by decide
    exact ⟨⟨"/"⟩, rfl, follow_idle (entry?_nil t) hidle, rfl, .inr rfl⟩
  · refine ⟨Path.ofSegments (first :: rest'), by rw [Path.ofTrimmed_of_ne hroot], ?_⟩
    have hslash : ∀ s ∈ first :: rest', '/' ∉ s.toList :=
      fun s hs => Path.slash_notMem_of_mem_segments (hstart.subset hs)
    have hsame := Path.segments_ofSegments (List.cons_ne_nil first rest') hslash
    have horigin : t.origin (Path.ofSegments (first :: rest')) = t.origin p := by
      have : (Path.ofSegments (first :: rest')).isAbsolute = p.isAbsolute := by
        rw [Bool.eq_iff_iff, habsolute, Path.isAbsolute_iff, hsame]
        constructor
        · rintro ⟨rest, -, heq⟩
          exact (List.cons.inj heq).1
        · rintro rfl
          exact ⟨rest', fun hnil => hroot (congrArg _ hnil), rfl⟩
      rw [origin, origin, this]
    obtain ⟨more, hmore⟩ := Path.exists_append_of_prefix (List.cons_ne_nil first rest') hstart
    rw [Path.ofSegments_segments] at hmore
    refine ⟨?_, h.directory, .inr (checkPath_eq_ok.mpr ⟨?_, ?_, ?_⟩)⟩
    · rw [FileTree.reach, horigin, hsame, hfollow']
    · rw [hmore, String.toList_append, List.mem_append, not_or] at hcheck
      exact hcheck.1.1
    · intro hempty
      rw [← hsame, Path.segments, hempty] at hroot
      exact hroot rfl
    · rw [hmore, String.utf8ByteSize_append] at hcheck
      omega

theorem placeNew_eq_placeOf {place' : List String} (h : t.placeNew p = .ok (some place')) :
    place' = t.placeOf p := by
  obtain ⟨-, place, name, front, rfl, hname, -, hfollow, k, hk⟩ := placeNew_eq_some h
  have hidle (k : Nat) : (List.replicate k "").foldl lexical (place ++ [name]) = place ++ [name] := by
    induction k with
    | zero => rfl
    | succ k ih => rw [List.replicate_succ', List.foldl_concat, ih]; rfl
  rw [placeOf, hk, List.foldl_append, List.foldl_concat, ← follow_eq_ok hfollow, lexical,
    if_neg (by simp [hname.not_idle]), if_neg hname.dots, hidle]

theorem createDirectories_of_opens (h : t.Opens p place) : t.createDirectories p = (.ok (), t) := by
  rw [createDirectories]
  by_cases htext : p.text = ""
  · rw [createWithin, if_pos htext]
  · refine createWithin_of_done htext ?_ (by simp)
    rw [ensureDirectory]
    rcases hcreate : t.createDirectory p with e | t'
    · simp [h.isDirectory htext]
    · -- nothing is made where a directory stands
      rw [createDirectory] at hcreate
      rcases hnew : t.placeNew p with e | _ | place'
      · rw [hnew] at hcreate
        cases hcreate
      · rw [hnew] at hcreate
        cases hcreate
      · have hplace' := placeNew_eq_placeOf hnew
        rw [← reach_eq_placeOf h.reach] at hplace'
        subst hplace'
        rw [hnew] at hcreate
        simp [Bind.bind, Except.bind, h.directory] at hcreate

end FileTree

end Downlevel
