import Downlevel.File.Converter
import Downlevel.Proofs.Storing

/-!
# Converting one file of a tree

What a conversion of one file does to a file tree: its outcome is decided by what the file holds and by
what stands at the place it is written to and on the way there, and it writes at that place only.
-/

namespace Downlevel

namespace Converter

/-! ## Operations on a file tree -/

section Run

variable {α β : Type} (explain : OsError → FileError) (p : Path) (t : FileTree)

theorem run_bind (x : ExceptT FileError (StateM FileTree) α)
    (f : α → ExceptT FileError (StateM FileTree) β) : (x >>= f).run.run t =
      match x.run.run t with
      | (.error e, t) => (.error e, t)
      | (.ok a, t) => (f a).run.run t := by
  show (ExceptT.bindCont f (x t).1) (x t).2 = match x t with
    | (.error e, t) => (.error e, t)
    | (.ok a, t) => f a t
  rcases x t with ⟨_ | a, t'⟩ <;> rfl

theorem run_lift (x : StateM FileTree α) :
    (liftM x : ExceptT FileError (StateM FileTree) α).run.run t = (.ok (x.run t).1, (x.run t).2) := rfl

theorem run_createDirectories :
    (perform (m := StateM FileTree) explain (FileSystem.createDirectories p)).run.run t =
      ((t.createDirectories p).1.mapError explain, (t.createDirectories p).2) := rfl

theorem run_read : (perform (m := StateM FileTree) explain (FileSystem.read p)).run.run t =
    ((t.read p).mapError explain, t) := rfl

theorem run_list : (perform (m := StateM FileTree) explain (FileSystem.list p)).run.run t =
    ((t.list p).mapError explain, t) := rfl

theorem run_write (bytes : ByteArray) :
    (perform (m := StateM FileTree) explain (FileSystem.write p bytes)).run.run t =
      match t.write p bytes with
      | .ok t => (.ok (), t)
      | .error e => (.error (explain e), t) := by
  show (Except.mapError explain (match t.write p bytes with
      | .ok t => (Except.ok (), t)
      | .error e => (.error e, t)).1, _) = _
  rcases t.write p bytes with e | t' <;> rfl

end Run

variable {t t' : FileTree} {place names out : List String} {name code : String} {p output : Path}

theorem run_store {target parent : Path} (hparent : target.parent? = some parent) (code : String)
    (t : FileTree) : (store (m := StateM FileTree) target code).run.run t =
      match t.createDirectories parent with
      | (.error e, t) => (.error (.os e), t)
      | (.ok (), t) =>
        match t.write target code.toUTF8 with
        | .ok t => (.ok (), t)
        | .error e => (.error (.unwritable target e), t) := by
  simp only [store, hparent]
  rw [run_bind, run_createDirectories]
  rcases t.createDirectories parent with ⟨e | _, t'⟩
  · rfl
  · exact run_write ..

/-- What becomes of a text that is to be stored below a directory. -/
def storeOutcome (t : FileTree) (output : Path) (out route : List String) : Except FileError Unit :=
  match t.makeOutcome output out route.dropLast with
  | .error e => .error (.os e)
  | .ok () =>
    if 4096 ≤ (output.down route).text.utf8ByteSize then
      .error (.unwritable (output.down route) .nameTooLong)
    else if (t.entry? (out ++ route)).any FileTree.Entry.isDirectory then
      .error (.unwritable (output.down route) .isADirectory)
    else .ok ()

/-- The directory of a file that is to be stored is made. -/
theorem createDirectories_parent (ht : t.WellFormed) (h : t.Opens output out)
    (hnames : ∀ n ∈ names, IsName n) (hname : IsSegment name) :
    ∃ parent r t', (output.down (names ++ [name])).parent? = some parent ∧
      t.createDirectories parent = (r, t') ∧ t.Makes t' output out names r := by
  rw [Path.down_concat]
  rcases List.eq_nil_or_concat' names with rfl | ⟨names, above, rfl⟩
  · obtain ⟨parent, hparent, hopens⟩ := h.parent ht hname
    refine ⟨parent, .ok (), t, hparent, FileTree.createDirectories_of_opens hopens, rfl, .refl ht, ?_⟩
    intro _
    simpa using h.directory
  · have habove : IsName above := hnames above (by simp)
    have hsegments := output.segments_down (by simp) hnames
    have hdepth : names.length < (output.down (names ++ [above])).segments.length + 1 := by
      simp [hsegments]
      omega
    obtain ⟨r, t', hcreate, hmakes⟩ := FileTree.createWithin_down ht h hnames hdepth
    refine ⟨output.down (names ++ [above]), r, t', ?_, hcreate, hmakes⟩
    rw [Path.down_concat]
    exact Path.parent?_join_join _ habove hname

/-- Storing a text below a directory makes the directories on the way and writes one file. -/
theorem store_down (ht : t.WellFormed) (h : t.Opens output out)
    (hnames : ∀ n ∈ names ++ [name], IsName n) (code : String) :
    ∃ t', (store (m := StateM FileTree) (output.down (names ++ [name])) code).run.run t =
        (storeOutcome t output out (names ++ [name]), t') ∧
      FileTree.Grows (FileTree.Along out names) (fun place => place = out ++ (names ++ [name]) ∧
        storeOutcome t output out (names ++ [name]) = .ok ()) t t' ∧
      (storeOutcome t output out (names ++ [name]) = .ok () →
        t'.entry? (out ++ (names ++ [name])) = some (.file code.toUTF8)) := by
  have hname : IsName name := hnames name (by simp)
  obtain ⟨parent, r, t', hparent, hcreate, rfl, hgrows, hmade⟩ :=
    createDirectories_parent ht h (fun n hn => hnames n (List.mem_append_left _ hn)) hname.isSegment
  rw [run_store hparent, hcreate, storeOutcome, List.dropLast_concat]
  rcases hmake : t.makeOutcome output out names with e | _
  · exact ⟨t', rfl, hgrows.mono (fun _ => id) nofun, nofun⟩
  dsimp only
  have hdirectory := hmade hmake
  have hlast : ¬ names ++ [name] <+: names := fun hprefix => absurd hprefix.length_le (by simp)
  have hsame : t'.entry? (out ++ (names ++ [name])) = t.entry? (out ++ (names ++ [name])) :=
    hgrows.entry_eq (FileTree.not_along hlast) id
  have hresolve := FileTree.resolve_down hgrows.wellFormed (h.grows hgrows) hnames
  rw [FileTree.passage_of_directory hdirectory] at hresolve
  rw [Path.down_concat] at hresolve ⊢
  rw [FileTree.write_join hname, hresolve]
  by_cases hlong : 4096 ≤ ((output.down names).join ⟨name⟩).text.utf8ByteSize
  · rw [if_pos hlong, if_pos hlong]
    exact ⟨t', rfl, hgrows.mono (fun _ => id) nofun, nofun⟩
  rw [if_neg hlong, if_neg hlong]
  simp only [Except.map, Except.bind, hsame]
  by_cases hoccupied : (t.entry? (out ++ (names ++ [name]))).any FileTree.Entry.isDirectory = true
  · rw [if_pos hoccupied, if_pos hoccupied]
    exact ⟨t', rfl, hgrows.mono (fun _ => id) nofun, nofun⟩
  rw [if_neg hoccupied, if_neg hoccupied]
  have hfree : t'.entry? (out ++ (names ++ [name])) ≠ some .directory := by
    rw [hsame]
    exact mt FileTree.any_isDirectory.mpr hoccupied
  refine ⟨_, rfl, (hgrows.mono (fun _ => id) nofun).trans ?_, fun _ => ?_⟩
  · rw [← List.append_assoc] at hfree ⊢
    exact .insert_file hgrows.wellFormed hdirectory hname hfree ⟨rfl, rfl⟩
  · rw [FileTree.entry?_insert _ _ (by simp), if_pos rfl]

/-- What reading and converting a file gives. -/
def loadOutcome (c : Converter) (t : FileTree) (source : Path) : Except FileError Rendered :=
  ((t.read source).mapError (.unreadable source)).bind fun bytes =>
    match decodeText bytes with
    | .ok text => c.convertText source.text text
    | .error cause => .error (.unreadable source cause)

theorem run_load (c : Converter) (source : Path) (t : FileTree) :
    (c.load (m := StateM FileTree) source).run.run t = (c.loadOutcome t source, t) := by
  rw [load, run_bind, run_read, loadOutcome]
  rcases t.read source with e | bytes
  · rfl
  · show (match decodeText bytes with
        | .ok text => liftExcept (c.convertText source.text text)
        | .error cause => throw (.unreadable source cause) :
          ExceptT FileError (StateM FileTree) Rendered).run.run t = _
    rcases hdecode : decodeText bytes with e | text
    · simp only [Except.mapError, Except.bind, hdecode]
      rfl
    · simp only [Except.mapError, Except.bind, hdecode]
      rcases c.convertText source.text text with e | r <;> rfl

/-- What becomes of a file that is to be converted to a place below a directory. -/
def fileOutcome (c : Converter) (t : FileTree) (source output : Path) (out route : List String) :
    Except FileError Summary :=
  (c.loadOutcome t source).bind fun rendered =>
    (storeOutcome t output out route).map fun _ => .ofConverted source rendered.warnings

theorem run_convertFile (c : Converter) (source target : Path) (t : FileTree) :
    (c.convertFile (m := StateM FileTree) source target).run.run t =
      match c.loadOutcome t source with
      | .error e => (.error e, t)
      | .ok rendered =>
        match (store (m := StateM FileTree) target rendered.code).run.run t with
        | (.error e, t) => (.error e, t)
        | (.ok (), t) => (.ok (.ofConverted source rendered.warnings), t) := by
  rw [convertFile, run_bind, run_load]
  rcases c.loadOutcome t source with e | rendered
  · rfl
  · dsimp only
    rw [run_bind]
    rcases (store (m := StateM FileTree) target rendered.code).run.run t with ⟨_ | _, _⟩ <;> rfl

/-- What a conversion of a file does to the tree. -/
structure Stores (c : Converter) (t t' : FileTree) (source : Path) (out route : List String)
    (r : Except FileError Summary) : Prop where
  grows : FileTree.Grows (FileTree.Along out route.dropLast)
    (fun place => place = out ++ route ∧ ∃ s, r = .ok s) t t'
  stored : ∀ s, r = .ok s → ∃ rendered, c.loadOutcome t source = .ok rendered ∧
    s = .ofConverted source rendered.warnings ∧
    t'.entry? (out ++ route) = some (.file rendered.code.toUTF8)

theorem convertFile_down (c : Converter) (ht : t.WellFormed) (h : t.Opens output out)
    {route : List String} (hne : route ≠ []) (hnames : ∀ n ∈ route, IsName n) (source : Path) :
    ∃ t', (c.convertFile (m := StateM FileTree) source (output.down route)).run.run t =
        (c.fileOutcome t source output out route, t') ∧
      c.Stores t t' source out route (c.fileOutcome t source output out route) := by
  rw [run_convertFile, fileOutcome]
  rcases hload : c.loadOutcome t source with e | rendered
  · exact ⟨t, rfl, .refl ht, nofun⟩
  obtain ⟨names, name, rfl⟩ := (List.eq_nil_or_concat' route).resolve_left hne
  obtain ⟨t', hstore, hgrows, hstored⟩ := store_down ht h hnames rendered.code
  simp only [hstore]
  rcases houtcome : storeOutcome t output out (names ++ [name]) with e | _
  · rw [houtcome] at hgrows
    refine ⟨t', rfl, hgrows.mono ?_ nofun, nofun⟩
    simp
  · rw [houtcome] at hgrows
    refine ⟨t', rfl, hgrows.mono ?_ ?_, ?_⟩
    · simp
    · rintro _ ⟨rfl, -⟩
      exact ⟨rfl, _, rfl⟩
    · rintro _ ⟨⟩
      exact ⟨rendered, hload, rfl, hstored houtcome⟩

/-- Storing a text below a directory makes directories on the way and writes one file at most, whatever
the last segment is. -/
theorem store_grows (ht : t.WellFormed) (h : t.Opens output out) (hnames : ∀ n ∈ names, IsName n)
    (hsegment : IsSegment name) (code : String) :
    FileTree.Grows (FileTree.Along out names) (· = out ++ (names ++ [name])) t
      ((store (m := StateM FileTree) (output.down (names ++ [name])) code).run.run t).2 := by
  by_cases hname : IsName name
  · obtain ⟨t', hstore, hgrows, -⟩ := store_down ht h
      (List.forall_mem_append.mpr ⟨hnames, List.forall_mem_singleton.mpr hname⟩) code
    rw [hstore]
    exact hgrows.mono (fun _ => id) fun _ => And.left
  · obtain ⟨parent, r, t', hparent, hcreate, -, hgrows, -⟩ := createDirectories_parent ht h hnames hsegment
    rw [run_store hparent, hcreate]
    rcases r with e | _
    · exact hgrows.mono (fun _ => id) nofun
    · rcases hwrite : t'.write (output.down (names ++ [name])) code.toUTF8 with e | t''
      · simp only [hwrite]
        exact hgrows.mono (fun _ => id) nofun
      · rw [Path.down_concat] at hwrite
        exact absurd (FileTree.isName_of_write hsegment hwrite) hname

theorem convertFile_grows (c : Converter) (ht : t.WellFormed) (h : t.Opens output out)
    (hnames : ∀ n ∈ names, IsName n) (hsegment : IsSegment name) (source : Path) :
    FileTree.Grows (FileTree.Along out names) (· = out ++ (names ++ [name])) t
      ((c.convertFile (m := StateM FileTree) source (output.down (names ++ [name]))).run.run t).2 := by
  rw [run_convertFile]
  rcases c.loadOutcome t source with e | rendered
  · exact .refl ht
  · have hgrows := store_grows ht h hnames hsegment rendered.code
    dsimp only
    generalize (store (m := StateM FileTree) (output.down (names ++ [name])) rendered.code).run.run t = r
      at hgrows
    obtain ⟨_ | _, _⟩ := r <;> exact hgrows

/-- Whether a file can be stored is not changed by what is stored elsewhere. -/
theorem storeOutcome_congr {route : List String}
    (hfile : ∀ above, above <+: route.dropLast →
      (t'.file? (out ++ above)).isSome = (t.file? (out ++ above)).isSome)
    (hdirectory : t'.entry? (out ++ route) = some .directory ↔ t.entry? (out ++ route) = some .directory) :
    storeOutcome t' output out route = storeOutcome t output out route := by
  have hblocked : t'.blocked out route.dropLast = t.blocked out route.dropLast := by
    rw [Bool.eq_iff_iff, FileTree.blocked_iff, FileTree.blocked_iff]
    exact exists_congr fun above => and_congr_right fun habove => by rw [hfile above habove]
  have hany : (t'.entry? (out ++ route)).any FileTree.Entry.isDirectory =
      (t.entry? (out ++ route)).any FileTree.Entry.isDirectory := by
    rw [Bool.eq_iff_iff, FileTree.any_isDirectory, FileTree.any_isDirectory, hdirectory]
  rw [storeOutcome, storeOutcome, FileTree.makeOutcome, FileTree.makeOutcome, hblocked, hany,
    hfile _ List.prefix_rfl]

/-- The summary of a file that was to be converted. -/
def noted : Except FileError Summary → Summary
  | .ok s => s
  | .error e => .ofFailed e

theorem run_attempt (c : Converter) (source target : Path) (t : FileTree) :
    (c.attempt (m := StateM FileTree) source target).run t =
      (noted ((c.convertFile (m := StateM FileTree) source target).run.run t).1,
        ((c.convertFile (m := StateM FileTree) source target).run.run t).2) := by
  rw [attempt, StateT.run_bind]
  rcases (c.convertFile (m := StateM FileTree) source target).run.run t with ⟨e | s, t'⟩ <;> rfl

end Converter

end Downlevel
