import Downlevel.Proofs.DirectoryWalk

/-!
# Converting a directory

What a conversion of a directory writes for one file lies on the way of no other, so each file has the
outcome that it would have alone (`Converter.Progress`). That gives what becomes of the directory as a
whole (`Converter.convertDirectory_convertsAll`), unless it holds directories with paths so long that
the walk takes them for files.
-/

namespace Downlevel

namespace Converter

variable {c : Converter} {t t' t₁ : FileTree} {source output : Path} {src out route : List String}

/-! ## Independence -/

/-- The outcome of a file that is attempted alone. -/
def outcome (c : Converter) (t : FileTree) (source output : Path) (out route : List String) :
    Except FileError Summary :=
  c.fileOutcome t (source.down route) output out route

/-- The tree after the files of these routes have been attempted, from `t₁` on: each had the outcome that
it has alone. -/
structure Progress (c : Converter) (t₁ : FileTree) (source output : Path) (out : List String)
    (done : List (List String)) (t : FileTree) : Prop where
  grows : FileTree.Grows (fun place => ∃ route ∈ done, FileTree.Along out route.dropLast place)
    (fun place => ∃ route ∈ done, place = out ++ route ∧ ∃ s, c.outcome t₁ source output out route = .ok s)
    t₁ t
  stored : ∀ route ∈ done, ∀ s, c.outcome t₁ source output out route = .ok s →
    ∃ rendered, c.loadOutcome t₁ (source.down route) = .ok rendered ∧
      s = .ofConverted (source.down route) rendered.warnings ∧
      t.entry? (out ++ route) = some (.file rendered.code.toUTF8)

namespace Progress

variable {done : List (List String)}

theorem start (ht : t₁.WellFormed) : c.Progress t₁ source output out [] t₁ :=
  ⟨.refl ht, nofun⟩

section Attempt

variable (hready : c.Ready t₁ source output src out) (h : c.Progress t₁ source output out done t)
  (hdone : ∀ route ∈ done, (t₁.file? (src ++ route)).isSome = true)
  (hroute : (t₁.file? (src ++ route)).isSome = true)
include hready h hdone hroute

/-- A file can be read as before. -/
theorem read_eq (hnew : route ∉ done) : t.read (source.down route) = t₁.read (source.down route) := by
  have hsame : t.entry? (src ++ route) = t₁.entry? (src ++ route) := by
    refine h.grows.entry_eq ?_ ?_
    · rintro ⟨file, hfile, above, habove, heq⟩
      obtain ⟨-, rfl⟩ := hready.eq_of_append heq
      rw [FileTree.file?_of_directory (hready.directory_of_prefix (hdone _ hfile) habove)] at hroute
      cases hroute
    · rintro ⟨file, hfile, heq, -⟩
      obtain ⟨-, rfl⟩ := hready.eq_of_append heq
      exact hnew hfile
  have hnames := hready.isName hroute
  have habove := hready.directory_of_prefix hroute List.prefix_rfl
  obtain ⟨names, name, rfl⟩ := (List.eq_nil_or_concat' route).resolve_left (hready.route_ne_nil hroute)
  rw [List.dropLast_concat] at habove
  have hresolve := FileTree.resolve_down hready.wellFormed hready.opensSource hnames
  have hresolve' := FileTree.resolve_down h.grows.wellFormed (hready.opensSource.grows h.grows) hnames
  rw [FileTree.passage_of_directory habove] at hresolve
  rw [FileTree.passage_of_directory (h.grows.directory habove), ← hresolve] at hresolve'
  refine FileTree.read_congr h.grows.faults hresolve' fun place hplace => ?_
  rw [hresolve] at hplace
  split at hplace
  · cases hplace
  · cases hplace
    exact hsame

/-- A file can be stored as before. -/
theorem storeOutcome_eq : storeOutcome t output out route = storeOutcome t₁ output out route := by
  refine storeOutcome_congr (fun above habove => ?_) ⟨fun hdirectory => ?_, h.grows.directory⟩
  · rw [h.grows.file?]
    rintro ⟨file, hfile, heq, -⟩
    cases List.append_cancel_left heq
    have hdirectory := hready.directory_of_prefix hroute habove
    have := hdone _ hfile
    rw [FileTree.file?_of_directory hdirectory] at this
    cases this
  · rcases h.grows.entry (out ++ route) with he | ⟨⟨file, hfile, above, habove, heq⟩, -⟩ |
        ⟨-, -, bytes, hbytes⟩
    · rw [← he, hdirectory]
    · cases List.append_cancel_left heq
      have hdirectory := hready.directory_of_prefix (hdone _ hfile) habove
      rw [FileTree.file?_of_directory hdirectory] at hroute
      cases hroute
    · cases hdirectory.symm.trans hbytes

theorem outcome_eq (hnew : route ∉ done) :
    c.outcome t source output out route = c.outcome t₁ source output out route := by
  rw [outcome, outcome, fileOutcome, fileOutcome, loadOutcome, loadOutcome,
    h.read_eq hready hdone hroute hnew, h.storeOutcome_eq hready hdone hroute]

/-- One more file is attempted. -/
theorem attempt (hnew : route ∉ done) :
    ∃ t', (c.attempt (m := StateM FileTree) (source.down route) (output.down route)).run t =
        (noted (c.outcome t₁ source output out route), t') ∧
      c.Progress t₁ source output out (done ++ [route]) t' := by
  obtain ⟨t', hrun, hstores⟩ := c.convertFile_down h.grows.wellFormed
    (hready.opensOutput.grows h.grows) (hready.route_ne_nil hroute) (hready.isName hroute)
    (source.down route)
  have houtcome := h.outcome_eq hready hdone hroute hnew
  rw [outcome] at houtcome
  rw [houtcome] at hrun hstores
  refine ⟨t', by rw [run_attempt, hrun], ?_, ?_⟩
  · refine FileTree.Grows.trans (h.grows.mono ?_ ?_) (hstores.grows.mono ?_ ?_)
    · rintro place ⟨file, hfile, hplace⟩
      exact ⟨file, by simp [hfile], hplace⟩
    · rintro place ⟨file, hfile, hplace⟩
      exact ⟨file, by simp [hfile], hplace⟩
    · exact fun place hplace => ⟨route, by simp, hplace⟩
    · exact fun place hplace => ⟨route, by simp, hplace⟩
  · intro file hfile s hs
    rcases List.mem_append.mp hfile with hfile | hfile
    · -- an earlier file is not touched
      obtain ⟨rendered, hload, rfl, hentry⟩ := h.stored file hfile s hs
      refine ⟨rendered, hload, rfl, ?_⟩
      rcases hstores.grows.entry (out ++ file) with he | ⟨-, hnone, -⟩ | ⟨⟨heq, -⟩, -⟩
      · rw [he, hentry]
      · cases hnone.symm.trans hentry
      · cases List.append_cancel_left heq
        exact absurd hfile hnew
    · rw [List.mem_singleton] at hfile
      subst hfile
      obtain ⟨rendered, hload, rfl, hentry⟩ := hstores.stored s hs
      refine ⟨rendered, ?_, rfl, hentry⟩
      rw [loadOutcome, ← h.read_eq hready hdone hroute hnew, ← loadOutcome, hload]

end Attempt

/-- Files that are attempted one after another have the outcomes they have alone. -/
theorem attempts (hready : c.Ready t₁ source output src out) {routes : List (List String)}
    (hroutes : ∀ route ∈ routes, (t₁.file? (src ++ route)).isSome = true) (hnodup : routes.Nodup)
    (h : c.Progress t₁ source output out done t)
    (hdone : ∀ route ∈ done, (t₁.file? (src ++ route)).isSome = true)
    (hnew : ∀ route ∈ routes, route ∉ done) :
    (c.attempts source output id routes t).1 =
        routes.map (fun route => noted (c.outcome t₁ source output out route)) ∧
      c.Progress t₁ source output out (done ++ routes) (c.attempts source output id routes t).2 := by
  induction routes generalizing done t with
  | nil => simpa [Converter.attempts] using h
  | cons route routes ih =>
    rw [List.forall_mem_cons] at hroutes hnew
    rw [List.nodup_cons] at hnodup
    obtain ⟨t', hrun, h'⟩ := h.attempt hready hdone hroutes.1 hnew.1
    have hothers := ih hroutes.2 hnodup.2 h'
      (List.forall_mem_append.mpr ⟨hdone, List.forall_mem_singleton.mpr hroutes.1⟩) ?_
    · simp only [Converter.attempts, id, hrun, List.map_cons, hothers.1, true_and]
      simpa using hothers.2
    · intro file hfile
      rw [List.mem_append, List.mem_singleton, not_or]
      exact ⟨hnew.2 file hfile, fun heq => hnodup.1 (heq ▸ hfile)⟩

end Progress

/-! ## The whole directory -/

/-- What becomes of the file of a route if it is converted alone. -/
def alone (c : Converter) (t : FileTree) (source output : Path) (route : List String) :
    Except FileError Summary :=
  ((c.convertFile (m := StateM FileTree) (source.join (.ofSegments route))
    (output.join (.ofSegments route))).run.run t).1

/-- The files of the directory `source` are converted into the directory `output`: the trees are those
before, with the output directory made, and after. -/
structure ConvertsAll (c : Converter) (source output : Path) (t t₁ t' : FileTree)
    (routes : List (List String)) (summary : Summary) : Prop where
  /-- Each file that is wanted has its turn, in the order of the names on the way to it. -/
  sorted : routes.Pairwise (· < ·)
  wanted : ∀ route, route ∈ routes ↔ c.Wanted t (t.placeOf source) route
  processed : summary.processed = routes.length
  balance : summary.processed = summary.converted + summary.errors.length
  /-- What is reported of a file does not depend on the others. -/
  errors : summary.errors = routes.flatMap fun route => (noted (c.alone t₁ source output route)).errors
  warnings : summary.warnings =
    routes.flatMap fun route => (noted (c.alone t₁ source output route)).warnings
  /-- A file that fails is reported, and nothing is written for it. -/
  failed : ∀ route ∈ routes, ∀ e, c.alone t₁ source output route = .error e → e ∈ summary.errors ∧
    t'.file? (t.placeOf output ++ route) = t.file? (t.placeOf output ++ route)
  /-- For every other file the converted text of what it held is written. -/
  written : ∀ route ∈ routes, ∀ s, c.alone t₁ source output route = .ok s →
    ∃ bytes text rendered, t.file? (t.placeOf source ++ route) = some bytes ∧
      decodeText bytes = .ok text ∧ (convert text c.options).result = .ok rendered ∧
      s = .ofConverted (source.join (.ofSegments route)) rendered.warnings ∧
      t'.file? (t.placeOf output ++ route) = some rendered.code.toUTF8
  /-- No other file changes. -/
  frame : ∀ place, (∀ route ∈ routes, place ≠ t.placeOf output ++ route) → t'.file? place = t.file? place

theorem alone_eq (h : c.Ready t₁ source output src out) (hroute : (t₁.file? (src ++ route)).isSome = true) :
    c.alone t₁ source output route = c.outcome t₁ source output out route := by
  have hne := h.route_ne_nil hroute
  have hnames := h.isName hroute
  obtain ⟨t', hrun, -⟩ := c.convertFile_down h.wellFormed h.opensOutput hne hnames (source.down route)
  rw [alone, source.join_ofSegments hne hnames, output.join_ofSegments hne hnames, hrun]
  rfl

theorem loadOutcome_eq_ok {rendered : Rendered} (h : c.loadOutcome t source = .ok rendered) :
    ∃ bytes text, t.read source = .ok bytes ∧ decodeText bytes = .ok text ∧
      (convert text c.options).result = .ok rendered := by
  rw [loadOutcome] at h
  rcases hread : t.read source with e | bytes <;> rw [hread] at h
  · cases h
  · simp only [Except.mapError, Except.bind] at h
    split at h
    · rename_i text htext
      refine ⟨bytes, text, rfl, htext, ?_⟩
      rw [convertText] at h
      rcases hresult : (convert text c.options).result with e | r <;> rw [hresult] at h <;> cases h
      rfl
    · cases h

theorem file?_of_read {bytes : ByteArray} (h : c.Ready t₁ source output src out)
    (hroute : (t₁.file? (src ++ route)).isSome = true) (hread : t₁.read (source.down route) = .ok bytes) :
    t₁.file? (src ++ route) = some bytes := by
  have hnames := h.isName hroute
  have habove := h.directory_of_prefix hroute List.prefix_rfl
  obtain ⟨names, name, rfl⟩ := (List.eq_nil_or_concat' route).resolve_left (h.route_ne_nil hroute)
  rw [List.dropLast_concat] at habove
  have hresolve := FileTree.resolve_down h.wellFormed h.opensSource hnames
  rw [FileTree.passage_of_directory habove] at hresolve
  split at hresolve
  · rw [FileTree.read, hresolve] at hread
    cases hread
  · exact FileTree.file?_of_read hresolve hread

/-- A file that is attempted is one file. -/
theorem Progress.single {done : List (List String)} (h : c.Progress t₁ source output out done t)
    (hroute : route ∈ done) : (noted (c.outcome t₁ source output out route)).Single := by
  rcases houtcome : c.outcome t₁ source output out route with e | s
  · exact ⟨rfl, rfl⟩
  · obtain ⟨rendered, -, rfl, -⟩ := h.stored route hroute s houtcome
    exact ⟨rfl, rfl⟩

/-- The files that a walk visits are converted. -/
theorem convertsAll_of_progress (h : c.Ready t₁ source output (t.placeOf source) (t.placeOf output))
    (hfile : ∀ place, t₁.file? place = t.file? place) {routes : List (List String)}
    (hsorted : routes.Pairwise (· < ·))
    (hwanted : ∀ route, route ∈ routes ↔ c.Wanted t₁ (t.placeOf source) route)
    (hprogress : c.Progress t₁ source output (t.placeOf output) routes t') :
    c.ConvertsAll source output t t₁ t' routes (.total (routes.map fun route =>
      noted (c.outcome t₁ source output (t.placeOf output) route))) := by
  have halone {route : List String} (hroute : route ∈ routes) :=
    alone_eq h ((hwanted route).mp hroute).1
  obtain ⟨hlength, hbalance⟩ := Summary.Single.total
    (List.forall_mem_map.mpr fun route (hroute : route ∈ routes) => hprogress.single hroute)
  rw [List.length_map] at hlength
  refine ⟨hsorted, fun route => ?_, hlength, hbalance, ?_, ?_, ?_, ?_, ?_⟩
  · rw [hwanted, Wanted, Wanted, hfile]
  · rw [Summary.errors_total, List.flatMap_map]
    exact List.flatMap_congr fun route hroute => by rw [halone hroute]
  · rw [Summary.warnings_total, List.flatMap_map]
    exact List.flatMap_congr fun route hroute => by rw [halone hroute]
  · intro route hroute e he
    rw [halone hroute] at he
    constructor
    · rw [Summary.errors_total, List.flatMap_map, List.mem_flatMap]
      exact ⟨route, hroute, by rw [he]; exact List.mem_singleton_self e⟩
    · rw [← hfile]
      refine hprogress.grows.file? ?_
      rintro ⟨other, -, heq, s, hs⟩
      cases List.append_cancel_left heq
      cases he.symm.trans hs
  · intro route hroute s hs
    rw [halone hroute] at hs
    have hsource := ((hwanted route).mp hroute).1
    obtain ⟨rendered, hload, rfl, hentry⟩ := hprogress.stored route hroute s hs
    obtain ⟨bytes, text, hread, hdecode, hconvert⟩ := loadOutcome_eq_ok hload
    refine ⟨bytes, text, rendered, ?_, hdecode, hconvert, ?_, FileTree.file?_eq_some.mpr hentry⟩
    · rw [← hfile]
      exact file?_of_read h hsource hread
    · rw [source.join_ofSegments (h.route_ne_nil hsource) (h.isName hsource)]
  · intro place hplace
    rw [← hfile]
    refine hprogress.grows.file? ?_
    rintro ⟨route, hroute, heq, -⟩
    exact hplace route hroute heq

theorem run_convertDirectory (c : Converter) (source output : Path) (t : FileTree) :
    (c.convertDirectory (m := StateM FileTree) source output).run.run t =
      if t.isDirectory source then
        match t.createDirectories output with
        | (.error e, t) => (.error (.os e), t)
        | (.ok (), t) => (c.convertWithin (m := StateM FileTree) output deepest source []).run.run t
      else (.error (.noSource source), t) := by
  rw [convertDirectory, run_bind, run_lift]
  show (if t.isDirectory source = true then _ else _ :
    ExceptT FileError (StateM FileTree) Summary).run.run t = _
  split
  · rw [run_bind, run_createDirectories]
    rcases t.createDirectories output with ⟨e | _, t'⟩ <;> rfl
  · rfl

theorem Ready.of_targets (ht : t.WellFormed)
    (htargets : ∀ route, c.Wanted t₁ (t.placeOf source) route →
      c.target (source.down route) output route = .ok (output.down route))
    (hapart : t.placeOf source = t.placeOf output ∨
      ¬ t.placeOf source <+: t.placeOf output ∧ ¬ t.placeOf output <+: t.placeOf source)
    (hshortPaths : c.ShortPaths t₁ source (t.placeOf source)) (hsource : t.isDirectory source = true)
    (hcreate : t.createDirectories output = (.ok (), t₁)) :
    c.Ready t₁ source output (t.placeOf source) (t.placeOf output) := by
  have hgrows := FileTree.createDirectories_grows ht output
  rw [hcreate] at hgrows
  obtain ⟨place, hresolve, -⟩ := FileTree.isDirectory_eq_true.mp hsource
  exact
    { targets := htargets
      wellFormed := hgrows.wellFormed
      text := (FileTree.checkPath_eq_ok.mp (FileTree.resolve_eq_ok.mp hresolve).1).2.1
      opensSource := (FileTree.opens_of_isDirectory hsource).grows hgrows
      opensOutput := FileTree.opens_of_createDirectories ht hcreate
      apart := hapart
      shortPaths := hshortPaths }

theorem Ready.of_isDirectory (ht : t.WellFormed) (hkeep : c.keepPlaces = true)
    (hextension : c.outputExtension = none)
    (hapart : t.placeOf source = t.placeOf output ∨
      ¬ t.placeOf source <+: t.placeOf output ∧ ¬ t.placeOf output <+: t.placeOf source)
    (hshortPaths : c.ShortPaths t₁ source (t.placeOf source)) (hsource : t.isDirectory source = true)
    (hcreate : t.createDirectories output = (.ok (), t₁)) :
    c.Ready t₁ source output (t.placeOf source) (t.placeOf output) := by
  have hgrows := FileTree.createDirectories_grows ht output
  rw [hcreate] at hgrows
  have hopens := (FileTree.opens_of_isDirectory hsource).grows hgrows
  refine .of_targets ht (fun route hwanted => ?_) hapart hshortPaths hsource hcreate
  exact target_eq hkeep hextension _ (route_ne_nil_of_file hopens hwanted.1)
    (hgrows.wellFormed.isName (FileTree.entry?_ne_none hwanted.1))

/-- What comes of a conversion that can begin, if it comes to its end. -/
theorem Ready.of_run {summary : Summary} (h : c.Ready t₁ source output src out)
    (hsource : t.isDirectory source = true) (hcreate : t.createDirectories output = (.ok (), t₁))
    (hrun : (c.convertDirectory (m := StateM FileTree) source output).run.run t = (.ok summary, t')) :
    summary = .total (c.attempts source output id (c.visited t₁ source src deepest []) t₁).1 ∧
      t' = (c.attempts source output id (c.visited t₁ source src deepest []) t₁).2 := by
  rw [run_convertDirectory, if_pos hsource, hcreate] at hrun
  simpa using (attempts_directory h).2 summary t' hrun

/-- A conversion of a directory into the same directory, or into one that lies apart, converts the files
of the directory, each as if it were alone, and changes no other file. -/
theorem convertDirectory_convertsAll {c : Converter} {source output : Path} {t t' : FileTree}
    {summary : Summary} (ht : t.WellFormed) (hkeep : c.keepPlaces = true)
    (hextension : c.outputExtension = none)
    (hapart : t.placeOf source = t.placeOf output ∨
      ¬ t.placeOf source <+: t.placeOf output ∧ ¬ t.placeOf output <+: t.placeOf source)
    (hshortPaths : c.ShortPaths (t.createDirectories output).2 source (t.placeOf source))
    (hrun : (c.convertDirectory (m := StateM FileTree) source output).run.run t = (.ok summary, t')) :
    ∃ routes, c.ConvertsAll source output t (t.createDirectories output).2 t' routes summary := by
  have hbegin := hrun
  rw [run_convertDirectory] at hbegin
  split at hbegin
  · rename_i hsource
    have hgrows := FileTree.createDirectories_grows ht output
    rcases hcreate : t.createDirectories output with ⟨e | _, t₁⟩ <;>
      rw [hcreate] at hbegin hgrows hshortPaths
    · cases hbegin
    have hready := Ready.of_isDirectory ht hkeep hextension hapart hshortPaths hsource hcreate
    obtain ⟨rfl, rfl⟩ := hready.of_run hsource hcreate hrun
    have hwanted := (attempts_directory hready).1
    have hsorted : (c.visited t₁ source (t.placeOf source) deepest []).Pairwise (· < ·) :=
      pairwise_visited hready.wellFormed deepest []
    have hnodup : (c.visited t₁ source (t.placeOf source) deepest []).Nodup := by
      refine hsorted.imp fun {route route'} hlt heq => ?_
      subst heq
      exact List.lt_irrefl route hlt
    obtain ⟨hsummaries, hprogress⟩ := (Progress.start hready.wellFormed).attempts hready
      (fun route hroute => ((hwanted route).mp hroute).1) hnodup (by simp) (by simp)
    rw [hsummaries]
    exact ⟨_, convertsAll_of_progress hready (fun _ => hgrows.file? id) hsorted hwanted
      (by simpa using hprogress)⟩
  · cases hbegin

/-- Files that can be converted, that cannot, and that are not to be. -/
def mixedTree : FileTree :=
  .ofFiles [] [(⟨"s/a.echo"⟩, "let x = 1;".toUTF8), (⟨"s/sub/B.ECHO"⟩, "let x = ;".toUTF8),
    (⟨"s/notes.txt"⟩, "x".toUTF8)]

theorem convertDirectory_convertsAll_mixedTree : ∃ summary t',
    (convertDirectory (m := StateM FileTree) {} ⟨"s"⟩ ⟨"out"⟩).run.run mixedTree = (.ok summary, t') ∧
      ∃ routes, ConvertsAll {} ⟨"s"⟩ ⟨"out"⟩ mixedTree (mixedTree.createDirectories ⟨"out"⟩).2 t' routes
        summary := by
  have ht : mixedTree.WellFormed := FileTree.wellFormed_ofFiles _ _
  have hplaces : mixedTree.placeOf ⟨"s"⟩ = ["work", "s"] ∧ mixedTree.placeOf ⟨"out"⟩ = ["work", "out"] := by
    decide +kernel
  have hapart : mixedTree.placeOf ⟨"s"⟩ = mixedTree.placeOf ⟨"out"⟩ ∨
      ¬ mixedTree.placeOf ⟨"s"⟩ <+: mixedTree.placeOf ⟨"out"⟩ ∧
        ¬ mixedTree.placeOf ⟨"out"⟩ <+: mixedTree.placeOf ⟨"s"⟩ := by
    rw [hplaces.1, hplaces.2]
    decide
  have hshortPaths : ShortPaths {} (mixedTree.createDirectories ⟨"out"⟩).2 ⟨"s"⟩ (mixedTree.placeOf ⟨"s"⟩) :=
    .of_entries (FileTree.createDirectories_grows ht _).wellFormed (by rw [hplaces.1]; decide +kernel)
  have hresult : ((convertDirectory (m := StateM FileTree) {} ⟨"s"⟩ ⟨"out"⟩).run.run
      mixedTree).1.isOk = true := by
    decide +kernel
  rcases hrun : (convertDirectory (m := StateM FileTree) {} ⟨"s"⟩ ⟨"out"⟩).run.run mixedTree with
    ⟨e | summary, t'⟩ <;> rw [hrun] at hresult
  · cases hresult
  · exact ⟨summary, t', rfl, convertDirectory_convertsAll ht rfl rfl hapart hshortPaths hrun⟩

/-! ## Paths that are too long -/

/-- A directory is passed over if nothing in it is taken for a directory or is selected. -/
theorem run_convertWithin_idle {directory : Path} {place : List String}
    (hresolve : t.resolve directory = .ok place) (hplace : t.entry? place = some .directory)
    (hunlock : t.unlock place = .ok ())
    (hidle : ∀ name ∈ t.namesIn place, t.isDirectory (directory.join ⟨name⟩) = false ∧
      c.selects (directory.join ⟨name⟩) = false) (output : Path) (depth : Nat) (route : List String) :
    (c.convertWithin (m := StateM FileTree) output (depth + 1) directory route).run.run t =
      (.ok {}, t) := by
  rw [convertWithin_succ, run_bind, run_list, FileTree.list_eq hresolve hplace, hunlock]
  dsimp only [Except.map, Except.mapError]
  have hsorted : ∀ name ∈ sortNames (t.namesIn place), t.isDirectory (directory.join ⟨name⟩) = false ∧
      c.selects (directory.join ⟨name⟩) = false :=
    fun name hname => hidle name ((perm_sortNames _).subset hname)
  generalize sortNames (t.namesIn place) = names at hsorted
  induction names with
  | nil => rfl
  | cons name names ih =>
    rw [List.forall_mem_cons] at hsorted
    rw [List.foldlM_cons, run_bind, run_visit, hsorted.1.1, hsorted.1.2]
    exact ih hsorted.2

/-- A long way to a directory nearby. -/
def detour (n : Nat) : Path :=
  .ofSegments (List.replicate (n + 1) "." ++ ["s"])

theorem size_detour (n : Nat) : (detour n).text.utf8ByteSize = 2 * n + 3 := by
  have hdots : (Path.ofSegments (List.replicate (n + 1) ".")).text.utf8ByteSize = 2 * n + 1 := by
    induction n with
    | zero => decide
    | succ n ih =>
      rw [List.replicate_succ', Path.ofSegments_concat (by simp), String.utf8ByteSize_append,
        String.utf8ByteSize_append, ih]
      rfl
  rw [detour, Path.ofSegments_concat (by simp), String.utf8ByteSize_append, String.utf8ByteSize_append,
    hdots]
  rfl

theorem mem_detour {n : Nat} {segment : String} (h : segment ∈ List.replicate (n + 1) "." ++ ["s"]) :
    segment = "." ∨ segment = "s" :=
  (List.mem_append.mp h).imp List.eq_of_mem_replicate List.mem_singleton.mp

theorem segments_detour (n : Nat) : (detour n).segments = List.replicate (n + 1) "." ++ ["s"] := by
  refine Path.segments_ofSegments (by simp) fun segment hsegment => ?_
  rcases mem_detour hsegment with rfl | rfl <;> decide

theorem checkPath_detour {n : Nat} (h : n < 2046) : FileTree.checkPath (detour n) = .ok () := by
  have hsize := size_detour n
  refine FileTree.checkPath_eq_ok.mpr ⟨fun hnul => ?_, fun hempty => ?_, by omega⟩
  · obtain ⟨segment, hsegment, hmem⟩ := Path.mem_text_ofSegments hnul (by decide)
    rcases mem_detour hsegment with rfl | rfl <;> exact absurd hmem (by decide)
  · rw [hempty] at hsize
    simp at hsize

theorem origin_detour (t : FileTree) (n : Nat) : t.origin (detour n) = t.here := by
  have : ¬ (detour n).isAbsolute = true := by
    rw [Path.isAbsolute_iff, segments_detour]
    simp [List.replicate_succ]
  rw [FileTree.origin, if_neg this]

theorem opens_detour {n : Nat} (h : n < 2046) (ht : t.WellFormed)
    (hdirectory : t.entry? (t.here ++ ["s"]) = some .directory) : t.Opens (detour n) (t.here ++ ["s"]) := by
  refine ⟨?_, hdirectory, .inr (checkPath_detour h)⟩
  have hidle : ∀ s ∈ List.replicate (n + 1) ".", Path.isIdle s = true := fun s hs => by
    rw [List.eq_of_mem_replicate hs]
    rfl
  rw [FileTree.reach, origin_detour, segments_detour, FileTree.follow_concat,
    FileTree.follow_idle ht.here hidle]
  show t.step t.here "s" = _
  have hname : IsName "s" := ⟨by decide, by decide, by decide, by decide, by decide, by decide⟩
  rw [FileTree.step_name hname, FileTree.enter_of_directory ht.here]
  rfl

def buriedTree : FileTree :=
  .ofFiles [] [(⟨"s/subdir/a.echo"⟩, "let x = 1;".toUTF8)]

/-- A file is missed if the path of its directory is too long, and nothing is reported. -/
theorem convertDirectory_misses_buriedTree :
    Wanted {} buriedTree (buriedTree.placeOf (detour 2044)) ["subdir", "a.echo"] ∧
      ∃ t', (convertDirectory (m := StateM FileTree) {} (detour 2044) ⟨"out"⟩).run.run buriedTree =
        (.ok { processed := 0, converted := 0, warnings := [], errors := [] }, t') := by
  have ht : buriedTree.WellFormed := FileTree.wellFormed_ofFiles _ _
  have hdirectory : buriedTree.entry? (buriedTree.here ++ ["s"]) = some .directory :=
    FileTree.any_isDirectory.mp (by decide +kernel)
  have hopens := opens_detour (by decide : 2044 < 2046) ht hdirectory
  have hsource := hopens.isDirectory (FileTree.checkPath_eq_ok.mp (checkPath_detour (by decide))).2.1
  have hcreate := FileTree.createDirectories_of_isOk (t := buriedTree) (p := ⟨"out"⟩) (by decide +kernel)
  have hgrows := FileTree.createDirectories_grows ht ⟨"out"⟩
  have hopens' := hopens.grows hgrows
  have hresolve := FileTree.resolve_eq_ok.mpr ⟨checkPath_detour (by decide), hopens'.reach⟩
  have hname : IsName "subdir" := ⟨by decide, by decide, by decide, by decide, by decide, by decide⟩
  have hnames : (buriedTree.createDirectories ⟨"out"⟩).2.namesIn (buriedTree.here ++ ["s"]) =
      ["subdir"] := by decide +kernel
  refine ⟨?_, (buriedTree.createDirectories ⟨"out"⟩).2, ?_⟩
  · rw [← FileTree.reach_eq_placeOf hopens.reach]
    exact ⟨by decide +kernel, by decide +kernel⟩
  · rw [run_convertDirectory, if_pos hsource, hcreate]
    refine run_convertWithin_idle hresolve hopens'.directory (by decide +kernel) ?_ _ 4095 _
    rw [hnames]
    refine List.forall_mem_singleton.mpr ⟨?_, ?_⟩
    · rw [← Bool.not_eq_true, FileTree.isDirectory_eq_true]
      rintro ⟨place, hplace, -⟩
      have hshort := (FileTree.checkPath_eq_ok.mp (FileTree.resolve_eq_ok.mp hplace).1).2.2
      have hsize := (detour 2044).add_size_le_size_join hname.slash
      have hsubdir : "subdir".utf8ByteSize = 6 := by decide
      rw [size_detour, hsubdir] at hsize
      omega
    · rw [selects_join {} _ hname]
      decide +kernel

end Converter

end Downlevel
