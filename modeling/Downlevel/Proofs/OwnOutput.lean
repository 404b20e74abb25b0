import Mathlib.Data.Set.Card
import Downlevel.Proofs.DirectoryConversion

/-!
# A conversion does not convert its own results

A conversion of a directory processes the files that were to be converted before it began, each once, and
none that it writes, wherever the results go (`Converter.convertDirectory_processes_wanted`), as long as
the walk goes undisturbed. That is so in particular if the results go to the same directory or to one that
lies apart (`Converter.undisturbed_of_apart`). If they go to a directory that has its turn later, they are
taken for files to be converted (`Converter.convertDirectory_converts_result`).
-/

namespace Downlevel

/-! ## Where results go -/

namespace Path

theorem splitExtension_fst {name : String} (h : name ≠ "") :
    (splitExtension name).1 ≠ "" ∧ (∀ c ∈ (splitExtension name).1.toList, c ∈ name.toList) ∧
      ((splitExtension name).2 = none → (splitExtension name).1 = name) := by
  unfold splitExtension
  dsimp only
  split
  · exact ⟨h, fun _ => id, fun _ => rfl⟩
  · exact ⟨h, fun _ => id, fun _ => rfl⟩
  · rename_i c stem hsingle hdrop
    split_ifs
    · exact ⟨h, fun _ => id, fun _ => rfl⟩
    · refine ⟨fun hempty => ?_, fun d hd => ?_, nofun⟩
      · exact hsingle (by simpa using congrArg String.toList hempty)
      · rw [String.toList_ofList, List.mem_reverse] at hd
        have hmem := List.mem_of_mem_drop (hdrop ▸ List.mem_cons_of_mem c hd)
        exact List.mem_reverse.mp hmem

/-- A name with another extension can stand in a path. -/
theorem isSegment_replaceExtension {name extension : String} (hname : IsName name)
    (hslash : '/' ∉ extension.toList) : IsSegment (replaceExtension name extension) := by
  obtain ⟨hne, hsub, hnone⟩ := splitExtension_fst hname.nonempty
  rw [replaceExtension]
  split
  · exact ⟨by decide, by decide⟩
  · rename_i stem extension? hdot hsplit
    rw [hsplit] at hne hsub hnone
    have hstem : '/' ∉ stem.toList := fun hmem => hname.slash (hsub _ hmem)
    split_ifs
    · refine ⟨hstem, ?_⟩
      have hone : stem ≠ "." := by
        rintro rfl
        cases extension? with
        | none => exact hname.dot (hnone rfl).symm
        | some e => exact hdot e rfl rfl
      simp only [isIdle, Bool.or_eq_false_iff, decide_eq_false_iff_not]
      exact ⟨hne, hone⟩
    · have hlong : 1 < (stem ++ "." ++ extension).toList.length := by
        have hpos := List.length_pos_iff.mpr (mt String.toList_eq_nil_iff.mp hne)
        simp only [String.toList_append, List.length_append]
        exact Nat.lt_of_lt_of_le (Nat.add_lt_add_right hpos 1) (Nat.le_add_right _ _)
      refine ⟨by simp [hstem, hslash], ?_⟩
      simp only [isIdle, Bool.or_eq_false_iff, decide_eq_false_iff_not]
      constructor <;> intro heq <;> rw [heq] at hlong <;> exact absurd hlong (by decide)

theorem withExtension_join (p : Path) {name extension : String} (hname : IsName name)
    (hslash : '/' ∉ extension.toList) :
    (p.join ⟨name⟩).withExtension extension = p.join ⟨replaceExtension name extension⟩ := by
  have hsegment := isSegment_replaceExtension hname hslash
  simp only [withExtension, p.fileName?_join hname]
  rw [p.trimmed_join hname.isSegment, List.dropLast_concat, ← p.segments_join hsegment.slash,
    ofSegments_segments]

end Path

namespace Converter

variable {c : Converter} {t t' t₁ : FileTree} {source output : Path} {src out route : List String}

/-- The name under which the result of a file is written. -/
def landingName (c : Converter) (name : String) : String :=
  match c.outputExtension with
  | some extension => Path.replaceExtension name extension
  | none => name

/-- Where the result of the file of a route is written, below the output directory. -/
def landing (c : Converter) (route : List String) : List String :=
  (if c.keepPlaces then route.dropLast else []) ++ [c.landingName (route.getLastD "")]

/-- An extension is no path. -/
def SoundExtension (c : Converter) : Prop :=
  ∀ extension ∈ c.outputExtension, '/' ∉ extension.toList

theorem landing_concat (c : Converter) (names : List String) (name : String) :
    c.landing (names ++ [name]) = (if c.keepPlaces then names else []) ++ [c.landingName name] := by
  rw [landing, List.dropLast_concat, List.getLastD_concat]

section Landing

variable (hsound : c.SoundExtension) {name : String}
include hsound

theorem isSegment_landingName (hname : IsName name) : IsSegment (c.landingName name) := by
  cases hextension : c.outputExtension with
  | none =>
    simp only [landingName, hextension]
    exact hname.isSegment
  | some extension =>
    simp only [landingName, hextension]
    exact Path.isSegment_replaceExtension hname (hsound extension hextension)

theorem renamed_join (p : Path) (hname : IsName name) :
    c.renamed (p.join ⟨name⟩) = p.join ⟨c.landingName name⟩ := by
  cases hextension : c.outputExtension with
  | none => simp only [renamed, landingName, hextension]
  | some extension =>
    simp only [renamed, landingName, hextension]
    exact p.withExtension_join hname (hsound extension hextension)

theorem target_eq_landing (source output : Path) (hne : route ≠ []) (hnames : ∀ n ∈ route, IsName n) :
    c.target (source.down route) output route = .ok (output.down (c.landing route)) := by
  obtain ⟨names, name, rfl⟩ := (List.eq_nil_or_concat' route).resolve_left hne
  have hname : IsName name := hnames name (by simp)
  rw [target, landing_concat]
  by_cases hkeep : c.keepPlaces = true
  · rw [if_pos hkeep, if_pos hkeep, output.join_ofSegments hne hnames, Path.down_concat,
      renamed_join hsound _ hname, ← Path.down_concat]
  · rw [if_neg hkeep, if_neg hkeep, targetIn, Path.down_concat, Path.fileName?_join _ hname]
    simp only [renamed_join hsound output hname]
    rfl

end Landing

theorem dropLast_landing (c : Converter) (route : List String) : (c.landing route).dropLast <+: route := by
  rw [landing, List.dropLast_concat]
  split
  · exact List.dropLast_prefix route
  · exact List.nil_prefix

/-- Results that go to the same directory, or to one that lies apart, do not disturb the walk. -/
theorem undisturbed_of_apart (hapart : src = out ∨ ¬ src <+: out ∧ ¬ out <+: src) :
    c.Undisturbed t source src out c.landing :=
  .inr (.of_apart hapart fun route _ => c.dropLast_landing route)

/-! ## What is processed -/

theorem underway_landing (ht : t.WellFormed) (hsound : c.SoundExtension)
    (hshortPaths : c.ShortPaths t₁ source (t.placeOf source)) (hsource : t.isDirectory source = true)
    (hcreate : t.createDirectories output = (.ok (), t₁)) :
    c.Underway t₁ source output (t.placeOf source) (t.placeOf output) c.landing := by
  have hgrows := FileTree.createDirectories_grows ht output
  rw [hcreate] at hgrows
  have hopens := (FileTree.opens_of_isDirectory hsource).grows hgrows
  obtain ⟨place, hresolve, -⟩ := FileTree.isDirectory_eq_true.mp hsource
  have hroute (route : List String) (hwanted : c.Wanted t₁ (t.placeOf source) route) :
      route ≠ [] ∧ ∀ n ∈ route, IsName n :=
    ⟨route_ne_nil_of_file hopens hwanted.1,
      hgrows.wellFormed.isName (FileTree.entry?_ne_none hwanted.1)⟩
  exact
    { wellFormed := hgrows.wellFormed
      text := (FileTree.checkPath_eq_ok.mp (FileTree.resolve_eq_ok.mp hresolve).1).2.1
      opensSource := hopens
      opensOutput := FileTree.opens_of_createDirectories ht hcreate
      shortPaths := hshortPaths
      targets := fun route hwanted =>
        target_eq_landing hsound source output (hroute route hwanted).1 (hroute route hwanted).2
      lands := fun route hwanted => by
        obtain ⟨hne, hnames⟩ := hroute route hwanted
        obtain ⟨names, name, rfl⟩ := (List.eq_nil_or_concat' route).resolve_left hne
        refine ⟨_, _, c.landing_concat names name, fun n hn => ?_,
          isSegment_landingName hsound (hnames name (by simp))⟩
        split at hn
        · exact hnames n (List.mem_append_left _ hn)
        · cases hn }

/-- Whatever becomes of it, a file that is attempted is one file. -/
theorem single_attempt (c : Converter) (source target : Path) (t : FileTree) :
    ((c.attempt (m := StateM FileTree) source target).run t).1.Single := by
  rw [run_attempt, run_convertFile]
  rcases c.loadOutcome t source with e | rendered
  · exact ⟨rfl, rfl⟩
  · dsimp only
    rcases (store (m := StateM FileTree) target rendered.code).run.run t with ⟨e | _, t'⟩
    · exact ⟨rfl, rfl⟩
    · exact ⟨rfl, rfl⟩

theorem processed_attempts (land : List String → List String) (routes : List (List String))
    (t : FileTree) : (Summary.total (c.attempts source output land routes t).1).processed = routes.length := by
  induction routes generalizing t with
  | nil => rfl
  | cons route routes ih =>
    have hsingle := c.single_attempt (source.down route) (output.down (land route)) t
    simp only [attempts, Summary.total, Summary.merge, ih, hsingle.processed, List.length_cons]
    omega

/-- A conversion of a directory processes just the files that were to be converted before, each once and in
order. None of them is one that it made. -/
theorem convertDirectory_processes_wanted {c : Converter} {source output : Path} {t t' : FileTree}
    {summary : Summary} (ht : t.WellFormed) (hsound : c.SoundExtension)
    (hshortPaths : c.ShortPaths (t.createDirectories output).2 source (t.placeOf source))
    (hundisturbed : c.Undisturbed (t.createDirectories output).2 source (t.placeOf source)
      (t.placeOf output) c.landing)
    (hrun : (c.convertDirectory (m := StateM FileTree) source output).run.run t = (.ok summary, t')) :
    summary.processed = {route | c.Wanted t (t.placeOf source) route}.ncard ∧
      ∃ routes summaries, routes.Pairwise (· < ·) ∧
        (∀ route, route ∈ routes ↔ c.Wanted t (t.placeOf source) route) ∧
        c.attempts source output c.landing routes (t.createDirectories output).2 = (summaries, t') ∧
        summary = .total summaries ∧
        ∀ place, t.file? place = none → (t'.file? place).isSome = true →
          ∀ route ∈ routes, place ≠ t.placeOf source ++ route := by
  have hgrows := FileTree.createDirectories_grows ht output
  rw [run_convertDirectory] at hrun
  split at hrun
  · rename_i hsource
    rcases hcreate : t.createDirectories output with ⟨e | _, t₁⟩ <;>
      rw [hcreate] at hrun hgrows hshortPaths hundisturbed
    · cases hrun
    have hunderway := underway_landing ht hsound hshortPaths hsource hcreate
    obtain ⟨hvisited, hattempts⟩ := hunderway.attempts hundisturbed
    have hwanted (route : List String) : route ∈ c.visited t₁ source (t.placeOf source) deepest [] ↔
        c.Wanted t (t.placeOf source) route := by
      rw [hvisited, Wanted, Wanted, hgrows.file? id]
    obtain ⟨rfl, rfl⟩ := hattempts summary t' hrun
    rw [Summary.empty_merge]
    refine ⟨?_, _, _, pairwise_visited hunderway.wellFormed deepest [], hwanted, rfl, rfl, ?_⟩
    · have hset : {route | c.Wanted t (t.placeOf source) route} =
          (c.visited t₁ source (t.placeOf source) deepest []).toFinset := by
        ext route
        simp [hwanted]
      rw [processed_attempts, hset, Set.ncard_coe_finset,
        List.toFinset_card_of_nodup (nodup_visited hunderway.wellFormed deepest [])]
    · rintro place hnone - route hroute rfl
      have hfile := ((hwanted route).mp hroute).1
      rw [hnone] at hfile
      cases hfile
  · cases hrun

/-- The entries of a tree are all that there is to look at. -/
theorem NeverAhead.of_entries {land : List String → List String}
    (h : ∀ place ∈ t.entries.map Prod.fst, (t.file? place).isSome = true →
      ∀ made ∈ (out ++ land (place.drop src.length)).inits, src <+: made → t.entry? made = none →
        ¬ place.drop src.length < (made.drop src.length).dropLast) : c.NeverAhead t src out land := by
  intro route directory name hwanted hprefix hnone _
  have hsome : (t.entry? (src ++ route)).isSome = true :=
    Option.isSome_iff_ne_none.mpr (FileTree.entry?_ne_none hwanted.1)
  have hne : src ++ route ≠ [] := by
    intro hnil
    have hfile := hwanted.1
    rw [hnil] at hfile
    cases hfile
  have hahead := h (src ++ route) ((FileTree.mem_keys hne).mpr hsome) hwanted.1
  rw [List.drop_left] at hahead
  have hmade := hahead (src ++ (directory ++ [name])) ((List.mem_inits _ _).mpr hprefix)
    (List.prefix_append _ _) hnone
  rwa [List.drop_left, List.dropLast_concat] at hmade

/-- Files of a directory, and a place for their results in it that comes before them. -/
def earlyOutput : FileTree :=
  .ofFiles [] [(⟨"s/m/a.echo"⟩, "let x = 1;".toUTF8), (⟨"s/z.js"⟩, "let y = ;".toUTF8)]

/-- Converts scripts, and programs to scripts. -/
def scripts : Converter where
  extensions := ["echo", "js"]
  outputExtension := some "js"

theorem convertDirectory_processes_wanted_earlyOutput : ∃ summary t',
    (scripts.convertDirectory (m := StateM FileTree) ⟨"s"⟩ ⟨"s/a"⟩).run.run earlyOutput = (.ok summary, t') ∧
      summary.processed = {route | scripts.Wanted earlyOutput ["work", "s"] route}.ncard ∧
      summary.processed = 2 ∧ (t'.file? ["work", "s", "a", "m", "a.js"]).isSome = true := by
  have ht : earlyOutput.WellFormed := FileTree.wellFormed_ofFiles _ _
  have hplaces : earlyOutput.placeOf ⟨"s"⟩ = ["work", "s"] ∧
      earlyOutput.placeOf ⟨"s/a"⟩ = ["work", "s", "a"] := by
    decide +kernel
  have hsound : scripts.SoundExtension := by
    rintro extension ⟨⟩
    decide
  have hshortPaths : scripts.ShortPaths (earlyOutput.createDirectories ⟨"s/a"⟩).2 ⟨"s"⟩ ["work", "s"] :=
    .of_entries (FileTree.createDirectories_grows ht _).wellFormed (by decide +kernel)
  have hahead : scripts.NeverAhead (earlyOutput.createDirectories ⟨"s/a"⟩).2 ["work", "s"]
      ["work", "s", "a"] scripts.landing :=
    .of_entries (by decide +kernel)
  have hresult : ((scripts.convertDirectory (m := StateM FileTree) ⟨"s"⟩ ⟨"s/a"⟩).run.run
        earlyOutput).1.map Summary.processed = .ok 2 ∧
      (((scripts.convertDirectory (m := StateM FileTree) ⟨"s"⟩ ⟨"s/a"⟩).run.run earlyOutput).2.file?
        ["work", "s", "a", "m", "a.js"]).isSome = true := by
    decide +kernel
  rcases hrun : (scripts.convertDirectory (m := StateM FileTree) ⟨"s"⟩ ⟨"s/a"⟩).run.run earlyOutput with
    ⟨e | summary, t'⟩ <;> rw [hrun] at hresult
  · cases hresult.1
  · rw [← hplaces.1] at hshortPaths
    rw [← hplaces.1, ← hplaces.2] at hahead
    have hprocessed := (convertDirectory_processes_wanted ht hsound hshortPaths (.inr hahead) hrun).1
    rw [hplaces.1] at hprocessed
    exact ⟨summary, t', rfl, hprocessed, Except.ok.inj hresult.1, hresult.2⟩

/-- Files of a directory, and a place for their results in it that comes after them. -/
def lateOutput : FileTree :=
  .ofFiles [] [(⟨"s/a.echo"⟩, "let x = 1;".toUTF8)]

/-- A result that comes to stand in a directory that has yet to be listed is converted once more. -/
theorem convertDirectory_converts_result :
    (∀ route, Wanted {} lateOutput (lateOutput.placeOf ⟨"s"⟩) route ↔ route = ["a.echo"]) ∧
      lateOutput.file? ["work", "s", "out", "a.echo"] = none ∧
      ∃ summary t', (convertDirectory (m := StateM FileTree) {} ⟨"s"⟩ ⟨"s/out"⟩).run.run lateOutput =
          (.ok summary, t') ∧ summary.processed = 2 ∧
        t'.file? ["work", "s", "out", "out", "a.echo"] = some "var x = 1;\n".toUTF8 := by
  have hplace : lateOutput.placeOf ⟨"s"⟩ = ["work", "s"] := by decide +kernel
  have hkeys : lateOutput.entries.map Prod.fst = [["work", "s", "a.echo"], ["work", "s"], ["work"]] := by
    decide +kernel
  have hresult : ((convertDirectory (m := StateM FileTree) {} ⟨"s"⟩ ⟨"s/out"⟩).run.run lateOutput).1.map
        Summary.processed = .ok 2 ∧
      ((convertDirectory (m := StateM FileTree) {} ⟨"s"⟩ ⟨"s/out"⟩).run.run lateOutput).2.file?
        ["work", "s", "out", "out", "a.echo"] = some "var x = 1;\n".toUTF8 := by
    decide +kernel
  refine ⟨fun route => ⟨fun hwanted => ?_, ?_⟩, by decide +kernel, ?_⟩
  · have hmem : lateOutput.placeOf ⟨"s"⟩ ++ route ∈ lateOutput.entries.map Prod.fst :=
      (FileTree.mem_keys (by simp [hplace])).mpr
        (Option.isSome_iff_ne_none.mpr (FileTree.entry?_ne_none hwanted.1))
    have hne := route_ne_nil_of_file
      (FileTree.opens_of_isDirectory (by decide +kernel : lateOutput.isDirectory ⟨"s"⟩ = true)) hwanted.1
    rw [hkeys, hplace] at hmem
    simpa [hne] using hmem
  · rintro rfl
    exact ⟨by decide +kernel, by decide +kernel⟩
  · rcases hrun : (convertDirectory (m := StateM FileTree) {} ⟨"s"⟩ ⟨"s/out"⟩).run.run lateOutput with
      ⟨e | summary, t'⟩ <;> rw [hrun] at hresult
    · cases hresult.1
    · exact ⟨summary, t', rfl, Except.ok.inj hresult.1, hresult.2⟩

end Converter

end Downlevel
