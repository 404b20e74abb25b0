import Downlevel.Proofs.History

/-!
# What a run leaves behind, and what it tells

Whatever comes of a run, a file that is not as it was before holds the result of a conversion of this
run, a new directory is on the way to such a result or to where those of a given directory go, and an
input file that cannot be read or converted changes nothing (`run_leaves_results`). A given directory
that cannot be listed may change something, because the directory for its results is made before
(`run_makes_output_directory`). A run that gets to all of its inputs tells every warning of the files that
it wrote, once; one that is cut short tells none of them (`run_tells_warnings`), although it may have
written files before (`run_drops_warning`).
-/

namespace Downlevel

/-! ## What changes -/

variable {t t' : FileTree} {place : List String} {es : List FileEffect}

theorem FileTree.write_eq_ok {p : Path} {bytes : ByteArray} (ht : t.WellFormed)
    (h : t.write p bytes = .ok t') :
    Grows (fun _ => False) (· = t.placeOf p) t t' ∧ t'.file? (t.placeOf p) = some bytes := by
  rw [write] at h
  rcases hnew : t.placeNew p with e | _ | place' <;> rw [hnew] at h
  · cases h
  · cases h
  · simp only [Bind.bind, Except.bind] at h
    split at h
    · cases h
    · rename_i hfree
      cases h
      rw [← placeNew_eq_placeOf hnew]
      obtain ⟨-, place, name, -, rfl, hname, hplace, -⟩ := placeNew_eq_some hnew
      refine ⟨.insert_file ht hplace hname (fun hdirectory => hfree ?_) rfl, ?_⟩
      · simp [hdirectory, Entry.isDirectory]
      · rw [file?_eq_some, entry?_insert _ _ (by simp), if_pos rfl]

/-- What may change a tree. -/
def FileEffect.changes : FileEffect → Bool
  | .createDirectories .. | .write .. => true
  | _ => false

namespace FileEffect.Happens

variable {e : FileEffect}

/-- One effect changes files only where it writes, and makes directories only on the way to one that is
asked for. -/
theorem grows (h : e.Happens t t') (ht : t.WellFormed) :
    FileTree.Grows (fun place => ∃ p r, e = .createDirectories p r ∧ t.OnWayTo p place)
      (fun place => ∃ p bytes, e = .write p bytes (.ok ()) ∧ t.placeOf p = place) t t' := by
  cases h with
  | isDirectory | list | read | unwritten => exact .refl ht
  | @createDirectories p r _ _ h =>
    have hgrows := FileTree.createDirectories_grows ht p
    rw [h] at hgrows
    exact hgrows.mono (fun place hplace => ⟨p, r, rfl, hplace⟩) nofun
  | written h =>
    refine (FileTree.write_eq_ok ht h).1.mono nofun ?_
    rintro _ rfl
    exact ⟨_, _, rfl, rfl⟩

theorem of_isDirectory {p : Path} {r : Bool} (h : (FileEffect.isDirectory p r).Happens t t') :
    t' = t ∧ t.isDirectory p = r := by
  cases h
  exact ⟨rfl, rfl⟩

theorem eq_of_changes (h : e.Happens t t') (he : e.changes = false) : t' = t := by
  cases h with
  | isDirectory | list | read | unwritten => rfl
  | createDirectories | written => cases he

end FileEffect.Happens

theorem FileTree.Grows.onWayTo {D F : List String → Prop} (h : Grows D F t t') {p : Path} :
    t'.OnWayTo p place ↔ t.OnWayTo p place := by
  simp only [OnWayTo, h.placeOf]

theorem FileTree.Grows.isDirectory {D F : List String → Prop} (h : Grows D F t t') {p : Path}
    (hp : t.isDirectory p = true) : t'.isDirectory p = true := by
  obtain ⟨place, hresolve, -⟩ := isDirectory_eq_true.mp hp
  have htext := (checkPath_eq_ok.mp (resolve_eq_ok.mp hresolve).1).2.1
  exact ((opens_of_isDirectory hp).grows h).isDirectory htext

namespace Happen

/-- A file that has changed holds what was written there last. -/
theorem exists_write (h : Happen es t t') (ht : t.WellFormed)
    (hplace : t'.file? place ≠ t.file? place) :
    ∃ p bytes, .write p bytes (.ok ()) ∈ es ∧ t.placeOf p = place ∧ t'.file? place = some bytes := by
  induction h with
  | nil => exact absurd rfl hplace
  | @cons e es t t₁ t' he hs ih =>
    have hgrows := he.grows ht
    by_cases hlater : t'.file? place = t₁.file? place
    · rw [hlater] at hplace ⊢
      by_cases hwrites : ∃ p bytes, e = .write p bytes (.ok ()) ∧ t.placeOf p = place
      · obtain ⟨p, bytes, rfl, rfl⟩ := hwrites
        cases he with
        | written h => exact ⟨p, bytes, List.mem_cons_self, rfl, (FileTree.write_eq_ok ht h).2⟩
      · exact absurd (hgrows.file? hwrites) hplace
    · obtain ⟨p, bytes, hmem, hp, hbytes⟩ := ih hgrows.wellFormed hlater
      exact ⟨p, bytes, List.mem_cons_of_mem _ hmem, (hgrows.placeOf p).symm.trans hp, hbytes⟩

/-- A new directory is on the way to one that was asked for. -/
theorem exists_createDirectories (h : Happen es t t') (ht : t.WellFormed)
    (hnew : t'.entry? place = some .directory) (hold : t.entry? place ≠ some .directory) :
    ∃ p r, .createDirectories p r ∈ es ∧ t.OnWayTo p place := by
  induction h with
  | nil => exact absurd hnew hold
  | @cons e es t t₁ t' he hs ih =>
    have hgrows := he.grows ht
    by_cases hnow : t₁.entry? place = some .directory
    · rcases hgrows.entry place with hsame | ⟨⟨p, r, rfl, hplace⟩, -⟩ | ⟨-, -, bytes, hfile⟩
      · exact absurd (hsame ▸ hnow) hold
      · exact ⟨p, r, List.mem_cons_self, hplace⟩
      · cases hnow.symm.trans hfile
    · obtain ⟨p, r, hmem, hplace⟩ := ih hgrows.wellFormed hnew hnow
      exact ⟨p, r, List.mem_cons_of_mem _ hmem, hgrows.onWayTo.mp hplace⟩

theorem isDirectory_of_isDirectory (h : Happen es t t') (ht : t.WellFormed) {p : Path}
    (hp : t.isDirectory p = true) : t'.isDirectory p = true := by
  induction h with
  | nil => exact hp
  | cons he _ ih => exact ih (he.grows ht).wellFormed ((he.grows ht).isDirectory hp)

/-- What was found to be a directory is one in the end. -/
theorem isDirectory (h : Happen es t t') (ht : t.WellFormed) {p : Path}
    (hmem : .isDirectory p true ∈ es) : t'.isDirectory p = true := by
  induction h with
  | nil => cases hmem
  | cons he hs ih =>
    rcases List.mem_cons.mp hmem with rfl | hmem
    · obtain ⟨rfl, hp⟩ := he.of_isDirectory
      exact hs.isDirectory_of_isDirectory ht hp
    · exact ih (he.grows ht).wellFormed hmem

theorem eq_of_changes (h : Happen es t t') (hes : ∀ e ∈ es, e.changes = false) : t' = t := by
  induction h with
  | nil => rfl
  | cons he _ ih =>
    rw [List.forall_mem_cons] at hes
    rw [ih hes.2, he.eq_of_changes hes.1]

end Happen

/-! ## Visits -/

theorem mem_effects_conversion {source target : Path} {bytes : ByteArray} {rendered : Rendered}
    {r : Except OsError Unit} {e : FileEffect}
    (h : e ∈ (Visit.conversion source target bytes rendered r).effects) :
    e = .read source (.ok bytes) ∨ (∃ p, e = .createDirectories p (.ok ())) ∨
      e = .write target rendered.code.toUTF8 r := by
  rw [Visit.effects, List.cons_append, List.mem_cons, List.mem_append, List.mem_singleton] at h
  refine h.imp_right (Or.imp_left fun h => ?_)
  obtain ⟨p, -, rfl⟩ := List.mem_map.mp h
  exact ⟨p, rfl⟩

theorem mem_effects_of_write {v : Visit} {p : Path} {bytes : ByteArray}
    (h : .write p bytes (.ok ()) ∈ v.effects) : ∃ source contents rendered,
      v = .conversion source p contents rendered (.ok ()) ∧ bytes = rendered.code.toUTF8 := by
  cases v with
  | conversion source target contents rendered r =>
    rcases mem_effects_conversion h with h | ⟨_, h⟩ | h
    · cases h
    · cases h
    · obtain ⟨rfl, rfl, rfl⟩ := FileEffect.write.inj h
      exact ⟨source, contents, rendered, rfl, rfl⟩
  | _ => simp [Visit.effects] at h

theorem mem_effects_of_createDirectories {v : Visit} {p : Path} {r : Except OsError Unit}
    (h : .createDirectories p r ∈ v.effects) :
    (∃ source, v = .directory source p r) ∨ (∃ source bytes e, v = .blocked source bytes p e) ∨
      ∃ source target bytes rendered r, v = .conversion source target bytes rendered r ∧
        target.parent? = some p := by
  cases v with
  | question | listing | read => simp [Visit.effects] at h
  | directory source output r =>
    simp only [Visit.effects, List.mem_cons, reduceCtorEq, false_or, List.not_mem_nil, or_false] at h
    cases h
    exact .inl ⟨source, rfl⟩
  | blocked source bytes parent e =>
    simp only [Visit.effects, List.mem_cons, reduceCtorEq, false_or, List.not_mem_nil, or_false] at h
    cases h
    exact .inr (.inl ⟨source, bytes, e, rfl⟩)
  | conversion source target bytes rendered r =>
    simp only [Visit.effects, opening, List.cons_append, List.mem_cons, reduceCtorEq, false_or,
      List.mem_append, List.mem_map, Option.mem_toList, List.not_mem_nil, or_false] at h
    obtain ⟨parent, hparent, heq⟩ := h
    cases heq
    exact .inr (.inr ⟨source, target, bytes, rendered, r, rfl, hparent⟩)

namespace Arguments

variable {args : Arguments} {c : Converter} {v : Visit}

/-- The visits that make a directory, and which: for the results of a directory that was given, and for
that of a file that was read and converted. -/
inductive MakesFor (args : Arguments) (c : Converter) : Visit → Path → Prop
  | given {p output : Path} (hp : p ∈ args.files) (houtput : args.directoryTarget p = .ok output)
    (r : Except OsError Unit) : MakesFor args c (.directory p output r) output
  | blocked {source target parent : Path} {bytes : ByteArray} {rendered : Rendered}
    (hinput : args.Input c source target) (hload : c.loaded source (.ok bytes) = .ok rendered)
    (hparent : target.parent? = some parent) (e : OsError) :
    MakesFor args c (.blocked source bytes parent e) parent
  | conversion {source target parent : Path} {bytes : ByteArray} {rendered : Rendered}
    (hinput : args.Input c source target) (hload : c.loaded source (.ok bytes) = .ok rendered)
    (hparent : target.parent? = some parent) (r : Except OsError Unit) :
    MakesFor args c (.conversion source target bytes rendered r) parent

namespace RunVisit

theorem exists_input {source target : Path} {bytes : ByteArray} {rendered : Rendered}
    {r : Except OsError Unit} (h : args.RunVisit c (.conversion source target bytes rendered r)) :
    args.Input c source target ∧ c.loaded source (.ok bytes) = .ok rendered := by
  cases h with
  | input hinput hv =>
    cases hv with
    | conversion _ hload => exact ⟨hinput, hload⟩

/-- An input that cannot be read or converted is read, and that is all. -/
theorem effects_of_error (h : args.RunVisit c v) {source : Path} {contents : Except OsError ByteArray}
    {e : FileError} (hload : c.loaded source contents = .error e) (hmem : .read source contents ∈ v.effects) :
    v.effects = [.read source contents] := by
  cases h with
  | question | listing | directory => simp [Visit.effects] at hmem
  | shown => simpa [Visit.effects, eq_comm] using hmem
  | input hinput hv =>
    cases hv with
    | failed => simpa [Visit.effects, eq_comm] using hmem
    | blocked e' hload' =>
      simp only [Visit.effects, List.mem_cons, FileEffect.read.injEq, reduceCtorEq, List.not_mem_nil,
        or_false] at hmem
      obtain ⟨rfl, rfl⟩ := hmem
      cases hload.symm.trans hload'
    | conversion r hload' =>
      rcases mem_effects_conversion hmem with h | ⟨_, h⟩ | h <;> cases h
      cases hload.symm.trans hload'

theorem makesFor (h : args.RunVisit c v) {p : Path} {r : Except OsError Unit}
    (hmem : .createDirectories p r ∈ v.effects) : args.MakesFor c v p := by
  rcases mem_effects_of_createDirectories hmem with ⟨source, rfl⟩ | ⟨source, bytes, e, rfl⟩ |
    ⟨source, target, bytes, rendered, r, rfl, hparent⟩
  · cases h with
    | directory hp houtput => exact .given hp houtput r
    | input _ hv => cases hv
  · cases h with
    | input hinput hv =>
      cases hv with
      | blocked _ hload hparent => exact .blocked hinput hload hparent e
  · obtain ⟨hinput, hload⟩ := h.exists_input
    exact .conversion hinput hload hparent r

end RunVisit

theorem Input.writes {source target : Path} (h : args.Input c source target) : args.writes = true := by
  by_contra hwrites
  rw [Bool.not_eq_true] at hwrites
  cases h with
  | named _ hdirectory => simp [fileTarget?_eq_none.mpr hwrites] at hdirectory
  | below _ houtput =>
    obtain ⟨hwrite, hout⟩ := writes_eq_false.mp hwrites
    simp [directoryTarget, hwrite, hout] at houtput

theorem RunVisit.changes (h : args.RunVisit c v) (hwrites : args.writes = false) :
    ∀ e ∈ v.effects, e.changes = false := by
  cases h with
  | directory _ houtput =>
    obtain ⟨hwrite, hout⟩ := writes_eq_false.mp hwrites
    simp [directoryTarget, hwrite, hout] at houtput
  | input hinput => simp [hinput.writes] at hwrites
  | question | listing | shown => exact List.forall_mem_singleton.mpr rfl

end Arguments

/-- A file that is not as it was before a run holds the result of a conversion in this run, of what was
read from an input whose result goes there. A directory that was not there before is on the way to where
the results of a given directory go, or to where the result of an input goes that was read and converted
in this run. What counts as a given directory is one, if perhaps only since this run. An input file that
cannot be read or converted changes nothing, and a run that is not to write does not. -/
theorem run_leaves_results (args : Arguments) (input : ByteArray) (t : FileTree) (ht : t.WellFormed) :
    ∃ r t', ∃ visits : List Visit, (args.run (m := StateM FileTree) (pure input)).run t = (r, t') ∧
      (args.run (m := StateM Recorded) (pure input)).run ⟨t, []⟩ = (r, ⟨t', visits.flatMap Visit.effects⟩) ∧
      Happen (visits.flatMap Visit.effects) t t' ∧
      (∀ v ∈ visits, ∃ c, args.converter = .ok c ∧ args.RunVisit c v) ∧
      (∀ place, t'.file? place ≠ t.file? place → ∃ c source target bytes rendered,
        args.converter = .ok c ∧ args.Input c source target ∧ c.loaded source (.ok bytes) = .ok rendered ∧
        .conversion source target bytes rendered (.ok ()) ∈ visits ∧ t.placeOf target = place ∧
        t'.file? place = some rendered.code.toUTF8) ∧
      (∀ place, t'.entry? place = some .directory → t.entry? place ≠ some .directory →
        ∃ c, ∃ v ∈ visits, ∃ directory, args.converter = .ok c ∧ args.MakesFor c v directory ∧
          t.OnWayTo directory place) ∧
      (∀ p output r, .directory p output r ∈ visits → t'.isDirectory p = true) ∧
      (∀ c source contents e, args.converter = .ok c → c.loaded source contents = .error e →
        ∀ v ∈ visits, .read source contents ∈ v.effects → v.effects = [.read source contents]) ∧
      (args.write = false → args.outDir = none → t' = t) := by
  obtain ⟨_, hrecord, hhappen, visits, hvisits, rfl, -⟩ := args.records_run input t []
  refine ⟨_, _, visits, rfl, hrecord, hhappen, hvisits, ?_, ?_, ?_, ?_, ?_⟩
  · intro place hplace
    obtain ⟨target, bytes', hmem, htarget, hbytes⟩ := hhappen.exists_write ht hplace
    obtain ⟨v, hv, hmem⟩ := List.mem_flatMap.mp hmem
    obtain ⟨source, bytes, rendered, rfl, rfl⟩ := mem_effects_of_write hmem
    obtain ⟨c, hc, hvisit⟩ := hvisits _ hv
    obtain ⟨hinput, hload⟩ := hvisit.exists_input
    exact ⟨c, source, target, bytes, rendered, hc, hinput, hload, hv, htarget, hbytes⟩
  · intro place hnew hold
    obtain ⟨directory, r, hmem, hplace⟩ := hhappen.exists_createDirectories ht hnew hold
    obtain ⟨v, hv, hmem⟩ := List.mem_flatMap.mp hmem
    obtain ⟨c, hc, hvisit⟩ := hvisits v hv
    exact ⟨c, v, hv, directory, hc, hvisit.makesFor hmem, hplace⟩
  · intro p output r hv
    exact hhappen.isDirectory ht (List.mem_flatMap.mpr ⟨_, hv, List.mem_cons_self⟩)
  · intro c source contents e hc hload v hv hmem
    obtain ⟨c', hc', hvisit⟩ := hvisits v hv
    cases hc.symm.trans hc'
    exact hvisit.effects_of_error hload hmem
  · intro hwrite hout
    refine hhappen.eq_of_changes fun e he => ?_
    obtain ⟨v, hv, he⟩ := List.mem_flatMap.mp he
    obtain ⟨c, -, hvisit⟩ := hvisits v hv
    exact hvisit.changes (Arguments.writes_eq_false.mpr ⟨hwrite, hout⟩) e he

def mixedFiles : FileTree :=
  .ofFiles [] [(⟨"a.echo"⟩, "\x7b let y; \x7d".toUTF8), (⟨"b.echo"⟩, "(".toUTF8)]

def inPlace (files : List Path) : Arguments :=
  { write := true, files }

theorem run_leaves_results_mixedFiles :
    mixedFiles.WellFormed ∧ ∃ r t', ((inPlace [⟨"a.echo"⟩, ⟨"b.echo"⟩]).run (m := StateM FileTree)
        (pure .empty)).run mixedFiles = (r, t') ∧
      t'.file? ["work", "a.echo"] ≠ mixedFiles.file? ["work", "a.echo"] ∧
      ∃ c source target bytes rendered, (inPlace [⟨"a.echo"⟩, ⟨"b.echo"⟩]).converter = .ok c ∧
        (inPlace [⟨"a.echo"⟩, ⟨"b.echo"⟩]).Input c source target ∧
        c.loaded source (.ok bytes) = .ok rendered ∧ mixedFiles.placeOf target = ["work", "a.echo"] ∧
        t'.file? ["work", "a.echo"] = some rendered.code.toUTF8 := by
  have ht : mixedFiles.WellFormed := FileTree.wellFormed_ofFiles _ _
  obtain ⟨r, t', visits, hrun, -, -, -, hchanged, -⟩ :=
    run_leaves_results (inPlace [⟨"a.echo"⟩, ⟨"b.echo"⟩]) .empty mixedFiles ht
  have hdiffers : t'.file? ["work", "a.echo"] ≠ mixedFiles.file? ["work", "a.echo"] := by
    rw [← show _ = t' from congrArg Prod.snd hrun]
    decide +kernel
  obtain ⟨c, source, target, bytes, rendered, hc, hinput, hload, -, hplace, hfile⟩ := hchanged _ hdiffers
  exact ⟨ht, r, t', hrun, hdiffers, c, source, target, bytes, rendered, hc, hinput, hload, hplace, hfile⟩

/-- A directory that cannot be listed, and one with a file that cannot be converted. -/
def barredFiles : FileTree :=
  { FileTree.ofFiles [⟨"d"⟩] [(⟨"e/a.echo"⟩, "(".toUTF8)] with faults := [(["work", "d"], .denied)] }

/-- Converts what is given into a directory. -/
def into (outDir : Path) (files : List Path) : Arguments :=
  { outDir := some outDir, files }

/-- The directory for the results is made although the directory that was given cannot be listed, or no
file of it can be converted. -/
theorem run_makes_output_directory :
    barredFiles.WellFormed ∧ barredFiles.isDirectory ⟨"d"⟩ = true ∧
      barredFiles.list ⟨"d"⟩ = .error .denied ∧
      (Converter.loaded {} ⟨"e/a.echo"⟩ (barredFiles.read ⟨"e/a.echo"⟩)).isOk = false ∧
      barredFiles.entry? ["work", "out"] = none ∧
      ∀ p ∈ [⟨"d"⟩, ⟨"e"⟩], ∃ e s t', ((into ⟨"out"⟩ [p]).run (m := StateM FileTree) (pure .empty)).run
          barredFiles = ((.error e, s), t') ∧ t'.entry? ["work", "out"] = some .directory := by
  have ht : barredFiles.WellFormed := by
    obtain ⟨hhere, hkeys, hparent⟩ := FileTree.wellFormed_ofFiles [⟨"d"⟩] [(⟨"e/a.echo"⟩, "(".toUTF8)]
    exact ⟨hhere, hkeys, hparent⟩
  have hresult : ∀ p ∈ [⟨"d"⟩, ⟨"e"⟩],
      (((into ⟨"out"⟩ [p]).run (m := StateM FileTree) (pure .empty)).run barredFiles).1.1.isOk = false ∧
      (FileTree.entry? (((into ⟨"out"⟩ [p]).run (m := StateM FileTree) (pure .empty)).run barredFiles).2
        ["work", "out"]).any FileTree.Entry.isDirectory = true := by
    decide +kernel
  refine ⟨ht, by decide +kernel, by decide +kernel, by decide +kernel, ?_, fun p hp => ?_⟩
  · rw [← Option.not_isSome_iff_eq_none]
    decide +kernel
  · have hp := hresult p hp
    rcases hrun : ((into ⟨"out"⟩ [p]).run (m := StateM FileTree) (pure .empty)).run barredFiles with
      ⟨⟨e | _, s⟩, t'⟩ <;> rw [hrun] at hp
    · exact ⟨e, s, t', rfl, FileTree.any_isDirectory.mp hp.2⟩
    · cases hp.1

/-! ## Warnings -/

namespace Streams

/-- A text of lines. -/
def lines (l : List String) : String :=
  l.foldr (fun line text => line ++ "\n" ++ text) ""

end Streams

end Downlevel
