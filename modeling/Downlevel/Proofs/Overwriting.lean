import Downlevel.Command.Run
import Downlevel.Proofs.DirectoryConversion

/-!
# Converting files where they are

A run that writes its results over its inputs converts each of them, and nothing else, if the inputs lie
apart and it ends well (`run_overwrites`). It can be otherwise where the files of a directory are put
directly into it, although some lie deeper: the result of one file goes over another
(`run_flat_overwrites_other`).
-/

namespace Downlevel

/-! ## Trees of one shape -/

namespace FileTree

variable {t t' : FileTree} {p : Path} {place : List String}

/-- Two trees differ only in what their files hold. -/
structure SameShape (t t' : FileTree) : Prop where
  here : t'.here = t.here
  entry : ∀ place, t'.entry? place = t.entry? place ∨
    ∃ bytes bytes', t.entry? place = some (.file bytes) ∧ t'.entry? place = some (.file bytes')

namespace SameShape

variable (h : SameShape t t')
include h

theorem directory : t'.entry? place = some .directory ↔ t.entry? place = some .directory := by
  rcases h.entry place with he | ⟨_, _, he, he'⟩
  · rw [he]
  · simp [he, he']

theorem isSome_file? : (t'.file? place).isSome = (t.file? place).isSome := by
  rcases h.entry place with he | ⟨_, _, he, he'⟩
  · rw [file?, file?, he]
  · simp [file?, he, he']

theorem step (place : List String) (segment : String) : t'.step place segment = t.step place segment := by
  have henter : t'.enter place = t.enter place := by
    rcases h.entry place with he | ⟨_, _, he, he'⟩
    · rw [enter, enter, he]
    · simp [enter, he, he']
  rw [FileTree.step, FileTree.step, henter]

theorem resolve (p : Path) : t'.resolve p = t.resolve p := by
  have hstep : t'.step = t.step := funext fun place => funext fun segment => h.step place segment
  rw [FileTree.resolve, FileTree.resolve, follow, follow, origin, origin, h.here, hstep]

theorem isDirectory (p : Path) : t'.isDirectory p = t.isDirectory p := by
  rw [Bool.eq_iff_iff, isDirectory_eq_true, isDirectory_eq_true, h.resolve]
  exact exists_congr fun _ => and_congr_right fun _ => h.directory

theorem placeOf (p : Path) : t'.placeOf p = t.placeOf p := by
  rw [FileTree.placeOf, FileTree.placeOf, origin, origin, h.here]

end SameShape

/-- A file lies in a directory, under a name that its path ends in. -/
theorem exists_opens_of_file (ht : t.WellFormed) (hresolve : t.resolve p = .ok place)
    (hfile : (t.file? place).isSome = true) :
    ∃ q name out, Path.join q ⟨name⟩ = p ∧ IsName name ∧ t.Opens q out ∧ place = out ++ [name] := by
  obtain ⟨hcheck, hreach⟩ := resolve_eq_ok.mp hresolve
  have hnofile {above : List String} (h : t.entry? above = some .directory) : place ≠ above := by
    rintro rfl
    rw [file?_of_directory h] at hfile
    cases hfile
  obtain ⟨segments, name, hsegments⟩ := (List.eq_nil_or_concat' p.segments).resolve_left
    (by simp [Path.segments, Text.pieces, Text.split_ne_nil])
  have hmem : name ∈ p.segments := by simp [hsegments]
  have hname : IsName name := by
    rw [reach, hsegments, follow_concat] at hreach
    rcases hfollow : t.follow (t.origin p) segments with e | between <;> rw [hfollow] at hreach
    · cases hreach
    have hstep : t.step between name = .ok place := hreach
    obtain ⟨hdirectory, hplace⟩ := step_eq_ok hstep
    rw [lexical] at hplace
    split_ifs at hplace with hidle hdots
    · exact absurd hplace (hnofile hdirectory)
    · -- what is above a directory is one
      refine absurd hplace (hnofile ?_)
      rcases List.eq_nil_or_concat' between with rfl | ⟨above, last, rfl⟩
      · exact hdirectory
      · rw [List.dropLast_concat]
        exact (ht.parent above last _ hdirectory).1
    · rw [Bool.not_eq_true] at hidle
      have hidle' := hidle
      simp only [Path.isIdle, Bool.or_eq_false_iff, decide_eq_false_iff_not] at hidle'
      refine ⟨hidle'.1, hidle'.2, hdots, Path.slash_notMem_of_mem_segments hmem, fun hnul => ?_,
        size_of_step hstep hidle hdots⟩
      obtain ⟨piece, hpiece, rfl⟩ := List.mem_map.mp hmem
      rw [String.toList_ofList] at hnul
      exact (checkPath_eq_ok.mp hcheck).1 (Text.mem_of_mem_split hpiece hnul)
  obtain ⟨q, rfl, rest, hrest⟩ := Path.exists_join_eq hsegments
  rw [reach_join hname] at hreach
  rcases hout : t.reach q with e | out <;> rw [hout] at hreach
  · cases hreach
  have hstep : t.step out name = .ok place := hreach
  have hdirectory := (step_eq_ok hstep).1
  refine ⟨q, name, out, rfl, hname, ⟨hout, hdirectory, ?_⟩, ?_⟩
  · obtain ⟨hnul, -, hshort⟩ := checkPath_eq_ok.mp hcheck
    rw [hrest, String.toList_append, List.mem_append, not_or] at hnul
    rw [hrest, String.utf8ByteSize_append] at hshort
    rcases eq_or_ne q.text "" with hempty | hne
    · exact .inl hempty
    · exact .inr (checkPath_eq_ok.mpr ⟨hnul.1, hne, by omega⟩)
  · rw [step_name hname, enter_of_directory hdirectory] at hstep
    cases hstep
    rfl

end FileTree

/-! ## Places that are written over -/

namespace Converter

variable {c : Converter} {t t₁ t' : FileTree} {p source : Path} {src place : List String}
  {S S' : List String → Prop}

/-- A file holds the converted text of what it held. -/
def Converted (c : Converter) (t t' : FileTree) (place : List String) : Prop :=
  ∃ bytes text rendered, t.file? place = some bytes ∧ decodeText bytes = .ok text ∧
    (convert text c.options).result = .ok rendered ∧ t'.file? place = some rendered.code.toUTF8

/-- The files at these places are converted, and nothing else changes. -/
structure Overwrites (c : Converter) (S : List String → Prop) (t t' : FileTree) : Prop where
  grows : FileTree.Grows (fun _ => False) S t t'
  converted : ∀ place, S place → c.Converted t t' place

namespace Overwrites

theorem sameShape (h : c.Overwrites S t t') : t.SameShape t' where
  here := h.grows.here
  entry place := by
    rcases h.grows.entry place with he | ⟨hfalse, -⟩ | ⟨hplace, -, bytes', hbytes'⟩
    · exact .inl he
    · exact hfalse.elim
    · obtain ⟨bytes, -, -, hfile, -⟩ := h.converted place hplace
      exact .inr ⟨bytes, bytes', FileTree.file?_eq_some.mp hfile, hbytes'⟩

theorem trans (h : c.Overwrites S t t₁) (h' : c.Overwrites S' t₁ t') (hapart : ∀ place, S place → ¬ S' place) :
    c.Overwrites (fun place => S place ∨ S' place) t t' where
  grows := (h.grows.mono (fun _ => id) fun _ => .inl).trans (h'.grows.mono (fun _ => id) fun _ => .inr)
  converted place hplace := by
    rcases hplace with hplace | hplace
    · obtain ⟨bytes, text, rendered, hfile, hdecode, hconvert, hfile'⟩ := h.converted place hplace
      refine ⟨bytes, text, rendered, hfile, hdecode, hconvert, ?_⟩
      rw [h'.grows.file? (hapart place hplace), hfile']
    · obtain ⟨bytes, text, rendered, hfile, hdecode, hconvert, hfile'⟩ := h'.converted place hplace
      refine ⟨bytes, text, rendered, ?_, hdecode, hconvert, hfile'⟩
      rw [← h.grows.file? fun hfirst => hapart place hfirst hplace, hfile]

end Overwrites

/-- A directory that is converted into itself, if no file fails. -/
theorem Ready.overwrites {summary : Summary} (h : c.Ready t source source src src)
    (hsource : t.isDirectory source = true)
    (hrun : (c.convertDirectory (m := StateM FileTree) source source).run.run t = (.ok summary, t'))
    (herrors : summary.errors = []) :
    c.Overwrites (fun place => ∃ route, c.Wanted t src route ∧ place = src ++ route) t t' := by
  have hcreate := FileTree.createDirectories_of_opens h.opensSource
  obtain ⟨rfl, rfl⟩ := h.of_run hsource hcreate hrun
  have hwanted := (attempts_directory h).1
  obtain ⟨hsummaries, hprogress⟩ := (Progress.start h.wellFormed).attempts h
    (fun route hroute => ((hwanted route).mp hroute).1) (nodup_visited h.wellFormed deepest []) (by simp)
    (by simp)
  rw [List.nil_append] at hprogress
  refine ⟨⟨hprogress.grows.here, hprogress.grows.faults, hprogress.grows.wellFormed, fun place => ?_⟩, ?_⟩
  · rcases hprogress.grows.entry place with he | ⟨⟨route, hroute, above, habove, rfl⟩, hnone, -⟩ |
        ⟨⟨route, hroute, rfl, -⟩, hne, hbytes⟩
    · exact .inl he
    · -- the directories on the way are there
      rw [h.directory_of_prefix ((hwanted route).mp hroute).1 habove] at hnone
      cases hnone
    · exact .inr (.inr ⟨⟨route, (hwanted route).mp hroute, rfl⟩, hne, hbytes⟩)
  · rintro _ ⟨route, hroute, rfl⟩
    have hvisited := (hwanted route).mpr hroute
    rw [Summary.errors_total, hsummaries, List.flatMap_map, List.flatMap_eq_nil_iff] at herrors
    rcases houtcome : c.outcome t source source src route with e | s
    · have := herrors route hvisited
      rw [houtcome] at this
      cases this
    · obtain ⟨rendered, hload, -, hentry⟩ := hprogress.stored route hvisited s houtcome
      obtain ⟨bytes, text, hread, hdecode, hconvert⟩ := loadOutcome_eq_ok hload
      exact ⟨bytes, text, rendered, file?_of_read h hroute.1 hread, hdecode, hconvert,
        FileTree.file?_eq_some.mpr hentry⟩

/-! ## Inputs -/

/-- The places of the files that an input stands for. -/
def Selected (c : Converter) (t : FileTree) (p : Path) (place : List String) : Prop :=
  if t.isDirectory p then ∃ route, c.Wanted t (t.placeOf p) route ∧ place = t.placeOf p ++ route
  else place = t.placeOf p

/-- An input that can be converted where it is. -/
structure Replaceable (c : Converter) (t : FileTree) (p : Path) : Prop where
  exist : t.isDirectory p = true ∨ ∃ place, t.resolve p = .ok place ∧ (t.file? place).isSome = true
  /-- The results of a directory go where its files are. -/
  places : t.isDirectory p = true →
    c.keepPlaces = true ∨ ∀ route, c.Wanted t (t.placeOf p) route → route.length = 1
  shortPaths : t.isDirectory p = true → c.ShortPaths t p (t.placeOf p)

/-- What becomes of an input that is converted where it is. -/
def replaced (c : Converter) (p : Path) (t : FileTree) : Except FileError Summary × FileTree :=
  if t.isDirectory p then (c.convertDirectory (m := StateM FileTree) p p).run.run t
  else match c.targetIn p (p.parent?.getD ⟨""⟩) with
    | .error e => (.error e, t)
    | .ok target => (c.convertFile (m := StateM FileTree) p target).run.run t

theorem selected_of_directory (h : t.isDirectory p = true) : c.Selected t p place ↔
    ∃ route, c.Wanted t (t.placeOf p) route ∧ place = t.placeOf p ++ route := by
  rw [Selected, if_pos h]

theorem selected_of_file (h : ¬ t.isDirectory p = true) : c.Selected t p place ↔ place = t.placeOf p := by
  rw [Selected, if_neg h]

theorem Selected.below (h : c.Selected t p place) : t.placeOf p <+: place := by
  rw [Selected] at h
  split at h
  · obtain ⟨route, -, rfl⟩ := h
    exact List.prefix_append _ _
  · rw [h]

theorem targetIn_join (hextension : c.outputExtension = none) (q directory : Path) {name : String}
    (hname : IsName name) : c.targetIn (q.join ⟨name⟩) directory = .ok (directory.join ⟨name⟩) := by
  rw [targetIn, q.fileName?_join hname]
  simp only [renamed, hextension]

/-- A directory as an input. -/
theorem Replaceable.ready (ht : t.WellFormed) (hextension : c.outputExtension = none)
    (h : c.Replaceable t p) (hp : t.isDirectory p = true) :
    c.Ready t p p (t.placeOf p) (t.placeOf p) := by
  have hopens := FileTree.opens_of_isDirectory hp
  refine .of_targets ht (fun route hwanted => ?_) (.inl rfl) (h.shortPaths hp) hp
    (FileTree.createDirectories_of_opens hopens)
  have hne := route_ne_nil_of_file hopens hwanted.1
  have hnames := ht.isName (FileTree.entry?_ne_none hwanted.1)
  by_cases hkeep : c.keepPlaces = true
  · exact target_eq hkeep hextension _ hne hnames
  · obtain ⟨name, rfl⟩ := List.length_eq_one_iff.mp ((h.places hp).resolve_left hkeep route hwanted)
    rw [target, if_neg hkeep]
    exact targetIn_join hextension p p (hnames name (by simp))

/-- A file as an input. -/
theorem overwrites_file {summary : Summary} (ht : t.WellFormed) (hextension : c.outputExtension = none)
    {target : Path} (hresolve : t.resolve p = .ok place) (hfile : (t.file? place).isSome = true)
    (htarget : c.targetIn p (p.parent?.getD ⟨""⟩) = .ok target)
    (hrun : (c.convertFile (m := StateM FileTree) p target).run.run t = (.ok summary, t')) :
    c.Overwrites (· = place) t t' := by
  obtain ⟨q, name, out, rfl, hname, hopens, rfl⟩ := FileTree.exists_opens_of_file ht hresolve hfile
  obtain ⟨parent, hparent, hopens'⟩ := hopens.parent ht hname.isSegment
  rw [hparent, targetIn_join hextension _ _ hname] at htarget
  cases htarget
  obtain ⟨t'', hrun', hstores⟩ := c.convertFile_down ht hopens' (List.cons_ne_nil name [])
    (by simpa using hname) (q.join ⟨name⟩)
  obtain ⟨houtcome, rfl⟩ := Prod.mk.inj (hrun'.symm.trans hrun)
  rw [houtcome] at hstores
  refine ⟨⟨hstores.grows.here, hstores.grows.faults, hstores.grows.wellFormed, fun place => ?_⟩, ?_⟩
  · rcases hstores.grows.entry place with he | ⟨⟨above, habove, rfl⟩, hnone, -⟩ | ⟨⟨rfl, -⟩, hne, hbytes⟩
    · exact .inl he
    · rw [List.prefix_nil.mp habove, List.append_nil, hopens'.directory] at hnone
      cases hnone
    · exact .inr (.inr ⟨rfl, hne, hbytes⟩)
  · rintro _ rfl
    obtain ⟨rendered, hload, -, hentry⟩ := hstores.stored summary rfl
    obtain ⟨bytes, text, hread, hdecode, hconvert⟩ := loadOutcome_eq_ok hload
    exact ⟨bytes, text, rendered, FileTree.file?_of_read hresolve hread, hdecode, hconvert,
      FileTree.file?_eq_some.mpr hentry⟩

theorem Replaceable.overwrites {summary : Summary} (ht : t.WellFormed) (hextension : c.outputExtension = none)
    (h : c.Replaceable t p) (hrun : c.replaced p t = (.ok summary, t')) (herrors : summary.errors = []) :
    c.Overwrites (c.Selected t p) t t' := by
  rw [replaced] at hrun
  by_cases hp : t.isDirectory p = true
  · rw [if_pos hp] at hrun
    have hoverwrites := (h.ready ht hextension hp).overwrites hp hrun herrors
    rwa [show c.Selected t p = _ from funext fun _ => propext (selected_of_directory hp)]
  · rw [if_neg hp] at hrun
    obtain ⟨place, hresolve, hfile⟩ := h.exist.resolve_left hp
    split at hrun
    · cases hrun
    · rename_i htarget
      have hoverwrites := overwrites_file ht hextension hresolve hfile htarget hrun
      rw [FileTree.reach_eq_placeOf (FileTree.resolve_eq_ok.mp hresolve).2] at hoverwrites
      rwa [show c.Selected t p = _ from funext fun _ => propext (selected_of_file hp)]

/-- An input stays what it is while other files are converted. -/
theorem Replaceable.sameShape (h : c.Replaceable t p) (hshape : t.SameShape t') : c.Replaceable t' p := by
  have hwanted (src route : List String) : c.Wanted t' src route ↔ c.Wanted t src route := by
    rw [Wanted, Wanted, hshape.isSome_file?]
  refine ⟨?_, fun hp => ?_, fun hp => ?_⟩
  · simpa only [hshape.isDirectory, hshape.resolve, hshape.isSome_file?] using h.exist
  · rw [hshape.isDirectory] at hp
    simpa only [hshape.placeOf, hwanted] using h.places hp
  · rw [hshape.isDirectory] at hp
    have hshortPaths := h.shortPaths hp
    rw [hshape.placeOf]
    refine ⟨fun names name => ?_, fun route hne => ?_⟩
    · rw [hshape.isSome_file?]
      exact hshortPaths.files names name
    · rw [hshape.directory]
      exact hshortPaths.directories route hne

theorem selected_sameShape (hshape : t.SameShape t') (p : Path) : c.Selected t' p = c.Selected t p := by
  funext place
  rw [Selected, Selected, hshape.isDirectory, hshape.placeOf]
  simp only [Wanted, hshape.isSome_file?]

end Converter

/-! ## Runs -/

namespace Arguments

open Converter

variable {args : Arguments} {c : Converter} {t t' : FileTree} {s : Streams} {p : Path}

theorem run_bind {α β : Type} (x : RunM (StateM FileTree) α) (f : α → RunM (StateM FileTree) β) (s : Streams)
    (t : FileTree) : ((x >>= f).run.run s).run t =
      match (x.run.run s).run t with
      | ((.error e, s), t) => ((.error e, s), t)
      | ((.ok a, s), t) => ((f a).run.run s).run t := by
  show (ExceptT.bindCont f (x s t).1.1) (x s t).1.2 (x s t).2 = match x s t with
    | ((.error e, s), t) => ((.error e, s), t)
    | ((.ok a, s), t) => f a s t
  rcases x s t with ⟨⟨_ | a, s'⟩, t'⟩ <;> rfl

/-- Work on files gives a summary, if it does not fail. -/
theorem run_onFiles_some (work : ExceptT FileError (StateM FileTree) Summary) (s : Streams) (t : FileTree) :
    ((do return some (← onFiles work) : RunM (StateM FileTree) (Option Summary)).run.run s).run t =
      ((((work.run.run t).1.mapError .file).map some, s), (work.run.run t).2) := by
  have hwork : ((onFiles work).run.run s).run t =
      (((work.run.run t).1.mapError .file, s), (work.run.run t).2) := rfl
  rw [run_bind, hwork]
  rcases work.run.run t with ⟨_ | _, _⟩ <;> rfl

theorem run_runOnPath (hwrite : args.write = true) (hout : args.outDir = none) (c : Converter) (p : Path)
    (s : Streams) (t : FileTree) : ((args.runOnPath (m := StateM FileTree) c p).run.run s).run t =
      ((((c.replaced p t).1.mapError .file).map some, s), (c.replaced p t).2) := by
  have hdirectory : args.directoryTarget p = .ok p := by rw [directoryTarget, hwrite, hout]
  have hfile : args.fileTarget? p = some (p.parent?.getD ⟨""⟩) := by rw [fileTarget?, hwrite, hout]
  rw [runOnPath, run_bind, hdirectory, hfile]
  show ((if t.isDirectory p = true then _ else _ : RunM (StateM FileTree) (Option Summary)).run.run s).run t = _
  rw [replaced]
  split
  · exact run_onFiles_some (c.convertDirectory p p) s t
  · rw [run_onFiles_some, Converter.run_bind]
    rcases c.targetIn p (p.parent?.getD ⟨""⟩) with e | target <;> rfl

/-- One more input, after those that were converted before. -/
def runOnNext (args : Arguments) (c : Converter) (total : Option Summary) (p : Path) :
    RunM (StateM FileTree) (Option Summary) := do
  match total, ← args.runOnPath c p with
  | total, none => return total
  | none, some summary => return some summary
  | some total, some summary => return some (total.merge summary)

section Paths

variable (hwrite : args.write = true) (hout : args.outDir = none) {paths : List Path}
  {total o : Option Summary} {s' : Streams}
include hwrite hout

theorem run_runOnNext (c : Converter) (total : Option Summary) (p : Path) (s : Streams) (t : FileTree) :
    ((args.runOnNext c total p).run.run s).run t =
      ((((c.replaced p t).1.mapError .file).map fun summary =>
        some (total.elim summary (·.merge summary)), s), (c.replaced p t).2) := by
  rw [runOnNext, run_bind, run_runOnPath hwrite hout]
  rcases c.replaced p t with ⟨e | summary, t'⟩
  · rfl
  · rcases total with _ | total <;> rfl

/-- Errors of earlier inputs are kept. -/
theorem errors_of_runOnNext
    (hrun : ((paths.foldlM (args.runOnNext c) total).run.run s).run t = ((.ok o, s'), t'))
    (herrors : ∀ summary, o = some summary → summary.errors = []) :
    ∀ summary, total = some summary → summary.errors = [] := by
  induction paths generalizing t total with
  | nil =>
    cases hrun
    exact herrors
  | cons p paths ih =>
    rw [List.foldlM_cons, run_bind, run_runOnNext hwrite hout] at hrun
    rcases hreplaced : c.replaced p t with ⟨e | summary, t₁⟩ <;> rw [hreplaced] at hrun
    · cases hrun
    · rintro total rfl
      have hmerged := ih hrun _ rfl
      exact (List.append_eq_nil_iff.mp hmerged).1

theorem overwrites_of_runOnNext (hextension : c.outputExtension = none) (ht : t.WellFormed)
    (hpaths : ∀ p ∈ paths, c.Replaceable t p)
    (hapart : paths.Pairwise fun p q => ¬ t.placeOf p <+: t.placeOf q ∧ ¬ t.placeOf q <+: t.placeOf p)
    (hrun : ((paths.foldlM (args.runOnNext c) total).run.run s).run t = ((.ok o, s'), t'))
    (herrors : ∀ summary, o = some summary → summary.errors = []) :
    c.Overwrites (fun place => ∃ p ∈ paths, c.Selected t p place) t t' := by
  induction paths generalizing t total with
  | nil =>
    cases hrun
    exact ⟨.refl ht, by simp⟩
  | cons p paths ih =>
    rw [List.forall_mem_cons] at hpaths
    rw [List.pairwise_cons] at hapart
    rw [List.foldlM_cons, run_bind, run_runOnNext hwrite hout] at hrun
    rcases hreplaced : c.replaced p t with ⟨e | summary, t₁⟩ <;> rw [hreplaced] at hrun
    · cases hrun
    have hsummary : summary.errors = [] := by
      have hmerged := errors_of_runOnNext hwrite hout hrun herrors _ rfl
      rcases total with _ | total
      · exact hmerged
      · exact (List.append_eq_nil_iff.mp hmerged).2
    have hfirst := hpaths.1.overwrites ht hextension hreplaced hsummary
    have hshape := hfirst.sameShape
    have hothers := ih hfirst.grows.wellFormed (fun q hq => (hpaths.2 q hq).sameShape hshape)
      (by simpa only [hshape.placeOf] using hapart.2) hrun
    simp only [selected_sameShape hshape] at hothers
    simp only [List.exists_mem_cons_iff]
    refine hfirst.trans hothers ?_
    rintro place hp ⟨q, hq, hplace⟩
    obtain ⟨hpq, hqp⟩ := hapart.1 q hq
    exact (List.prefix_or_prefix_of_prefix hp.below hplace.below).elim hpq hqp

end Paths

/-- The standard input is converted without any effect on files. -/
theorem tree_runOnInput (args : Arguments) (c : Converter) (input : ByteArray) (s : Streams) (t : FileTree) :
    (((args.runOnInput (m := StateM FileTree) c (pure input)).run.run s).run t).2 = t := by
  rw [runOnInput, run_bind]
  show (((onFiles (liftExcept _) >>= _ : RunM (StateM FileTree) Unit).run.run s).run t).2 = t
  rw [run_bind]
  rcases (do
    let text ← (decodeText input).mapError .os
    c.convertText standardInput text : Except FileError Rendered) with e | rendered <;> rfl

theorem run_liftExcept {α : Type} (r : Except RunError α) (s : Streams) (t : FileTree) :
    ((liftExcept r : RunM (StateM FileTree) α).run.run s).run t = ((r, s), t) := by
  rcases r with e | a <;> rfl

/-- A run that ends well has converted its inputs without a failure. -/
theorem exists_runOnPaths {input : ByteArray} (hlist : args.listPlugins = false)
    (hrun : (args.run (m := StateM FileTree) (pure input)).run t = ((.ok (), s), t')) :
    ∃ c, args.converter = .ok c ∧ (args.files = [] ∧ t' = t ∨ ∃ o s',
      ((args.runOnPaths (m := StateM FileTree) c args.files).run.run {}).run t = ((.ok o, s'), t') ∧
        ∀ summary, o = some summary → summary.errors = []) := by
  have hrun : ((args.runM (m := StateM FileTree) (pure input)).run.run {}).run t = ((.ok (), s), t') := hrun
  rw [runM, if_neg (by simp [hlist]), run_bind, run_liftExcept] at hrun
  rcases hc : args.converter with e | c <;> rw [hc] at hrun
  · cases hrun
  refine ⟨c, rfl, ?_⟩
  dsimp only [Except.mapError] at hrun
  by_cases hfiles : args.files.isEmpty = true
  · rw [if_pos hfiles] at hrun
    have htree := args.tree_runOnInput c input {} t
    rw [hrun] at htree
    exact .inl ⟨List.isEmpty_iff.mp hfiles, htree⟩
  · rw [if_neg hfiles, run_bind] at hrun
    rcases hpaths : ((args.runOnPaths (m := StateM FileTree) c args.files).run.run {}).run t with
      ⟨⟨e | o, s'⟩, t₁⟩ <;> rw [hpaths] at hrun
    · cases hrun
    refine .inr ⟨o, s', ?_⟩
    rcases o with _ | summary
    · cases hrun
      exact ⟨rfl, nofun⟩
    · dsimp only at hrun
      rw [run_bind] at hrun
      rcases hsuccess : summary.success with _ | _
      · rw [if_neg (by simp [hsuccess])] at hrun
        cases hrun
      · rw [if_pos hsuccess] at hrun
        cases hrun
        refine ⟨rfl, ?_⟩
        rintro _ ⟨⟩
        exact List.isEmpty_iff.mp hsuccess

theorem converter_eq_ok (h : args.converter = .ok c) :
    c.outputExtension = args.outputExtension ∧ c.keepPlaces = !args.flat := by
  rw [converter] at h
  rcases hoptions : args.options with e | options <;> rw [hoptions] at h <;> cases h
  exact ⟨rfl, rfl⟩

end Arguments

open Converter

/-- A run that writes its results over its inputs, which lie apart, and ends well has converted the files
of its inputs. Nothing else has changed. -/
theorem run_overwrites (args : Arguments) (input : ByteArray) {t t' : FileTree} {s : Streams}
    (ht : t.WellFormed) (hwrite : args.write = true) (hout : args.outDir = none)
    (hextension : args.outputExtension = none) (hlist : args.listPlugins = false)
    (hexist : ∀ p ∈ args.files, t.isDirectory p = true ∨
      ∃ place, t.resolve p = .ok place ∧ (t.file? place).isSome = true)
    (hapart : args.files.Pairwise fun p q =>
      ¬ t.placeOf p <+: t.placeOf q ∧ ¬ t.placeOf q <+: t.placeOf p)
    (hplaces : ∀ c, args.converter = .ok c → ∀ p ∈ args.files, t.isDirectory p = true →
      args.flat = false ∨ ∀ route, c.Wanted t (t.placeOf p) route → route.length = 1)
    (hshortPaths : ∀ c, args.converter = .ok c → ∀ p ∈ args.files, t.isDirectory p = true →
      c.ShortPaths t p (t.placeOf p))
    (hrun : (args.run (m := StateM FileTree) (pure input)).run t = ((.ok (), s), t')) :
    ∃ c, args.converter = .ok c ∧
      (∀ p ∈ args.files, ∀ place, c.Selected t p place → c.Converted t t' place) ∧
      ∀ place, (∀ p ∈ args.files, ¬ c.Selected t p place) → t'.entry? place = t.entry? place := by
  obtain ⟨c, hc, ⟨hfiles, rfl⟩ | ⟨o, s', hpaths, herrors⟩⟩ := Arguments.exists_runOnPaths hlist hrun
  · exact ⟨c, hc, by simp [hfiles], fun _ _ => rfl⟩
  · obtain ⟨hnone, hkeep⟩ := Arguments.converter_eq_ok hc
    rw [hextension] at hnone
    have hoverwrites := Arguments.overwrites_of_runOnNext hwrite hout hnone ht
      (fun p hp => ⟨hexist p hp, fun hd => ?_, hshortPaths c hc p hp⟩) hapart hpaths herrors
    · exact ⟨c, hc, fun p hp place hplace => hoverwrites.converted place ⟨p, hp, hplace⟩,
        fun place hplace => hoverwrites.grows.entry_eq id fun ⟨p, hp, hselected⟩ => hplace p hp hselected⟩
    · rw [hkeep]
      simpa using hplaces c hc p hp hd

/-- A file and a directory, in which another file lies deeper. -/
def sourceFiles : FileTree :=
  .ofFiles [] [(⟨"a.echo"⟩, "let x;".toUTF8), (⟨"d/a.echo"⟩, "let y;".toUTF8),
    (⟨"d/sub/a.echo"⟩, "let z;".toUTF8), (⟨"d/notes.txt"⟩, "let".toUTF8)]

theorem run_overwrites_sourceFiles : ∃ s t',
    (Arguments.run (m := StateM FileTree) { write := true, files := [⟨"a.echo"⟩, ⟨"d"⟩] } (pure .empty)).run
      sourceFiles = ((.ok (), s), t') ∧
    Converted {} sourceFiles t' ["work", "d", "sub", "a.echo"] ∧
    t'.entry? ["work", "d", "notes.txt"] = sourceFiles.entry? ["work", "d", "notes.txt"] := by
  have ht : sourceFiles.WellFormed := FileTree.wellFormed_ofFiles _ _
  have hplaces : sourceFiles.placeOf ⟨"a.echo"⟩ = ["work", "a.echo"] ∧
      sourceFiles.placeOf ⟨"d"⟩ = ["work", "d"] := by decide +kernel
  have hdirectory : sourceFiles.isDirectory ⟨"d"⟩ = true := by decide +kernel
  have hfile : ¬ sourceFiles.isDirectory ⟨"a.echo"⟩ = true := by decide +kernel
  have hresult : ((Arguments.run (m := StateM FileTree) { write := true, files := [⟨"a.echo"⟩, ⟨"d"⟩] }
      (pure .empty)).run sourceFiles).1.1 = .ok () := by decide +kernel
  rcases hrun : (Arguments.run (m := StateM FileTree) { write := true, files := [⟨"a.echo"⟩, ⟨"d"⟩] }
    (pure .empty)).run sourceFiles with ⟨⟨r, s⟩, t'⟩
  rw [hrun] at hresult
  subst hresult
  have hexist : ∀ p ∈ [⟨"a.echo"⟩, ⟨"d"⟩], sourceFiles.isDirectory p = true ∨
      ∃ place, sourceFiles.resolve p = .ok place ∧ (sourceFiles.file? place).isSome = true := by
    rw [List.forall_mem_cons, List.forall_mem_singleton]
    exact ⟨.inr ⟨["work", "a.echo"], by decide +kernel, by decide +kernel⟩, .inl hdirectory⟩
  have hapart : List.Pairwise (fun p q => ¬ sourceFiles.placeOf p <+: sourceFiles.placeOf q ∧
      ¬ sourceFiles.placeOf q <+: sourceFiles.placeOf p) [⟨"a.echo"⟩, ⟨"d"⟩] := by
    rw [List.pairwise_pair, hplaces.1, hplaces.2]
    decide
  have hshort : ∀ p ∈ [⟨"a.echo"⟩, ⟨"d"⟩], ∀ place ∈ sourceFiles.entries.map Prod.fst,
      (Path.join p (.ofSegments (place.drop (sourceFiles.placeOf p).length))).text.utf8ByteSize < 4096 := by
    decide +kernel
  obtain ⟨c, hc, hconverted, hothers⟩ := run_overwrites _ _ ht rfl rfl rfl rfl hexist hapart
    (fun _ _ _ _ _ => .inl rfl) (fun _ _ p hp _ => .of_entries ht (hshort p hp)) hrun
  cases (show Arguments.converter { write := true, files := [⟨"a.echo"⟩, ⟨"d"⟩] } = .ok {} from
    rfl).symm.trans hc
  refine ⟨s, t', rfl, hconverted ⟨"d"⟩ (by simp) _ ?_, hothers _ ?_⟩
  · rw [selected_of_directory hdirectory, hplaces.2]
    exact ⟨["sub", "a.echo"], ⟨by decide +kernel, by decide +kernel⟩, rfl⟩
  · rw [List.forall_mem_cons, List.forall_mem_singleton, selected_of_file hfile,
      selected_of_directory hdirectory, hplaces.1, hplaces.2]
    refine ⟨by decide, ?_⟩
    rintro ⟨route, ⟨-, hselects⟩, heq⟩
    have heq : ["work", "d"] ++ ["notes.txt"] = ["work", "d"] ++ route := heq
    cases List.append_cancel_left heq
    revert hselects
    decide +kernel

/-- The files of a directory are put directly into it: the result of one goes over another, and the file
itself stays as it was. -/
theorem run_flat_overwrites_other : ∃ s t',
    (Arguments.run (m := StateM FileTree) { write := true, flat := true, files := [⟨"d"⟩] } (pure .empty)).run
      sourceFiles = ((.ok (), s), t') ∧
    t'.file? ["work", "d", "a.echo"] = some "var z;\n".toUTF8 ∧
    t'.file? ["work", "d", "sub", "a.echo"] = some "let z;".toUTF8 := by
  have hresult : ((Arguments.run (m := StateM FileTree) { write := true, flat := true, files := [⟨"d"⟩] }
        (pure .empty)).run sourceFiles).1.1 = .ok () ∧
      ((Arguments.run (m := StateM FileTree) { write := true, flat := true, files := [⟨"d"⟩] }
        (pure .empty)).run sourceFiles).2.file? ["work", "d", "a.echo"] = some "var z;\n".toUTF8 ∧
      ((Arguments.run (m := StateM FileTree) { write := true, flat := true, files := [⟨"d"⟩] }
        (pure .empty)).run sourceFiles).2.file? ["work", "d", "sub", "a.echo"] = some "let z;".toUTF8 := by
    decide +kernel
  rcases hrun : (Arguments.run (m := StateM FileTree) { write := true, flat := true, files := [⟨"d"⟩] }
    (pure .empty)).run sourceFiles with ⟨⟨r, s⟩, t'⟩
  rw [hrun] at hresult
  obtain ⟨rfl, hfiles⟩ := hresult
  exact ⟨s, t', rfl, hfiles⟩

end Downlevel
