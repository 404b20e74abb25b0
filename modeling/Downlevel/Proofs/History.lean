import Downlevel.Command.Run
import Downlevel.Proofs.FileConversion
import Downlevel.Proofs.Recording

/-!
# The history of a run

What a run does to a file tree falls into visits (`Visit`). It asks for directories and lists them, which
changes nothing. For a directory that it was given it makes one for the results, before anything in it is
looked at. A file is read, and only if it can be converted something is made or written for it.
`Arguments.records_run` says this of every run, together with what the run tells about it in the end.
-/

namespace Downlevel

/-- What a run does about one of its inputs. -/
inductive Visit where
  /-- It is asked whether there is a directory. -/
  | question (p : Path) (r : Bool)
  | listing (p : Path) (r : Except OsError (List String))
  /-- There is a directory, and one is made for what becomes of its files. -/
  | directory (source output : Path) (r : Except OsError Unit)
  /-- A file is read, and that is all. -/
  | read (source : Path) (contents : Except OsError ByteArray)
  /-- A file is read, and the directory for its result cannot be made. -/
  | blocked (source : Path) (bytes : ByteArray) (parent : Path) (e : OsError)
  /-- A file is read, and its result is to be written. -/
  | conversion (source target : Path) (bytes : ByteArray) (rendered : Rendered) (r : Except OsError Unit)

/-- The directory of a file is made, or is there. -/
def opening (target : Path) : List FileEffect :=
  target.parent?.toList.map (.createDirectories · (.ok ()))

namespace Visit

def effects : Visit → List FileEffect
  | question p r => [.isDirectory p r]
  | listing p r => [.list p r]
  | directory source output r => [.isDirectory source true, .createDirectories output r]
  | read source contents => [.read source contents]
  | blocked source bytes parent e => [.read source (.ok bytes), .createDirectories parent (.error e)]
  | conversion source target bytes rendered r =>
    .read source (.ok bytes) :: opening target ++ [.write target rendered.code.toUTF8 r]

/-- The warnings that a written result comes with. -/
def warnings : Visit → List FileWarning
  | conversion source _ _ rendered (.ok ()) => rendered.warnings.map fun diagnostic => ⟨source, diagnostic⟩
  | _ => []

end Visit

namespace Converter

/-- What the conversion of a file gives that has these contents. -/
def loaded (c : Converter) (source : Path) (contents : Except OsError ByteArray) :
    Except FileError Rendered :=
  (contents.mapError (.unreadable source)).bind fun bytes =>
    match decodeText bytes with
    | .ok text => c.convertText source.text text
    | .error cause => .error (.unreadable source cause)

theorem exists_bytes_of_loaded {c : Converter} {source : Path} {contents : Except OsError ByteArray}
    {rendered : Rendered} (h : c.loaded source contents = .ok rendered) : ∃ bytes, contents = .ok bytes := by
  rcases contents with e | bytes
  · cases h
  · exact ⟨bytes, rfl⟩

/-- How a visit of a file goes that is to be converted. -/
inductive FileVisit (c : Converter) (source target : Path) : Visit → Prop
  | failed {contents : Except OsError ByteArray} {e : FileError}
    (h : c.loaded source contents = .error e) : FileVisit c source target (.read source contents)
  | blocked {bytes : ByteArray} {rendered : Rendered} {parent : Path} (e : OsError)
    (h : c.loaded source (.ok bytes) = .ok rendered) (hparent : target.parent? = some parent) :
    FileVisit c source target (.blocked source bytes parent e)
  | conversion {bytes : ByteArray} {rendered : Rendered} (r : Except OsError Unit)
    (h : c.loaded source (.ok bytes) = .ok rendered) :
    FileVisit c source target (.conversion source target bytes rendered r)

end Converter

/-- Effects that consist of visits, and something that is true of their warnings. -/
def Comprise (allowed : Visit → Prop) (told : List FileWarning → Prop) (effects : List FileEffect) : Prop :=
  ∃ visits : List Visit, (∀ v ∈ visits, allowed v) ∧ effects = visits.flatMap Visit.effects ∧
    told (visits.flatMap Visit.warnings)

namespace Comprise

variable {allowed allowed' : Visit → Prop} {told told' : List FileWarning → Prop}
  {effects effects' : List FileEffect}

theorem nil (h : told []) : Comprise allowed told [] :=
  ⟨[], by simp, rfl, h⟩

theorem singleton {v : Visit} (h : allowed v) (htold : told v.warnings) :
    Comprise allowed told v.effects :=
  ⟨[v], by simpa using h, by simp, by simpa using htold⟩

theorem mono (h : Comprise allowed told effects) (hallowed : ∀ v, allowed v → allowed' v)
    (htold : ∀ ws, told ws → told' ws) : Comprise allowed' told' effects := by
  obtain ⟨visits, hvisits, heffects, hwarnings⟩ := h
  exact ⟨visits, fun v hv => hallowed v (hvisits v hv), heffects, htold _ hwarnings⟩

theorem append (h : Comprise allowed told effects) (h' : Comprise allowed told' effects')
    {told'' : List FileWarning → Prop} (htold : ∀ ws ws', told ws → told' ws' → told'' (ws ++ ws')) :
    Comprise allowed told'' (effects ++ effects') := by
  obtain ⟨visits, hvisits, rfl, hwarnings⟩ := h
  obtain ⟨visits', hvisits', rfl, hwarnings'⟩ := h'
  refine ⟨visits ++ visits', ?_, by rw [List.flatMap_append], ?_⟩
  · rw [List.forall_mem_append]
    exact ⟨hvisits, hvisits'⟩
  · rw [List.flatMap_append]
    exact htold _ _ hwarnings hwarnings'

end Comprise

namespace Converter

open Records

variable (c : Converter) (source target output : Path)

theorem records_perform {α : Type} {explain : OsError → FileError} {x : StateM FileTree (Except OsError α)}
    {y : StateM Recorded (Except OsError α)} {P : List FileEffect → Except FileError α → Prop}
    (h : Records x y fun new r => P new (r.mapError explain)) :
    Records (perform explain x).run (perform explain y).run P :=
  Records.map (Except.mapError explain) h

theorem records_load : Records (c.load source).run (c.load source).run fun new r =>
    ∃ contents, new = [.read source contents] ∧ r = c.loaded source contents := by
  refine bindE (P := fun new r => ∃ contents : Except OsError ByteArray,
    new = [.read source contents] ∧ r = contents.mapError (.unreadable source))
    (records_perform ((Records.read source).mono fun _ r h => ⟨r, h, rfl⟩)) ?_ ?_
  · rintro _ e ⟨contents, rfl, he⟩
    refine ⟨contents, rfl, ?_⟩
    rw [loaded, ← he]
    rfl
  · rintro _ bytes ⟨contents, rfl, hbytes⟩
    have hloaded : c.loaded source contents = match decodeText bytes with
        | .ok text => c.convertText source.text text
        | .error cause => .error (.unreadable source cause) := by
      rw [loaded, ← hbytes]
      rfl
    revert hloaded
    rcases decodeText bytes with e | text
    · exact fun hloaded => Records.pure ⟨contents, rfl, hloaded.symm⟩
    · exact fun hloaded => Records.ofExcept ⟨contents, rfl, hloaded.symm⟩

/-- How a text is stored, and what comes of it. -/
inductive Storing (target : Path) (code : String) : List FileEffect → Except FileError Unit → Prop
  | blocked {parent : Path} (e : OsError) (hparent : target.parent? = some parent) :
    Storing target code [.createDirectories parent (.error e)] (.error (.os e))
  | unwritten (e : OsError) : Storing target code
      (opening target ++ [.write target code.toUTF8 (.error e)]) (.error (.unwritable target e))
  | written : Storing target code (opening target ++ [.write target code.toUTF8 (.ok ())]) (.ok ())

theorem records_store (code : String) :
    Records (store target code).run (store target code).run (Storing target code) := by
  have hwrite : Records (perform (.unwritable target) (FileSystem.write target code.toUTF8)).run
      (perform (.unwritable target) (FileSystem.write target code.toUTF8)).run fun new r =>
      Storing target code (opening target ++ new) r := by
    refine records_perform ((Records.write target _).mono ?_)
    rintro _ (e | _) rfl
    · exact .unwritten e
    · exact .written
  rcases hparent : target.parent? with _ | parent
  · simp only [store, opening, hparent] at hwrite ⊢
    exact hwrite
  · simp only [store, hparent]
    refine bindE (P := fun new r => ∃ made : Except OsError Unit,
      new = [.createDirectories parent made] ∧ r = made.mapError .os)
      (records_perform ((Records.createDirectories parent).mono fun _ r h => ⟨r, h, rfl⟩)) ?_ ?_
    · rintro _ _ ⟨_ | _, rfl, h⟩
      · cases h
        exact .blocked _ hparent
      · cases h
    · rintro _ _ ⟨_ | _, rfl, h⟩
      · cases h
      · refine hwrite.mono fun new r h => ?_
        rw [opening, hparent] at h
        exact h

theorem records_convertFile : Records (c.convertFile source target).run (c.convertFile source target).run
    fun new r => Comprise (c.FileVisit source target) (· = (noted r).warnings) new := by
  refine bindE (c.records_load source) ?_ ?_
  · rintro _ e ⟨contents, rfl, he⟩
    exact .singleton (FileVisit.failed he.symm) rfl
  · rintro _ rendered ⟨contents, rfl, hload⟩
    obtain ⟨bytes, rfl⟩ := exists_bytes_of_loaded hload.symm
    refine bindE (records_store target rendered.code) ?_ ?_
    · rintro _ _ (⟨e, hparent⟩ | e)
      · exact .singleton (FileVisit.blocked e hload.symm hparent) rfl
      · exact .singleton (FileVisit.conversion (.error e) hload.symm) rfl
    · rintro _ _ ⟨⟩
      refine Records.pure ?_
      rw [List.append_nil]
      exact .singleton (FileVisit.conversion (.ok ()) hload.symm) rfl

theorem records_attempt : Records (c.attempt source target) (c.attempt source target)
    fun new summary => Comprise (c.FileVisit source target) (· = summary.warnings) new := by
  refine Records.bind (c.records_convertFile source target) fun new r h => ?_
  rcases r with e | summary <;> exact Records.pure (by rwa [List.append_nil])

/-- A visit below a directory. -/
inductive VisitBelow (c : Converter) (source output : Path) : Visit → Prop
  | question (route : List String) (r : Bool) : VisitBelow c source output (.question (source.down route) r)
  | listing (route : List String) (r : Except OsError (List String)) :
    VisitBelow c source output (.listing (source.down route) r)
  | file {route : List String} {target : Path} {v : Visit} (hne : route ≠ [])
    (hselects : c.selects (source.down route) = true)
    (htarget : c.target (source.down route) output route = .ok target)
    (hv : c.FileVisit (source.down route) target v) : VisitBelow c source output v

/-- A summary has these warnings, if there is one. -/
def Tells (r : Except FileError Summary) (ws : List FileWarning) : Prop :=
  ∀ summary, r = .ok summary → summary.warnings = ws

/-- What is done below a directory, and what is told about it. -/
abbrev Covers (c : Converter) (source output : Path) (new : List FileEffect) (r : Except FileError Summary) :
    Prop :=
  Comprise (c.VisitBelow source output) (Tells r) new

variable {c source output} {route : List String} {summary summary' : Summary} {past new : List FileEffect}

theorem Covers.error {r : Except FileError Summary} (h : c.Covers source output new r) (e : FileError) :
    c.Covers source output new (.error e) :=
  h.mono (fun _ h => h) fun _ _ _ h => by cases h

theorem Covers.merge (hpast : c.Covers source output past (.ok summary))
    (hnew : c.Covers source output new (.ok summary')) :
    c.Covers source output (past ++ new) (.ok (summary.merge summary')) := by
  refine Comprise.append hpast hnew fun ws ws' hws hws' => ?_
  rintro _ ⟨⟩
  rw [Summary.merge, hws summary rfl, hws' summary' rfl]

/-- A visit that has no warnings leaves the summary as it is. -/
theorem Covers.snoc (hpast : c.Covers source output past (.ok summary)) {v : Visit}
    (hv : c.VisitBelow source output v) (hwarnings : v.warnings = []) :
    c.Covers source output (past ++ v.effects) (.ok summary) := by
  have hquiet : Comprise (c.VisitBelow source output) (· = []) v.effects := .singleton hv hwarnings
  refine hpast.append hquiet ?_
  rintro ws _ hws rfl
  rwa [List.append_nil]

/-- A file of a directory that is to be converted. -/
theorem records_attempt_down (hpast : c.Covers source output past (.ok summary)) (hne : route ≠ [])
    (hselects : c.selects (source.down route) = true) :
    Records (do
        let target ← liftExcept (c.target (source.down route) output route)
        return summary.merge (← (c.attempt (source.down route) target : StateM FileTree Summary)) :
          ExceptT FileError (StateM FileTree) Summary).run
      (do
        let target ← liftExcept (c.target (source.down route) output route)
        return summary.merge (← (c.attempt (source.down route) target : StateM Recorded Summary)) :
          ExceptT FileError (StateM Recorded) Summary).run
      fun new r => c.Covers source output (past ++ new) r := by
  refine bindE (P := fun new r => new = [] ∧ r = c.target (source.down route) output route)
    (Records.ofExcept ⟨rfl, rfl⟩) ?_ ?_
  · rintro _ e ⟨rfl, -⟩
    rw [List.append_nil]
    exact hpast.error e
  · rintro _ target ⟨rfl, htarget⟩
    have hattempt : Records (c.attempt (source.down route) target) (c.attempt (source.down route) target)
        fun new summary => c.Covers source output new (.ok summary) := by
      refine (c.records_attempt _ _).mono fun new summary' h => ?_
      refine h.mono (fun v hv => .file hne hselects htarget.symm hv) ?_
      rintro _ rfl _ ⟨⟩
      rfl
    refine bindE (liftE hattempt) (fun new e h => ?_) fun new summary' h => Records.pure ?_
    · exact hpast.append h fun _ _ _ _ _ h => by cases h
    · simpa using hpast.merge h

theorem records_convertWithin (depth : Nat) (route : List String) :
    Records (c.convertWithin output depth (source.down route) route).run
      (c.convertWithin output depth (source.down route) route).run (c.Covers source output) := by
  induction depth generalizing route with
  | zero => exact Records.pure (.nil fun _ h => by cases h)
  | succ depth ih =>
    have hstart : c.Covers source output [] (.ok {}) := .nil fun _ h => by cases h; rfl
    refine bindE (P := fun new _ => ∃ r, new = [.list (source.down route) r])
      (records_perform ((Records.list _).mono fun _ r h => ⟨r, h⟩)) ?_ ?_
    · rintro _ e ⟨r, rfl⟩
      exact (hstart.snoc (.listing route r) rfl).error e
    rintro _ names ⟨r, rfl⟩
    refine foldlM (Q := c.Covers source output) (fun name _ past summary hpast => ?_)
      (hstart.snoc (.listing route r) rfl)
    refine bindE (P := fun new r => ∃ b, new = [.isDirectory ((source.down route).join ⟨name⟩) b] ∧ r = .ok b)
      (liftE ((Records.isDirectory _).mono fun _ b h => ⟨b, h, rfl⟩)) ?_ ?_
    · rintro _ e ⟨b, -, h⟩
      cases h
    rintro _ isDirectory ⟨_, rfl, ⟨⟩⟩
    rw [← Path.down_concat]
    replace hpast : c.Covers source output
        (past ++ [.isDirectory (source.down (route ++ [name])) isDirectory]) (.ok summary) :=
      hpast.snoc (.question (route ++ [name]) isDirectory) rfl
    simp only [← List.append_assoc past]
    rcases isDirectory with _ | _
    · rcases hselects : c.selects (source.down (route ++ [name])) with _ | _
      · exact Records.pure (by simpa using hpast)
      · exact records_attempt_down hpast (by simp) hselects
    · refine bindE (ih (route ++ [name])) (fun new e h => ?_) fun new summary' h => Records.pure ?_
      · exact hpast.append h fun _ _ _ _ _ h => by cases h
      · simpa using hpast.merge h

theorem records_convertDirectory : Records (c.convertDirectory source output).run
    (c.convertDirectory source output).run fun new r =>
      Comprise (fun v => (∃ r, v = .directory source output r) ∨ c.VisitBelow source output v)
        (Tells r) new := by
  refine bindE (P := fun new r => ∃ b, new = [.isDirectory source b] ∧ r = .ok b)
    (liftE ((Records.isDirectory _).mono fun _ b h => ⟨b, h, rfl⟩)) ?_ ?_
  · rintro _ e ⟨b, -, h⟩
    cases h
  rintro _ isDirectory ⟨_, rfl, ⟨⟩⟩
  rcases isDirectory with _ | _
  · refine Records.pure (.singleton (v := .question source false) (.inr (.question [] false)) ?_)
    exact fun _ h => by cases h
  refine bindE (P := fun new _ => ∃ r, new = [.createDirectories output r])
    (records_perform ((Records.createDirectories output).mono fun _ r h => ⟨r, h⟩)) ?_ ?_
  · rintro _ e ⟨r, rfl⟩
    exact .singleton (v := .directory source output r) (.inl ⟨r, rfl⟩) fun _ h => by cases h
  · rintro _ _ ⟨r, rfl⟩
    have hmade : Comprise (fun v => (∃ r, v = .directory source output r) ∨ c.VisitBelow source output v)
        (· = []) [.isDirectory source true, .createDirectories output r] :=
      .singleton (v := .directory source output r) (.inl ⟨r, rfl⟩) rfl
    refine (records_convertWithin deepest []).mono fun new r h => ?_
    refine hmade.append (h.mono (fun _ => .inr) fun _ h => h) ?_
    rintro _ ws rfl hws
    exact hws

end Converter

/-! ## Runs -/

namespace Records

variable {α β : Type} {x : RunM (StateM FileTree) α} {y : RunM (StateM Recorded) α}
  {f : α → RunM (StateM FileTree) β} {g : α → RunM (StateM Recorded) β} {s : Streams}
  {P : List FileEffect → Except RunError α × Streams → Prop}
  {Q : List FileEffect → Except RunError β × Streams → Prop}

theorem bindR (hx : Records (x.run.run s) (y.run.run s) P)
    (herror : ∀ new e s, P new (.error e, s) → Q new (.error e, s))
    (hok : ∀ new a s, P new (.ok a, s) →
      Records ((f a).run.run s) ((g a).run.run s) fun more b => Q (new ++ more) b) :
    Records ((x >>= f).run.run s) ((y >>= g).run.run s) Q := by
  show Records (x.run.run s >>= fun r => (ExceptT.bindCont f r.1).run r.2)
    (y.run.run s >>= fun r => (ExceptT.bindCont g r.1).run r.2) Q
  refine bind hx fun new r hP => ?_
  obtain ⟨e | a, s⟩ := r
  · exact pure (by simpa using herror new e s hP)
  · exact hok new a s hP

theorem onFiles {work : ExceptT FileError (StateM FileTree) α} {work' : ExceptT FileError (StateM Recorded) α}
    (h : Records work.run work'.run fun new r => P new (r.mapError .file, s)) :
    Records ((Arguments.onFiles work).run.run s) ((Arguments.onFiles work').run.run s) P := by
  show Records ((Except.mapError .file <$> work.run) >>= fun r => Pure.pure (r, s))
    ((Except.mapError .file <$> work'.run) >>= fun r => Pure.pure (r, s)) P
  refine bind (map (Q := fun new r => P new (r, s)) _ h) fun new r h => pure ?_
  rwa [List.append_nil]

theorem liftR {x : StateM FileTree α} {y : StateM Recorded α}
    (h : Records x y fun new a => P new (.ok a, s)) :
    Records ((ExceptT.lift (StateT.lift x) : RunM (StateM FileTree) α).run.run s)
      ((ExceptT.lift (StateT.lift y) : RunM (StateM Recorded) α).run.run s) P := by
  show Records (x >>= fun a => Pure.pure (.ok a, s)) (y >>= fun a => Pure.pure (.ok a, s)) P
  refine bind h fun new a h => pure ?_
  rwa [List.append_nil]

theorem ofExceptR {r : Except RunError α} (h : P [] (r, s)) :
    Records ((liftExcept r : RunM (StateM FileTree) α).run.run s)
      ((liftExcept r : RunM (StateM Recorded) α).run.run s) P := by
  rcases r with e | a <;> exact pure h

theorem foldlMR {γ : Type} {f : β → γ → RunM (StateM FileTree) β} {g : β → γ → RunM (StateM Recorded) β}
    {l : List γ} {past : List FileEffect} {b : β}
    (hstep : ∀ c ∈ l, ∀ past b s, Q past (.ok b, s) →
      Records ((f b c).run.run s) ((g b c).run.run s) fun new r => Q (past ++ new) r)
    (h : Q past (.ok b, s)) :
    Records ((l.foldlM f b).run.run s) ((l.foldlM g b).run.run s) fun new r => Q (past ++ new) r := by
  induction l generalizing past b s with
  | nil => exact pure (by simpa using h)
  | cons c l ih =>
    rw [List.forall_mem_cons] at hstep
    rw [List.foldlM_cons, List.foldlM_cons]
    refine bindR (hstep.1 past b s h) (fun _ _ _ hQ => hQ) fun new b s hQ => ?_
    exact (ih hstep.2 hQ).mono fun more r hQ => by rwa [← List.append_assoc]

end Records

/-- Whether a run stopped before it had come to all its inputs. -/
def RunError.aborts : RunError → Bool
  | failures _ => false
  | _ => true

namespace Arguments

open Records

variable {args : Arguments} {c : Converter} {s : Streams} {p : Path}

/-- Whether what becomes of the inputs is to be written to files. -/
def writes (args : Arguments) : Bool :=
  args.write || args.outDir.isSome

/-- The files that a run may convert, and where to. -/
inductive Input (args : Arguments) (c : Converter) : Path → Path → Prop
  | named {p directory target : Path} (hp : p ∈ args.files) (hdirectory : args.fileTarget? p = some directory)
    (htarget : c.targetIn p directory = .ok target) : Input args c p target
  | below {p output target : Path} {route : List String} (hp : p ∈ args.files)
    (houtput : args.directoryTarget p = .ok output) (hne : route ≠ [])
    (hselects : c.selects (p.down route) = true)
    (htarget : c.target (p.down route) output route = .ok target) : Input args c (p.down route) target

/-- The visits that a run may consist of. -/
inductive RunVisit (args : Arguments) (c : Converter) : Visit → Prop
  | question {p : Path} (hp : p ∈ args.files) (route : List String) (r : Bool) :
    RunVisit args c (.question (p.down route) r)
  | listing {p : Path} (hp : p ∈ args.files) (route : List String) (r : Except OsError (List String)) :
    RunVisit args c (.listing (p.down route) r)
  | directory {p output : Path} (hp : p ∈ args.files) (houtput : args.directoryTarget p = .ok output)
    (r : Except OsError Unit) : RunVisit args c (.directory p output r)
  | shown {p : Path} (hp : p ∈ args.files) (hwrites : args.writes = false)
    (contents : Except OsError ByteArray) : RunVisit args c (.read p contents)
  | input {source target : Path} {v : Visit} (h : args.Input c source target)
    (hv : c.FileVisit source target v) : RunVisit args c v

/-- What a run does about its inputs, and what is told about it. -/
structure Deals (args : Arguments) (c : Converter) (s : Streams) (new : List FileEffect)
    (r : Except RunError (Option Summary) × Streams) : Prop where
  comprise : Comprise (args.RunVisit c)
    (fun ws => ∀ o, r.1 = .ok o → (o.elim [] Summary.warnings) = ws) new
  aborts : ∀ e, r.1 = .error e → e.aborts = true
  quiet : args.writes = true → r.2 = s

theorem writes_eq_false : args.writes = false ↔ args.write = false ∧ args.outDir = none := by
  rw [writes, Bool.or_eq_false_iff, Option.isSome_eq_false_iff, Option.isNone_iff_eq_none]

theorem fileTarget?_eq_none : args.fileTarget? p = none ↔ args.writes = false := by
  rw [writes_eq_false, fileTarget?]
  split <;> simp_all

/-- The summary of a file or directory. -/
theorem deals_of_work {new : List FileEffect} {r : Except FileError Summary}
    (h : Comprise (args.RunVisit c) (Converter.Tells r) new) :
    args.Deals c s new ((r.mapError .file).map some, s) ∧
      (args.writes = true → (r.mapError RunError.file).map some ≠ .ok none) := by
  rcases r with e | summary
  · refine ⟨⟨h.mono (fun _ h => h) ?_, ?_, fun _ => rfl⟩, fun _ => nofun⟩
    · rintro _ _ _ ⟨⟩
    · rintro _ ⟨⟩
      rfl
  · refine ⟨⟨h.mono (fun _ h => h) fun ws hws => ?_, nofun, fun _ => rfl⟩, fun _ => nofun⟩
    rintro _ ⟨⟩
    exact hws summary rfl

theorem records_work {work : ExceptT FileError (StateM FileTree) Summary}
    {work' : ExceptT FileError (StateM Recorded) Summary}
    (h : Records work.run work'.run fun new r => Comprise (args.RunVisit c) (Converter.Tells r) new) :
    Records ((do return some (← onFiles work) : RunM (StateM FileTree) (Option Summary)).run.run s)
      ((do return some (← onFiles work') : RunM (StateM Recorded) (Option Summary)).run.run s)
      fun new r => args.Deals c s new r ∧ (args.writes = true → r.1 ≠ .ok none) := by
  refine bindR (P := fun new r => ∃ r', r = (Except.mapError .file r', s) ∧
      Comprise (args.RunVisit c) (Converter.Tells r') new)
    (Records.onFiles (h.mono fun _ r h => ⟨r, rfl, h⟩)) ?_ ?_
  · rintro new e _ ⟨e' | _, ⟨⟩, h⟩
    exact deals_of_work h
  · rintro new summary _ ⟨_ | summary', ⟨⟩, h⟩
    refine Records.pure ?_
    rw [List.append_nil]
    exact deals_of_work h

/-- It is asked first whether an input is a directory. -/
theorem Deals.ask {new : List FileEffect} {r : Except RunError (Option Summary) × Streams}
    (h : args.Deals c s new r) (hp : p ∈ args.files) (b : Bool) :
    args.Deals c s (.isDirectory p b :: new) r where
  comprise := by
    have hquestion : Comprise (args.RunVisit c) (· = []) [.isDirectory p b] :=
      .singleton (RunVisit.question hp [] b) rfl
    refine hquestion.append h.comprise ?_
    rintro _ ws rfl hws
    exact hws
  aborts := h.aborts
  quiet := h.quiet

theorem Deals.error {e : RunError} (h : e.aborts = true) : args.Deals c s [] (.error e, s) :=
  ⟨.nil nofun, fun _ he => by cases he; exact h, fun _ => rfl⟩

theorem aborts_of_directoryTarget {e : RunError} (h : args.directoryTarget p = .error e) :
    e.aborts = true := by
  rw [directoryTarget] at h
  split at h <;> cases h
  rfl

/-- A file that is shown is only read. -/
theorem records_show (hp : p ∈ args.files) (hwrites : args.writes = false) :
    Records ((do
        let r ← onFiles (c.load p)
        modify (·.emit args.json p.text r)
        return none : RunM (StateM FileTree) (Option Summary)).run.run s)
      ((do
        let r ← onFiles (c.load p)
        modify (·.emit args.json p.text r)
        return none : RunM (StateM Recorded) (Option Summary)).run.run s)
      fun new r => args.Deals c s new r := by
  have hread (contents : Except OsError ByteArray) {told : List FileWarning → Prop} (h : told []) :
      Comprise (args.RunVisit c) told [.read p contents] :=
    .singleton (RunVisit.shown hp hwrites contents) h
  refine bindR (P := fun new r => ∃ contents, new = [.read p contents] ∧
      r = ((c.loaded p contents).mapError .file, s))
    (Records.onFiles ((c.records_load p).mono ?_)) ?_ ?_
  · rintro _ _ ⟨contents, rfl, rfl⟩
    exact ⟨contents, rfl, rfl⟩
  · rintro _ e _ ⟨contents, rfl, h⟩
    refine ⟨hread contents nofun, ?_, by simp [hwrites]⟩
    rcases hload : c.loaded p contents with e' | rendered <;> rw [hload] at h <;> cases h
    rintro _ ⟨⟩
    rfl
  · rintro _ rendered s' ⟨contents, rfl, -⟩
    refine Records.pure ⟨hread contents ?_, nofun, by simp [hwrites]⟩
    rintro _ ⟨⟩
    rfl

theorem records_runOnPath (hp : p ∈ args.files) :
    Records ((args.runOnPath c p).run.run s) ((args.runOnPath c p).run.run s) fun new r =>
      args.Deals c s new r ∧ (args.writes = true → r.1 ≠ .ok none) := by
  refine bindR (P := fun new r => ∃ b, new = [.isDirectory p b] ∧ r = (.ok b, s))
    (liftR ((Records.isDirectory p).mono fun _ b h => ⟨b, h, rfl⟩)) ?_ ?_
  · rintro _ e s ⟨b, -, h⟩
    cases h
  rintro _ isDirectory _ ⟨_, rfl, ⟨⟩⟩
  refine Records.mono (P := fun new r => args.Deals c s new r ∧ (args.writes = true → r.1 ≠ .ok none)) ?_
    fun new r h => ⟨h.1.ask hp isDirectory, h.2⟩
  rcases isDirectory with _ | _
  · rcases htarget : args.fileTarget? p with _ | directory
    · have hwrites := fileTarget?_eq_none.mp htarget
      exact (records_show hp hwrites).mono fun new r h => ⟨h, by simp [hwrites]⟩
    · refine records_work (bindE (P := fun new r => new = [] ∧ r = c.targetIn p directory)
        (Records.ofExcept ⟨rfl, rfl⟩) ?_ ?_)
      · rintro _ e ⟨rfl, -⟩
        exact .nil nofun
      · rintro _ target ⟨rfl, h⟩
        refine (c.records_convertFile p target).mono fun new r hr => ?_
        refine hr.mono (fun v hv => .input (.named hp htarget h.symm) hv) ?_
        rintro _ rfl _ rfl
        rfl
  · refine bindR (P := fun new r => new = [] ∧ r.1 = args.directoryTarget p ∧ r.2 = s)
      (ofExceptR ⟨rfl, rfl, rfl⟩) ?_ ?_
    · rintro _ e _ ⟨rfl, h, rfl⟩
      exact ⟨.error (aborts_of_directoryTarget h.symm), fun _ => nofun⟩
    · rintro _ output _ ⟨rfl, h, rfl⟩
      refine records_work (Converter.records_convertDirectory.mono fun new r hr => ?_)
      refine hr.mono ?_ fun _ h => h
      rintro v (⟨r, rfl⟩ | ⟨route, b⟩ | ⟨route, names⟩ | ⟨hne, hselects, htarget, hv⟩)
      · exact .directory hp h.symm r
      · exact .question hp route b
      · exact .listing hp route names
      · exact .input (.below hp h.symm hne hselects htarget) hv

/-- The summary of what was dealt with so far and of one more input. -/
def merged : Option Summary → Option Summary → Option Summary
  | total, none => total
  | none, some summary => some summary
  | some total, some summary => some (total.merge summary)

theorem Deals.append {total o : Option Summary} {past new : List FileEffect} {s₀ s' : Streams}
    (h : args.Deals c s₀ past (.ok total, s)) (h' : args.Deals c s new (.ok o, s')) :
    args.Deals c s₀ (past ++ new) (.ok (merged total o), s') where
  comprise := by
    refine h.comprise.append h'.comprise fun ws ws' hws hws' => ?_
    rintro _ ⟨⟩
    rw [← hws total rfl, ← hws' o rfl]
    rcases total with _ | total <;> rcases o with _ | o <;> simp [merged, Summary.merge]
  aborts := nofun
  quiet hwrites := (h'.quiet hwrites).trans (h.quiet hwrites)

theorem Deals.append_error {total : Option Summary} {e : RunError} {past new : List FileEffect}
    {s₀ s' : Streams} (h : args.Deals c s₀ past (.ok total, s)) (h' : args.Deals c s new (.error e, s')) :
    args.Deals c s₀ (past ++ new) (.error e, s') where
  comprise := h.comprise.append h'.comprise fun _ _ _ _ _ h => by cases h
  aborts := h'.aborts
  quiet hwrites := (h'.quiet hwrites).trans (h.quiet hwrites)

theorem records_runOnPaths {paths : List Path} (hpaths : ∀ p ∈ paths, p ∈ args.files) :
    Records ((args.runOnPaths c paths).run.run s) ((args.runOnPaths c paths).run.run s) fun new r =>
      args.Deals c s new r ∧ (args.writes = true → r.1 = .ok none → new = []) := by
  refine foldlMR (Q := fun new r => args.Deals c s new r ∧ (args.writes = true → r.1 = .ok none → new = []))
    (fun p hp past total s' h => ?_) ⟨⟨.nil ?_, nofun, fun _ => rfl⟩, fun _ _ => rfl⟩
  · refine bindR (records_runOnPath (hpaths p hp)) (fun new e s' h' => ?_) fun new o s'' h' => ?_
    · exact ⟨h.1.append_error h'.1, fun _ => nofun⟩
    · have hdeals := h.1.append h'.1
      have hnone : args.writes = true → o ≠ none := fun hwrites ho => h'.2 hwrites (congrArg _ ho)
      rcases o with _ | summary
      · exact Records.pure ⟨by simpa [merged] using hdeals, fun hwrites => absurd rfl (hnone hwrites)⟩
      · rcases total with _ | total <;>
          exact Records.pure ⟨by simpa [merged] using hdeals, fun _ => nofun⟩
  · rintro _ ⟨⟩
    rfl

/-- What a run tells in the end, if it writes to files: nothing if it was cut short, and otherwise every
warning, once, in order. -/
def Reports (args : Arguments) (new : List FileEffect) (r : Except RunError Unit × Streams)
    (ws : List FileWarning) : Prop :=
  (∀ e, r.1 = .error e → e.aborts = true → r.2 = {}) ∧
  ((∀ e, r.1 = .error e → e.aborts = false) →
    new = [] ∨ ∃ summary : Summary, summary.warnings = ws ∧ r.2 = Streams.report {} args.json summary)

/-- What a run does, whatever comes of it. -/
abbrev Concludes (args : Arguments) (new : List FileEffect) (r : Except RunError Unit × Streams) : Prop :=
  Comprise (fun v => ∃ c, args.converter = .ok c ∧ args.RunVisit c v)
    (fun ws => args.writes = true → args.Reports new r ws) new

theorem Reports.nothing {r : Except RunError Unit × Streams} {ws : List FileWarning}
    (h : ∀ e, r.1 = .error e → r.2 = {}) : args.Reports [] r ws :=
  ⟨fun e he _ => h e he, fun _ => .inl rfl⟩

/-- The standard input is none of the files. -/
theorem records_runOnInput (input : ByteArray) :
    Records ((args.runOnInput c (pure input)).run.run {}) ((args.runOnInput c (pure input)).run.run {})
      args.Concludes := by
  refine bindR (P := fun new r => new = [] ∧ r.2 = {}) (liftR (Records.pure ⟨rfl, rfl⟩)) ?_ ?_
  · rintro _ e _ ⟨rfl, rfl⟩
    exact .nil fun _ => .nothing fun _ _ => rfl
  rintro _ bytes _ ⟨rfl, rfl⟩
  refine bindR (P := fun new r => new = [] ∧ r.2 = {})
    (Records.onFiles (Records.ofExcept ⟨rfl, rfl⟩)) ?_ ?_
  · rintro _ e _ ⟨rfl, rfl⟩
    exact .nil fun _ => .nothing fun _ _ => rfl
  · rintro _ rendered _ ⟨rfl, rfl⟩
    exact Records.pure (.nil fun _ => .nothing nofun)

/-- The summary of a run is told in the end. -/
theorem records_report {summary : Summary} {new : List FileEffect} (hconverter : args.converter = .ok c)
    (h : args.Deals c {} new (.ok (some summary), s)) :
    Records ((do
        modify (·.report args.json summary)
        unless summary.success do throw (.failures summary.errors.length) :
          RunM (StateM FileTree) Unit).run.run s)
      ((do
        modify (·.report args.json summary)
        unless summary.success do throw (.failures summary.errors.length) :
          RunM (StateM Recorded) Unit).run.run s)
      fun more r => args.Concludes (new ++ more) r := by
  have hconcludes (r : Except RunError Unit) (hr : ∀ e, r = .error e → e.aborts = false) :
      args.Concludes (new ++ []) (r, s.report args.json summary) := by
    rw [List.append_nil]
    refine h.comprise.mono (fun v hv => ⟨c, hconverter, hv⟩) fun ws hws hwrites => ⟨?_, fun _ => .inr ?_⟩
    · intro e he haborts
      exact absurd haborts (by simp [hr e he])
    · exact ⟨summary, hws _ rfl, congrArg (·.report args.json summary) (h.quiet hwrites)⟩
  rcases hsuccess : summary.success with _ | _
  · exact Records.pure (hconcludes _ fun e he => by cases he; rfl)
  · exact Records.pure (hconcludes _ nofun)

theorem records_run (args : Arguments) (input : ByteArray) :
    Records (args.run (pure input)) (args.run (pure input)) args.Concludes := by
  show Records ((args.runM (pure input)).run.run {}) ((args.runM (pure input)).run.run {}) _
  rw [runM, runM]
  rcases args.listPlugins with _ | _
  swap
  · exact Records.pure (.nil fun _ => .nothing nofun)
  refine bindR (P := fun new r => new = [] ∧ r.1 = args.converter.mapError .unknownPlugin ∧ r.2 = {})
    (ofExceptR ⟨rfl, rfl, rfl⟩) ?_ ?_
  · rintro _ e _ ⟨rfl, -, rfl⟩
    exact .nil fun _ => .nothing fun _ _ => rfl
  rintro _ c _ ⟨rfl, h, rfl⟩
  have hconverter : args.converter = .ok c := by
    rcases hc : args.converter with e | c' <;> rw [hc] at h <;> cases h
    rfl
  rcases args.files.isEmpty with _ | _
  swap
  · exact records_runOnInput input
  refine bindR (records_runOnPaths fun p hp => hp) (fun new e s hdeals => ?_) fun new o s hdeals => ?_
  · refine hdeals.1.comprise.mono (fun v hv => ⟨c, hconverter, hv⟩) fun ws _ hwrites => ⟨?_, fun he => ?_⟩
    · exact fun _ _ _ => hdeals.1.quiet hwrites
    · exact absurd (hdeals.1.aborts e rfl) (by simp [he e rfl])
  · rcases o with _ | summary
    · refine Records.pure ?_
      rw [List.append_nil]
      exact hdeals.1.comprise.mono (fun v hv => ⟨c, hconverter, hv⟩) fun ws _ hwrites =>
        ⟨nofun, fun _ => .inl (hdeals.2 hwrites rfl)⟩
    · exact records_report hconverter hdeals.1

end Arguments

end Downlevel
