import Downlevel.File.Converter
import Downlevel.Proofs.Storing

/-!
# Recorded file trees

A recorded file tree keeps a list of all that was asked of it, with what came of it. Whatever works on
any file system works on a recorded tree as it does on the tree itself, and in addition something can be
said of what it did there: `Records` is that relation between the two, with one lemma for each way to put
work together.
-/

namespace Downlevel

/-- The core library's instance, also where another library gives one. -/
local instance (priority := high) instDecidableEqBytes : DecidableEq ByteArray :=
  ByteArray.instDecidableEq

/-- What was asked of a file tree, and what came of it. -/
inductive FileEffect where
  | isDirectory (p : Path) (r : Bool)
  | list (p : Path) (r : Except OsError (List String))
  | read (p : Path) (r : Except OsError ByteArray)
  | createDirectories (p : Path) (r : Except OsError Unit)
  | write (p : Path) (bytes : ByteArray) (r : Except OsError Unit)
deriving DecidableEq

/-- From one tree to another, this happens. -/
inductive FileEffect.Happens : FileEffect → FileTree → FileTree → Prop
  | isDirectory (p : Path) (t : FileTree) : Happens (.isDirectory p (t.isDirectory p)) t t
  | list (p : Path) (t : FileTree) : Happens (.list p (t.list p)) t t
  | read (p : Path) (t : FileTree) : Happens (.read p (t.read p)) t t
  | createDirectories {p : Path} {r : Except OsError Unit} {t t' : FileTree}
    (h : t.createDirectories p = (r, t')) : Happens (.createDirectories p r) t t'
  | written {p : Path} {bytes : ByteArray} {t t' : FileTree} (h : t.write p bytes = .ok t') :
    Happens (.write p bytes (.ok ())) t t'
  | unwritten {p : Path} {bytes : ByteArray} {e : OsError} {t : FileTree}
    (h : t.write p bytes = .error e) : Happens (.write p bytes (.error e)) t t

/-- From one tree to another, these happen one after another. -/
inductive Happen : List FileEffect → FileTree → FileTree → Prop
  | nil (t : FileTree) : Happen [] t t
  | cons {e : FileEffect} {es : List FileEffect} {t t' t'' : FileTree} (h : e.Happens t t')
    (hs : Happen es t' t'') : Happen (e :: es) t t''

namespace Happen

variable {e : FileEffect} {es es' : List FileEffect} {t t' t'' : FileTree}

theorem singleton (h : e.Happens t t') : Happen [e] t t' :=
  .cons h (.nil t')

theorem append (h : Happen es t t') (h' : Happen es' t' t'') : Happen (es ++ es') t t'' := by
  induction h with
  | nil => exact h'
  | cons he _ ih => exact .cons he (ih h')

end Happen

/-- A file tree and what has been done to it. -/
structure Recorded where
  tree : FileTree
  effects : List FileEffect := []

namespace Recorded

/-- Does something to the tree, and takes it down. -/
def record {α : Type} (effects : α → List FileEffect) (x : StateM FileTree α) : StateM Recorded α :=
  fun s => ((x.run s.tree).1, ⟨(x.run s.tree).2, s.effects ++ effects (x.run s.tree).1⟩)

instance : FileSystem (StateM Recorded) where
  isDirectory p := record (fun r => [.isDirectory p r]) (FileSystem.isDirectory p)
  list p := record (fun r => [.list p r]) (FileSystem.list p)
  read p := record (fun r => [.read p r]) (FileSystem.read p)
  write p bytes := record (fun r => [.write p bytes r]) (FileSystem.write p bytes)
  createDirectories p := record (fun r => [.createDirectories p r]) (FileSystem.createDirectories p)

end Recorded

/-- One piece of work does on a recorded tree what the other does on the tree itself; the effects that it
adds did happen, and they fit its result. -/
def Records {α : Type} (x : StateM FileTree α) (y : StateM Recorded α) (fits : List FileEffect → α → Prop) :
    Prop :=
  ∀ t past, ∃ new, y.run ⟨t, past⟩ = ((x.run t).1, ⟨(x.run t).2, past ++ new⟩) ∧
    Happen new t (x.run t).2 ∧ fits new (x.run t).1

namespace Records

section Base

variable {α β : Type} {x : StateM FileTree α} {y : StateM Recorded α} {f : α → StateM FileTree β}
  {g : α → StateM Recorded β} {P : List FileEffect → α → Prop} {Q : List FileEffect → β → Prop}

theorem mono {P' : List FileEffect → α → Prop} (h : Records x y P) (hP : ∀ new a, P new a → P' new a) :
    Records x y P' := by
  intro t past
  obtain ⟨new, hrun, hhappen, hfits⟩ := h t past
  exact ⟨new, hrun, hhappen, hP _ _ hfits⟩

theorem pure {a : α} (h : P [] a) : Records (pure a) (pure a) P :=
  fun t past => ⟨[], by rw [List.append_nil]; rfl, .nil t, h⟩

theorem bind (hx : Records x y P)
    (hf : ∀ new a, P new a → Records (f a) (g a) fun more b => Q (new ++ more) b) :
    Records (x >>= f) (y >>= g) Q := by
  intro t past
  obtain ⟨new, hrun, hhappen, hP⟩ := hx t past
  obtain ⟨more, hrun', hhappen', hQ⟩ := hf new _ hP (x.run t).2 (past ++ new)
  refine ⟨new ++ more, ?_, hhappen.append hhappen', hQ⟩
  show (g (y.run ⟨t, past⟩).1).run (y.run ⟨t, past⟩).2 = _
  rw [hrun, ← List.append_assoc]
  exact hrun'

theorem map (φ : α → β) (hx : Records x y fun new a => Q new (φ a)) : Records (φ <$> x) (φ <$> y) Q := by
  intro t past
  obtain ⟨new, hrun, hhappen, hfits⟩ := hx t past
  refine ⟨new, ?_, hhappen, hfits⟩
  show (φ (y.run ⟨t, past⟩).1, (y.run ⟨t, past⟩).2) = _
  rw [hrun]
  rfl

/-- A single operation. -/
theorem record {effects : α → List FileEffect}
    (h : ∀ t, Happen (effects (x.run t).1) t (x.run t).2) :
    Records x (Recorded.record effects x) fun new a => new = effects a :=
  fun t _ => ⟨_, rfl, h t, rfl⟩

end Base

section Operations

variable (p : Path)

theorem isDirectory : Records (FileSystem.isDirectory p) (FileSystem.isDirectory p)
    fun new r => new = [.isDirectory p r] :=
  record fun t => .singleton (.isDirectory p t)

theorem list : Records (FileSystem.list p) (FileSystem.list p) fun new r => new = [.list p r] :=
  record fun t => .singleton (.list p t)

theorem read : Records (FileSystem.read p) (FileSystem.read p) fun new r => new = [.read p r] :=
  record fun t => .singleton (.read p t)

theorem write (bytes : ByteArray) : Records (FileSystem.write p bytes) (FileSystem.write p bytes)
    fun new r => new = [.write p bytes r] := by
  refine record fun t => .singleton ?_
  rcases h : t.write p bytes with e | t'
  · have hrun : (FileSystem.write p bytes : StateM FileTree (Except OsError Unit)).run t = (.error e, t) := by
      simp [FileSystem.write, StateT.run, h]
    rw [hrun]
    exact .unwritten h
  · have hrun : (FileSystem.write p bytes : StateM FileTree (Except OsError Unit)).run t = (.ok (), t') := by
      simp [FileSystem.write, StateT.run, h]
    rw [hrun]
    exact .written h

theorem createDirectories : Records (FileSystem.createDirectories p) (FileSystem.createDirectories p)
    fun new r => new = [.createDirectories p r] :=
  record fun _ => .singleton (.createDirectories rfl)

end Operations

/-! ## Work that may fail -/

section Except

variable {ε α β : Type} {x : ExceptT ε (StateM FileTree) α} {y : ExceptT ε (StateM Recorded) α}
  {f : α → ExceptT ε (StateM FileTree) β} {g : α → ExceptT ε (StateM Recorded) β}
  {P : List FileEffect → Except ε α → Prop} {Q : List FileEffect → Except ε β → Prop}

theorem pureE {a : α} (h : P [] (.ok a)) : Records (Pure.pure a : ExceptT ε (StateM FileTree) α).run
    (Pure.pure a : ExceptT ε (StateM Recorded) α).run P :=
  pure h

theorem bindE (hx : Records x.run y.run P) (herror : ∀ new e, P new (.error e) → Q new (.error e))
    (hok : ∀ new a, P new (.ok a) → Records (f a).run (g a).run fun more b => Q (new ++ more) b) :
    Records (x >>= f).run (y >>= g).run Q := by
  show Records (x.run >>= ExceptT.bindCont f) (y.run >>= ExceptT.bindCont g) Q
  refine bind hx fun new a hP => ?_
  rcases a with e | a
  · exact pure (by simpa using herror new e hP)
  · exact hok new a hP

theorem liftE {x : StateM FileTree α} {y : StateM Recorded α} (h : Records x y fun new a => P new (.ok a)) :
    Records (liftM x : ExceptT ε (StateM FileTree) α).run (liftM y : ExceptT ε (StateM Recorded) α).run P :=
  map Except.ok h

theorem ofExcept {r : Except ε α} (h : P [] r) :
    Records (liftExcept r : ExceptT ε (StateM FileTree) α).run
      (liftExcept r : ExceptT ε (StateM Recorded) α).run P := by
  rcases r with e | a <;> exact pure h

theorem foldlM {γ : Type} {f : β → γ → ExceptT ε (StateM FileTree) β}
    {g : β → γ → ExceptT ε (StateM Recorded) β} {l : List γ} {past : List FileEffect} {b : β}
    (hstep : ∀ c ∈ l, ∀ past b, Q past (.ok b) →
      Records (f b c).run (g b c).run fun new r => Q (past ++ new) r) (h : Q past (.ok b)) :
    Records (l.foldlM f b).run (l.foldlM g b).run fun new r => Q (past ++ new) r := by
  induction l generalizing past b with
  | nil => exact pureE (by simpa using h)
  | cons c l ih =>
    rw [List.forall_mem_cons] at hstep
    rw [List.foldlM_cons, List.foldlM_cons]
    refine bindE (hstep.1 past b h) (fun _ _ hQ => hQ) fun new b hQ => ?_
    exact (ih hstep.2 hQ).mono fun more r hQ => by rwa [← List.append_assoc]

end Except

end Records

end Downlevel
