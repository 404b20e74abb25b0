import Downlevel.Proofs.Walk

/-!
# The calls of a walk

A plugin that also notes the calls of its hooks (`Plugin.noting`) walks as before, and the calls tell
at every moment which nodes are entered and not yet left: the active path. Hooks may make anything of
the tree, so nodes move while they have entries in the parent index. Still, as long as no node is
entered below itself, the ancestors of a node at every call are the active path, and the index has
no cycle (`walk_ancestors`): an entry is only ever made for a node that is not on the trail of its
new parent. How deep a walk may go does not matter, unless it is cut off.
-/

namespace Downlevel

/-- Which hook is called. -/
inductive Moment where
  | enter
  | leave
deriving DecidableEq

/-- A call of a hook for a node: the module it is given, what it replies, and what it makes of the
draft. -/
structure Call where
  moment : Moment
  node : NodeId
  seen : Module
  reply : Except String Signal
  left : Draft

namespace Call

variable {before calls : List Call} {c : Call}

/-! ## Logs of calls -/

/-- The nodes that are entered and not left after these calls, nearest first. -/
def activePath : List Call → List NodeId :=
  List.foldl (fun path c => match c.moment with
    | .enter => c.node :: path
    | .leave => path.tail) []

/-- The active path at a call, from the node it is for. -/
def path (before : List Call) (c : Call) : List NodeId :=
  match c.moment with
  | .enter => c.node :: activePath before
  | .leave => activePath before

theorem activePath_concat : activePath (calls ++ [c]) = match c.moment with
    | .enter => c.node :: activePath calls
    | .leave => (activePath calls).tail := by
  simp [activePath]

/-- Every call, after those before it, satisfies `P`. -/
def Each (P : List Call → Call → Prop) (calls : List Call) : Prop :=
  ∀ before c after, calls = before ++ c :: after → P before c

theorem each_nil {P : List Call → Call → Prop} : Each P [] := by
  intro before c after h
  simp at h

theorem each_concat {P : List Call → Call → Prop} :
    Each P (calls ++ [c]) ↔ Each P calls ∧ P calls c := by
  constructor
  · intro h
    exact ⟨fun before d after hd => h before d (after ++ [c]) (by simp [hd]), h calls c [] rfl⟩
  · rintro ⟨h, hc⟩ before d after hd
    rcases List.eq_nil_or_concat' after with rfl | ⟨after, e, rfl⟩
    · obtain ⟨rfl, hcd⟩ := List.append_inj' hd rfl
      cases hcd
      exact hc
    · rw [← List.cons_append, ← List.append_assoc] at hd
      exact h before d after (List.append_inj' hd rfl).1

theorem Each.of_append {P : List Call → Call → Prop} {after : List Call}
    (h : Each P (before ++ after)) : Each P before :=
  fun _ d _ hd => h _ d _ (by rw [hd, List.append_assoc, List.cons_append])

instance {P : List Call → Call → Prop} [∀ before c, Decidable (P before c)] (calls : List Call) :
    Decidable (Each P calls) :=
  decidable_of_iff (∀ i, ∀ h : i < calls.length, P (calls.take i) calls[i]) <| by
    constructor
    · rintro h before c after rfl
      simpa using h before.length (by simp)
    · exact fun h i hi => h _ _ (calls.drop (i + 1)) (by simp)

/-- No node is entered while it is on the active path. -/
def Fresh : List Call → Prop :=
  Each fun before c => c.moment = .enter → c.node ∉ activePath before

instance (calls : List Call) : Decidable (Fresh calls) :=
  inferInstanceAs (Decidable (Each _ calls))

/-- The call finds the active path in the parent index, up to the root, and no cycle. -/
structure Finds (root : NodeId) (before : List Call) (c : Call) : Prop where
  path_eq : c.path before = c.node :: c.seen.ancestors c.node
  getLast? : (c.path before).getLast? = some root
  grounded : c.seen.parents.Grounded

/-- Calls find the active path as long as they are fresh. -/
def Sound (root : NodeId) : List Call → Prop :=
  Each fun before c => Fresh (before ++ [c]) → c.Finds root before

end Call

/-! ## Noting calls -/

/-- Does the same, and notes the call. -/
def Hook.noting {C : Type} (moment : Moment) (hook : Hook C) : Hook (C × List Call) :=
  fun id m (cx, calls) =>
    let (reply, draft, cx) := hook id m cx
    (reply, draft, cx, calls ++ [⟨moment, id, m, reply, draft⟩])

/-- Does the same, and notes the calls of its hooks. -/
@[reducible] def Plugin.noting (p : Plugin) : Plugin where
  name := p.name
  description := p.description
  Context := p.Context × List Call
  initial := (p.initial, [])
  start := fun m => ((p.start m).1.map (·, []), (p.start m).2)
  enter := p.enter.noting .enter
  leave := p.leave.noting .leave
  finish := fun m cx => p.finish m cx.1

/-- The calls of a walk that goes at most `depth` levels deep, in their order. -/
def Plugin.callsWithin (p : Plugin) (depth : Nat) (m : Module) (context : p.Context) : List Call :=
  (p.noting.walkWithin depth m (context, [])).2.2.2

def Plugin.calls (p : Plugin) (m : Module) (context : p.Context) : List Call :=
  p.callsWithin (depthLimit m.tree) m context

namespace WalkState

variable {C : Type}

def calls (s : WalkState (C × List Call)) : List Call :=
  s.context.2

/-- The state without the calls that were noted. -/
def forget (s : WalkState (C × List Call)) : WalkState C :=
  ⟨s.module, s.context.1, s.entered⟩

/-- The outcome of a visit without the calls that were noted. -/
def forgetOutcome (r : Except Failure Signal × WalkState (C × List Call)) :
    Except Failure Signal × WalkState C :=
  (r.1, r.2.forget)

theorem call_noting (moment : Moment) (hook : Hook C) (id : NodeId)
    (s : WalkState (C × List Call)) :
    forgetOutcome (s.call (hook.noting moment) id) = s.forget.call hook id := rfl

/-- The call of a hook that is made from here. -/
def noted (s : WalkState (C × List Call)) (moment : Moment) (hook : Hook C) (id : NodeId) : Call :=
  let (reply, draft, _) := hook id s.module s.context.1
  ⟨moment, id, s.module, reply, draft⟩

theorem visitAll_noting
    {visit' : NodeId → WalkState (C × List Call) → Except Failure Signal × WalkState (C × List Call)}
    {visit : NodeId → WalkState C → Except Failure Signal × WalkState C}
    (h : ∀ id s, forgetOutcome (visit' id s) = visit id s.forget) :
    ∀ ids s, forgetOutcome (visitAll visit' ids s) = visitAll visit ids s.forget
  | [], _ => rfl
  | id :: ids, s => by
    rw [visitAll, visitAll, ← h]
    rcases visit' id s with ⟨_ | signal, s⟩
    · rfl
    · cases signal with
      | stop => rfl
      | proceed | skip => exact visitAll_noting h ids s

end WalkState

namespace Plugin

open WalkState Call

variable {p : Plugin}

theorem leaveNode_noting (id : NodeId) (s : WalkState p.noting.Context) :
    forgetOutcome (p.noting.leaveNode id s) = p.leaveNode id s.forget := by
  have hcall : forgetOutcome (s.call p.noting.leave id) = s.forget.call p.leave id :=
    call_noting ..
  rw [leaveNode, leaveNode, ← hcall]
  rcases s.call p.noting.leave id with ⟨_ | signal, s⟩
  · rfl
  · cases signal <;> rfl

/-- A visit goes the same way whether its calls are noted or not. -/
theorem visit_noting (depth : Nat) (parent : Option NodeId) (id : NodeId)
    (s : WalkState p.noting.Context) :
    forgetOutcome (p.noting.visit depth parent id s) = p.visit depth parent id s.forget := by
  induction depth generalizing parent id s with
  | zero => rfl
  | succ depth ih =>
    have hcall : forgetOutcome ((s.arrive id parent).call p.noting.enter id)
        = (s.forget.arrive id parent).call p.enter id := call_noting ..
    rw [visit, visit, ← hcall]
    rcases (s.arrive id parent).call p.noting.enter id with ⟨_ | signal, s⟩
    · rfl
    · cases signal with
      | stop => rfl
      | skip => exact leaveNode_noting id s
      | proceed =>
        have hall : forgetOutcome (visitAll (p.noting.visit depth (some id))
              (s.module.tree.children id) s)
            = visitAll (p.visit depth (some id)) (s.forget.module.tree.children id) s.forget :=
          visitAll_noting (ih (some id)) _ s
        simp only [forgetOutcome] at hall ⊢
        rw [← hall]
        rcases visitAll (p.noting.visit depth (some id)) (s.module.tree.children id) s
          with ⟨_ | signal, s⟩
        · rfl
        · cases signal with
          | stop => rfl
          | skip | proceed => exact leaveNode_noting id s

/-- A walk is the same whether its calls are noted or not. -/
theorem walkWithin_noting (p : Plugin) (depth : Nat) (m : Module) (context : p.Context) :
    p.walkWithin depth m context = ((p.noting.walkWithin depth m (context, [])).1,
      (p.noting.walkWithin depth m (context, [])).2.1,
      (p.noting.walkWithin depth m (context, [])).2.2.1) := by
  have h : p.visit depth none m.tree.root ⟨{ m with parents := {} }, context, 0⟩ = _ :=
    (visit_noting _ _ _ ⟨{ m with parents := {} }, (context, []), 0⟩).symm
  rw [walkWithin_eq, walkWithin_eq, h]
  rcases p.noting.visit depth none m.tree.root _ with ⟨r, s⟩
  rfl

/-- A walk that does not go too deep makes the same calls if it may go deeper. -/
theorem callsWithin_of_le {depth depth' : Nat} {m : Module} {context : p.Context} (hdepth : depth ≤ depth')
    (h : (p.walkWithin depth m context).1 ≠ .error .tooDeep) :
    p.callsWithin depth' m context = p.callsWithin depth m context := by
  rw [walkWithin_noting] at h
  rw [callsWithin, callsWithin, walkWithin_of_le hdepth h]

end Plugin

/-! ## The active path -/

namespace WalkState

open Call

variable {C : Type} {root id : NodeId} {path after : List NodeId} {s : WalkState (C × List Call)}

/-- The nodes of `path` are active, and the parent index leads along them. -/
structure Follows (path : List NodeId) (s : WalkState (C × List Call)) : Prop where
  active : activePath s.calls = path
  trail : s.module.parents.Trail path
  grounded : s.module.parents.Grounded

/-- A node is entered from the first node of the path, which it is not on. -/
theorem Follows.arrive (h : s.Follows path) (hid : id ∉ path)
    (hroot : path = [] → s.module.parents.parent? id = none) :
    (s.arrive id path.head?).module.parents.Trail (id :: path) ∧
      (s.arrive id path.head?).module.parents.Grounded := by
  cases path with
  | nil => exact ⟨hroot rfl, h.grounded⟩
  | cons parent path => exact ⟨h.trail.insert hid, h.grounded.insert h.trail hid⟩

/-- All calls so far were sound. If they were fresh, the index has no cycle, and the walk follows
`path` unless it ends here. -/
structure Tracked (root : NodeId) (path : List NodeId)
    (r : Except Failure Signal × WalkState (C × List Call)) : Prop where
  sound : Sound root r.2.calls
  grounded : Fresh r.2.calls → r.2.module.parents.Grounded
  follows : ∀ signal, r.1 = .ok signal → signal ≠ .stop → Fresh r.2.calls → r.2.Follows path

theorem Tracked.proceed {signal : Signal} (h : Tracked root path (.ok signal, s))
    (hsignal : signal ≠ .stop) : Tracked root path (.ok .proceed, s) :=
  ⟨h.sound, h.grounded, fun _ _ _ => h.follows signal rfl hsignal⟩

theorem Tracked.ended {reply reply' : Except Failure Signal} (h : Tracked root path (reply, s))
    (hreply : ∀ signal, reply' = .ok signal → signal = .stop) : Tracked root after (reply', s) :=
  ⟨h.sound, h.grounded, fun signal hok hne => absurd (hreply signal hok) hne⟩

/-- A call made where the index leads along the active path finds that path, and only the log
changes. -/
theorem tracked_call {moment : Moment} {hook : Hook C} (hlast : (id :: path).getLast? = some root)
    (hafter : after <:+ id :: path) (hsound : Sound root s.calls)
    (h : Fresh (s.calls ++ [s.noted moment hook id]) →
      Call.path s.calls (s.noted moment hook id) = id :: path ∧
      activePath (s.calls ++ [s.noted moment hook id]) = after ∧
      s.module.parents.Trail (id :: path) ∧ s.module.parents.Grounded) :
    Tracked root after (s.call (hook.noting moment) id) where
  sound := each_concat.mpr ⟨hsound, fun hfresh => by
    obtain ⟨hpath, -, htrail, hgrounded⟩ := h hfresh
    have hancestors : s.module.ancestors id = path := htrail.ancestors
    exact ⟨hpath.trans (congrArg (id :: ·) hancestors.symm), hpath ▸ hlast, hgrounded⟩⟩
  grounded hfresh := (h hfresh).2.2.2
  follows _ _ _ hfresh := by
    obtain ⟨-, hactive, htrail, hgrounded⟩ := h hfresh
    obtain ⟨front, hfront⟩ := hafter
    exact ⟨hactive, (hfront ▸ htrail).of_append, hgrounded⟩

theorem tracked_visitAll
    {visit : NodeId → WalkState (C × List Call) → Except Failure Signal × WalkState (C × List Call)}
    (hvisit : ∀ id s, Tracked root path (.ok .proceed, s) → Tracked root path (visit id s)) :
    ∀ ids s, Tracked root path (.ok .proceed, s) → Tracked root path (visitAll visit ids s)
  | [], _, h => h
  | id :: ids, s, h => by
    have hfirst := hvisit id s h
    rw [visitAll]
    generalize visit id s = r at hfirst
    obtain ⟨_ | signal, s⟩ := r
    · exact hfirst
    · cases signal with
      | stop => exact hfirst
      | proceed | skip => exact tracked_visitAll hvisit ids s (hfirst.proceed (by decide))

end WalkState

namespace Plugin

open Call WalkState

variable {p : Plugin} {root id : NodeId} {path : List NodeId} {s : WalkState p.noting.Context}

/-- Entering a node puts it on the path. -/
theorem tracked_enter (hlast : (id :: path).getLast? = some root)
    (hroot : path = [] → s.module.parents.parent? id = none)
    (h : Tracked root path (.ok .proceed, s)) :
    Tracked root (id :: path) ((s.arrive id path.head?).call p.noting.enter id) := by
  refine tracked_call hlast (List.suffix_refl _) h.sound fun hfresh => ?_
  obtain ⟨hbefore, hid⟩ := each_concat.mp hfresh
  have hfollows := h.follows .proceed rfl (by decide) hbefore
  have hpath : id :: activePath s.calls = id :: path := congrArg (id :: ·) hfollows.active
  obtain ⟨htrail, hgrounded⟩ := hfollows.arrive (hfollows.active ▸ hid rfl) hroot
  exact ⟨hpath, activePath_concat.trans hpath, htrail, hgrounded⟩

/-- Leaving a node takes it off the path. -/
theorem tracked_leaveNode (hlast : (id :: path).getLast? = some root)
    (h : Tracked root (id :: path) (.ok .proceed, s)) :
    Tracked root path (p.noting.leaveNode id s) := by
  have hcall : Tracked root path (s.call p.noting.leave id) := by
    refine tracked_call hlast (List.suffix_cons _ _) h.sound fun hfresh => ?_
    have hfollows := h.follows .proceed rfl (by decide) (each_concat.mp hfresh).1
    exact ⟨hfollows.active, activePath_concat.trans (congrArg List.tail hfollows.active),
      hfollows.trail, hfollows.grounded⟩
  rw [leaveNode]
  generalize s.call p.noting.leave id = r at hcall
  obtain ⟨_ | signal, s⟩ := r
  · exact hcall
  · cases signal with
    | skip => exact hcall.proceed (by decide)
    | proceed | stop => exact hcall

/-- A visit comes back to the path it was made from. -/
theorem tracked_visit (depth : Nat) (path : List NodeId) (id : NodeId)
    (s : WalkState p.noting.Context) (hlast : (id :: path).getLast? = some root)
    (hroot : path = [] → s.module.parents.parent? id = none)
    (h : Tracked root path (.ok .proceed, s)) :
    Tracked root path (p.noting.visit depth path.head? id s) := by
  induction depth generalizing path id s with
  | zero => exact h.ended (by simp)
  | succ depth ih =>
    have henter := tracked_enter hlast hroot h
    rw [visit]
    generalize (s.arrive id path.head?).call p.noting.enter id = r at henter
    obtain ⟨_ | signal, s⟩ := r
    · exact henter.ended (by simp)
    · cases signal with
      | stop => exact henter.ended (by simp)
      | skip => exact tracked_leaveNode hlast (henter.proceed (by decide))
      | proceed =>
        have hvisit : ∀ c s, Tracked root (id :: path) (.ok .proceed, s) →
            Tracked root (id :: path) (p.noting.visit depth (some id) c s) :=
          fun c s => ih (id :: path) c s (by simpa using hlast) (by simp)
        have hchildren := tracked_visitAll hvisit (s.module.tree.children id) s henter
        dsimp only
        generalize visitAll (p.noting.visit depth (some id)) (s.module.tree.children id) s = r
          at hchildren ⊢
        obtain ⟨_ | signal, s⟩ := r
        · exact hchildren.ended (by simp)
        · cases signal with
          | stop => exact hchildren.ended (by simp)
          | skip | proceed => exact tracked_leaveNode hlast (hchildren.proceed (by decide))

theorem tracked_walk (p : Plugin) (depth : Nat) (m : Module) (context : p.Context) :
    Sound m.tree.root (p.callsWithin depth m context) ∧
      (Fresh (p.callsWithin depth m context) →
        (p.walkWithin depth m context).2.1.parents.Grounded) := by
  have h : Tracked m.tree.root [] (p.noting.visit depth none m.tree.root
      ⟨{ m with parents := {} }, (context, []), 0⟩) :=
    tracked_visit _ [] _ _ rfl (fun _ => rfl) ⟨each_nil, fun _ => ParentIndex.grounded_empty,
      fun _ _ _ _ => ⟨rfl, trivial, ParentIndex.grounded_empty⟩⟩
  rw [walkWithin_noting, callsWithin, walkWithin_eq]
  exact ⟨h.sound, h.grounded⟩

end Plugin

/-- As long as no node is entered below itself, the ancestors of a node at every call are the rest
of the active path, which ends at the root, and there is no cycle in the parent index, then and
after the walk. This holds at every depth, and a walk that is not cut off is the same, call by call, if
it may go deeper. -/
theorem walk_ancestors (p : Plugin) (depth : Nat) (m : Module) (context : p.Context)
    (hfresh : Call.Fresh (p.callsWithin depth m context)) :
    (∀ before c after, p.callsWithin depth m context = before ++ c :: after →
      c.path before = c.node :: c.seen.ancestors c.node ∧
      (c.path before).getLast? = some m.tree.root ∧
      c.seen.parents.Acyclic ∧ c.seen.parents.Grounded) ∧
    (p.walkWithin depth m context).2.1.parents.Acyclic ∧
    (p.walkWithin depth m context).2.1.parents.Grounded ∧
    p.walkWithin depth m context = ((p.noting.walkWithin depth m (context, [])).1,
      (p.noting.walkWithin depth m (context, [])).2.1,
      (p.noting.walkWithin depth m (context, [])).2.2.1) ∧
    ((p.walkWithin depth m context).1 ≠ .error .tooDeep → ∀ depth', depth ≤ depth' →
      p.walkWithin depth' m context = p.walkWithin depth m context ∧
      p.callsWithin depth' m context = p.callsWithin depth m context) := by
  obtain ⟨hsound, hgrounded⟩ := p.tracked_walk depth m context
  refine ⟨fun before c after hsplit => ?_, (hgrounded hfresh).acyclic, hgrounded hfresh,
    p.walkWithin_noting depth m context, fun hdeep depth' hdepth =>
      ⟨Plugin.walkWithin_of_le hdepth hdeep, Plugin.callsWithin_of_le hdepth hdeep⟩⟩
  have hbefore : Call.Fresh (before ++ [c]) := by
    rw [hsplit, List.append_cons] at hfresh
    exact hfresh.of_append
  have hfinds := hsound before c after hsplit hbefore
  exact ⟨hfinds.path_eq, hfinds.getLast?, hfinds.grounded.acyclic, hfinds.grounded⟩

/-- Two blocks, with a statement in the first, and a parent index left over with a cycle in it. -/
def twoBlocks : Module where
  tree := ⟨#[⟨.program [1, 2], {}⟩, ⟨.block [3], {}⟩, ⟨.block [], {}⟩, ⟨.empty, {}⟩], 0⟩
  source := ""
  parents := ⟨[(0, 1), (1, 0)]⟩

/-- On leaving the first block, takes its statement out and puts the block into the second. -/
def moveBlock : Plugin where
  name := "move-block"
  Context := Unit
  initial := ()
  leave := Hook.edit fun id tree =>
    if id = 1 then (tree.replace 1 (.block [])).replace 2 (.block [1]) else tree

/-- The block is entered twice, from different nodes, and the statement it has lost is still below
it in the index. -/
theorem walk_ancestors_moveBlock :
    Call.Fresh (moveBlock.calls twoBlocks moveBlock.initial) ∧
      (moveBlock.walk twoBlocks moveBlock.initial).2.1.parents.entries
        = [(1, 2), (2, 0), (3, 1), (1, 0)] ∧
      (moveBlock.walk twoBlocks moveBlock.initial).2.1.parents.Acyclic := by
  have hfresh : Call.Fresh (moveBlock.calls twoBlocks moveBlock.initial) := by decide +kernel
  exact ⟨hfresh, by decide +kernel, (walk_ancestors _ _ _ _ hfresh).2.1⟩

end Downlevel
