import Downlevel.Proofs.Idle
import Downlevel.Proofs.Lifecycle

/-!
# Walks that only read

A plugin whose hooks leave the tree as it is and always ask to go on enters the nodes of a tree without
cycles in the order in which the tree lists them, and leaves them in post-order; a node with several
parents is entered once for each way to it. The list is also what a loop with a stack gives
(`Store.drains_reachable_iff`). If no node has two parents, the parent index holds the parents and
nothing else afterwards, whatever it held before (`walk_of_reads`).
-/

namespace Downlevel

/-! ## Orders of the nodes -/

namespace Store

variable {s : Store} {id : NodeId} {levels : Nat}

/-- The nodes below `id`, each after those below it, down to `depth` levels. -/
def postorder (s : Store) : Nat → NodeId → List NodeId
  | 0, _ => []
  | depth + 1, id => (s.children id).flatMap (s.postorder depth) ++ [id]

/-- The way around the nodes below `id`: a node is entered before those below it and left after them. -/
def tour (s : Store) : Nat → NodeId → List (Moment × NodeId)
  | 0, _ => []
  | depth + 1, id => (.enter, id) :: ((s.children id).flatMap (s.tour depth) ++ [(.leave, id)])

/-- The nodes of a tour for which a hook is called. -/
def nodesAt (moment : Moment) (tour : List (Moment × NodeId)) : List NodeId :=
  (tour.filter (·.1 = moment)).map Prod.snd

theorem nodesAt_tour_succ (moment : Moment) (depth : Nat) (id : NodeId) :
    nodesAt moment (s.tour (depth + 1) id) = nodesAt moment [(.enter, id)] ++
      ((s.children id).flatMap (fun c => nodesAt moment (s.tour depth c)) ++
        nodesAt moment [(.leave, id)]) := by
  rw [tour, ← List.singleton_append]
  simp only [nodesAt, List.filter_append, List.map_append, List.filter_flatMap, List.map_flatMap]

theorem nodesAt_enter_tour (depth : Nat) (id : NodeId) :
    nodesAt .enter (s.tour depth id) = s.preorder depth id := by
  induction depth generalizing id with
  | zero => rfl
  | succ depth ih =>
    rw [nodesAt_tour_succ, preorder, funext ih]
    simp [nodesAt]

theorem nodesAt_leave_tour (depth : Nat) (id : NodeId) :
    nodesAt .leave (s.tour depth id) = s.postorder depth id := by
  induction depth generalizing id with
  | zero => rfl
  | succ depth ih =>
    rw [nodesAt_tour_succ, postorder, funext ih]
    simp [nodesAt]

/-! ## The loop with a stack -/

/-- What a loop gives that takes a node off a stack and puts its children on, the first one on top, until
the stack is empty. -/
inductive Drains (s : Store) : List NodeId → List NodeId → Prop
  | done : Drains s [] []
  | next {id : NodeId} {stack order : List NodeId} (rest : Drains s (s.children id ++ stack) order) :
    Drains s (id :: stack) (id :: order)

theorem Drains.unique {stack order order' : List NodeId} (h : s.Drains stack order)
    (h' : s.Drains stack order') : order = order' := by
  induction h generalizing order' with
  | done => cases h'; rfl
  | next _ ih =>
    cases h' with
    | next rest => rw [ih rest]

/-- A node on top of the stack is worked off with all that lies below it before anything else. -/
theorem Drains.push {stack order : List NodeId} (h : s.Drains stack order) (hends : s.Ends levels id) :
    s.Drains (id :: stack) (s.preorder levels id ++ order) := by
  induction levels generalizing id stack order with
  | zero => exact hends.elim
  | succ levels ih =>
    refine .next ?_
    have hids : ∀ ids : List NodeId, (∀ c ∈ ids, s.Ends levels c) →
        s.Drains (ids ++ stack) (ids.flatMap (s.preorder levels) ++ order) := by
      intro ids hids
      induction ids with
      | nil => exact h
      | cons c ids ihids =>
        rw [List.forall_mem_cons] at hids
        rw [List.flatMap_cons, List.append_assoc]
        exact ih (ihids hids.2) hids.1
    exact hids _ hends

theorem drains_reachable_iff (h : s.Rooted) (order : List NodeId) :
    s.Drains [s.root] order ↔ order = s.reachable := by
  have hdrains := Drains.push .done h.ends
  rw [List.append_nil] at hdrains
  exact ⟨fun horder => horder.unique hdrains, fun heq => heq ▸ hdrains⟩

end Store

/-! ## Hooks that only read -/

/-- The hook asks to go on and leaves the tree as it is, in every module with this tree. What is reported,
and its own context, it may change. -/
def Hook.Reads {C : Type} (hook : Hook C) (s : Store) : Prop :=
  ∀ (id : NodeId) (m : Module) (cx : C), m.tree = s →
    (hook id m cx).1 = .ok .proceed ∧ (hook id m cx).2.1.tree = s

structure Plugin.Reads (p : Plugin) (s : Store) : Prop where
  enter : p.enter.Reads s
  leave : p.leave.Reads s

theorem Hook.Reads.steady {C : Type} {hook : Hook C} {s : Store} (h : hook.Reads s) (id : NodeId) :
    hook.Steady (fun draft => draft.tree = s) id := by
  intro m cx hm
  obtain ⟨hreply, htree⟩ := h id m cx hm
  exact ⟨_, _, Prod.ext hreply rfl, htree⟩

namespace Call

variable {s : Store} {p : Plugin} {ns : List NodeId} {calls : List Call} {o : Except Failure Signal}

/-- The call asks to go on and leaves this tree. -/
structure Reads (s : Store) (c : Call) : Prop where
  reply : c.reply = .ok .proceed
  tree : c.left.tree = s

/-- The hook that is called, and for which node. -/
def mark (c : Call) : Moment × NodeId :=
  (c.moment, c.node)

theorem reads_of_makes (h : p.Reads s) {c : Call} (hc : p.Makes c) (hseen : c.seen.tree = s) :
    c.Reads s := by
  obtain ⟨cx, cx', hcall⟩ := hc
  cases hmoment : c.moment <;> rw [hmoment] at hcall
  · have hreads := h.enter c.node c.seen cx hseen
    rw [show p.enter c.node c.seen cx = _ from hcall] at hreads
    exact ⟨hreads.1, hreads.2⟩
  · have hreads := h.leave c.node c.seen cx hseen
    rw [show p.leave c.node c.seen cx = _ from hcall] at hreads
    exact ⟨hreads.1, hreads.2⟩

/-- Each call finds the tree that the one before it has left. -/
theorem reads_of_threads (h : p.Reads s) {d d' : Draft} (hd : d.tree = s)
    (hthreads : Threads d (calls.map event) d') (hmade : ∀ c ∈ calls, p.Makes c) :
    ∀ c ∈ calls, c.Reads s := by
  induction calls generalizing d with
  | nil => exact nofun
  | cons c calls ih =>
    rw [List.forall_mem_cons] at hmade ⊢
    have hc := reads_of_makes h hmade.1 (hthreads.1.tree.symm.trans hd)
    exact ⟨hc, ih hc.tree hthreads.2 hmade.2⟩

theorem Reads.below {c : Call} (h : c.Reads s) : c.below = s.children c.node := by
  rw [Call.below, h.reply, h.tree]

/-- Calls that only read go around the tree. -/
theorem Visits.map_mark (h : Visits ns calls o) (ho : o = .ok .proceed)
    (hreads : ∀ c ∈ calls, c.Reads s) {levels : Nat} (hends : ∀ n ∈ ns, s.Ends levels n) :
    calls.map mark = ns.flatMap (s.tour levels) := by
  induction h generalizing levels with
  | done => rfl
  | tooDeep => cases ho
  | entering hc hend => exact absurd ho (ne_proceed_of_ending? hend)
  | within hc hnone hinner hne => exact absurd ho hne
  | leaving hc hnone hinner hd hend => exact absurd ho (ne_proceed_of_ending? hend)
  | @next n ns c d inner more o hc hnone hinner hd hend hmore ih ihmore =>
    rw [List.forall_mem_cons] at hends
    cases levels with
    | zero => exact hends.1.elim
    | succ levels =>
      have hbelow : c.below = s.children n := hc.node ▸ (hreads c (by simp)).below
      rw [hbelow] at ih
      have hchildren := ih rfl (fun e he => hreads e (by simp [he])) hends.1
      have hothers := ihmore ho (fun e he => hreads e (by simp [he])) hends.2
      rw [List.map_cons, List.map_append, List.map_cons, hchildren, hothers, List.flatMap_cons, Store.tour]
      simp [mark, hc.moment, hc.node, hd.moment, hd.node]

end Call

/-! ## Walks -/

namespace ParentIndex

variable {p : ParentIndex} {c q : NodeId}

theorem mem_entries_of_parent? (h : p.parent? c = some q) : (c, q) ∈ p.entries := by
  obtain ⟨before, after, hsplit, -⟩ := List.lookup_eq_some_iff.mp h
  simp [hsplit]

theorem exists_parent?_of_mem_entries (h : (c, q) ∈ p.entries) : ∃ q', p.parent? c = some q' := by
  refine Option.ne_none_iff_exists'.mp fun hnone => ?_
  have hne := List.lookup_eq_none_iff.mp hnone (c, q) h
  simp at hne

end ParentIndex

/-- No node from the root on is a child of two nodes. -/
def Store.SingleParents (s : Store) : Prop :=
  ∀ p ∈ s.reachable, ∀ q ∈ s.reachable, ∀ c ∈ s.children p, c ∈ s.children q → p = q

instance (s : Store) : Decidable s.SingleParents :=
  inferInstanceAs (Decidable (∀ p ∈ s.reachable, _))

namespace Plugin

variable {p : Plugin} {m : Module}

/-- A walk that only reads comes to its end, and the parent index links every node from the root on to
each of its children. -/
theorem exists_walk_of_reads (hm : m.tree.Rooted) (hp : p.Reads m.tree) (context : p.Context) :
    ∃ entered m' cx, p.walk m context = (.ok ⟨entered, false⟩, m', cx) ∧ m'.tree = m.tree ∧
      ∀ c q, (c, q) ∈ m'.parents.entries ↔ q ∈ m.tree.reachable ∧ c ∈ m.tree.children q := by
  have hdepth : m.tree.size ≤ depthLimit m.tree := by
    rw [depthLimit]
    omega
  obtain ⟨st, hvisit, htree, hlinks⟩ := completes_visit (p := p) (fun _ h => h) hm.ends hdepth
    (fun id _ => ⟨hp.enter.steady id, hp.leave.steady id⟩) none
    ⟨{ m with parents := {} }, context, 0⟩ rfl
  refine ⟨st.entered, st.module, st.context, ?_, htree, fun c q => ?_⟩
  · rw [walk_eq, hvisit]
    rfl
  · simp [hlinks, Store.reachable]

/-- The calls of a walk that only reads go around the tree, and the walk counts the nodes entered. -/
theorem calls_of_reads (hm : m.tree.Rooted) (hp : p.Reads m.tree) (context : p.Context) :
    (p.calls m context).map Call.mark = m.tree.tour m.tree.size m.tree.root ∧
      (p.walk m context).1 = .ok ⟨m.tree.reachable.length, false⟩ := by
  obtain ⟨entered, m', cx, hwalk, -⟩ := exists_walk_of_reads hm hp context
  rw [walk] at hwalk ⊢
  rw [calls]
  obtain ⟨o, hvisits, hresult, hthreads, hmade⟩ := p.walk_calls (depthLimit m.tree) m context
  have ho : o = .ok .proceed := by
    rw [hwalk] at hresult
    rcases o with e | signal
    · cases hresult
    · cases signal with
      | proceed => rfl
      | skip => exact absurd rfl hvisits.ne_skip
      | stop => cases hresult
  have hmarks := hvisits.map_mark ho (Call.reads_of_threads hp rfl hthreads hmade)
    (List.forall_mem_singleton.mpr hm.ends)
  rw [List.flatMap_singleton] at hmarks
  refine ⟨hmarks, ?_⟩
  rw [hresult, ho, Store.reachable, ← Store.nodesAt_enter_tour, ← hmarks, Store.nodesAt, List.length_map,
    ← List.countP_eq_length_filter, List.countP_map]
  rfl

end Plugin

/-- A plugin that only reads enters the nodes of a tree as the tree lists them, once for each way to a
node, and leaves them in post-order. The tree lists what a loop with a stack gives. If no node has two
parents, the parent index tells the parent of each node but the root, and of no other. -/
theorem walk_of_reads (p : Plugin) (m : Module) (context : p.Context) (hm : m.tree.Rooted)
    (hp : p.Reads m.tree) :
    (p.walk m context).1 = .ok ⟨m.tree.reachable.length, false⟩ ∧
    (p.walk m context).2.1.tree = m.tree ∧
    (p.calls m context).map Call.mark = m.tree.tour m.tree.size m.tree.root ∧
    Store.nodesAt .enter ((p.calls m context).map Call.mark) = m.tree.reachable ∧
    Store.nodesAt .leave ((p.calls m context).map Call.mark)
      = m.tree.postorder m.tree.size m.tree.root ∧
    (∀ order, m.tree.Drains [m.tree.root] order ↔ order = m.tree.reachable) ∧
    (m.tree.SingleParents →
      (∀ c q, (p.walk m context).2.1.parent? c = some q ↔
        q ∈ m.tree.reachable ∧ c ∈ m.tree.children q) ∧
      (p.walk m context).2.1.parent? m.tree.root = none ∧
      ∀ id, id ∉ m.tree.reachable → (p.walk m context).2.1.parent? id = none) := by
  obtain ⟨hmarks, hresult⟩ := Plugin.calls_of_reads hm hp context
  obtain ⟨entered, m', cx, hwalk, htree, hentries⟩ := Plugin.exists_walk_of_reads hm hp context
  refine ⟨hresult, by rw [hwalk, htree], hmarks, ?_, ?_, Store.drains_reachable_iff hm, fun hsingle => ?_⟩
  · rw [hmarks, Store.nodesAt_enter_tour, Store.reachable]
  · rw [hmarks, Store.nodesAt_leave_tour]
  rw [hwalk]
  have hsound {c q : NodeId} (h : m'.parent? c = some q) :
      q ∈ m.tree.reachable ∧ c ∈ m.tree.children q :=
    (hentries c q).mp (ParentIndex.mem_entries_of_parent? h)
  refine ⟨fun c q => ⟨hsound, fun hlink => ?_⟩, ?_, fun id hid => ?_⟩
  · obtain ⟨q', hq'⟩ := ParentIndex.exists_parent?_of_mem_entries ((hentries c q).mpr hlink)
    obtain ⟨hreachable, hchild⟩ := hsound hq'
    rw [hsingle q hlink.1 q' hreachable c hlink.2 hchild]
    exact hq'
  · -- The root would lead to itself.
    refine Option.eq_none_iff_forall_ne_some.mpr fun q hq => ?_
    obtain ⟨hreachable, hchild⟩ := hsound hq
    exact hm.acyclic _ .refl (.tail' (hm.mem_reachable_iff.mp hreachable) hchild)
  · refine Option.eq_none_iff_forall_ne_some.mpr fun q hq => hid ?_
    obtain ⟨hreachable, hchild⟩ := hsound hq
    exact hm.mem_reachable_iff.mpr ((hm.mem_reachable_iff.mp hreachable).tail hchild)

/-- Numbers that only grow on the way down lead to no cycle. -/
theorem Store.Rooted.of_lt {s : Store} (hroot : s.root < s.size)
    (h : ∀ id < s.size, ∀ c ∈ s.children id, id < c ∧ c < s.size) : s.Rooted :=
  (Acyclic.of_lt h).rooted hroot

/-- Reports every node that it comes to, and counts them. -/
def census : Plugin where
  name := "census"
  Context := Nat
  initial := 0
  enter := fun id m n => (.ok .proceed, m.toDraft.warn id "seen" "node", n + 1)

theorem reads_census (s : Store) : census.Reads s :=
  ⟨fun _ _ _ h => ⟨rfl, h⟩, fun _ _ _ h => ⟨rfl, h⟩⟩

/-- Two blocks with the same statement in them. -/
def sharedStatement : Module where
  tree := ⟨#[⟨.program [1, 2], {}⟩, ⟨.block [3], {}⟩, ⟨.block [3], {}⟩, ⟨.empty, {}⟩], 0⟩
  source := ""

/-- A shared node is entered twice; without shared nodes, nothing is left of a cycle in the index. -/
theorem walk_of_reads_blocks :
    Store.nodesAt .enter ((census.calls sharedStatement (0 : Nat)).map Call.mark) = [0, 1, 3, 2, 3] ∧
      Store.nodesAt .leave ((census.calls sharedStatement (0 : Nat)).map Call.mark) = [3, 1, 3, 2, 0] ∧
      twoBlocks.tree.SingleParents ∧ twoBlocks.parent? 0 = some 1 ∧
      (census.walk twoBlocks (0 : Nat)).1 = .ok ⟨4, false⟩ ∧
      (census.walk twoBlocks (0 : Nat)).2.1.parent? 0 = none ∧
      (census.walk twoBlocks (0 : Nat)).2.1.parent? 3 = some 1 := by
  have hshared := walk_of_reads census sharedStatement (0 : Nat) (.of_lt (by decide) (by decide +kernel))
    (reads_census _)
  have hblocks := walk_of_reads census twoBlocks (0 : Nat) (.of_lt (by decide) (by decide +kernel))
    (reads_census _)
  have hsingle : twoBlocks.tree.SingleParents := by decide +kernel
  obtain ⟨hparents, hroot, -⟩ := hblocks.2.2.2.2.2.2 hsingle
  refine ⟨hshared.2.2.2.1.trans (by decide +kernel), hshared.2.2.2.2.1.trans (by decide +kernel), hsingle,
    by decide, hblocks.1, hroot, (hparents 3 1).mpr (by decide +kernel)⟩

end Downlevel
