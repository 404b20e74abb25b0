import Downlevel.Proofs.Rebuild
import Downlevel.Proofs.Steady

/-!
# The trees that a store unfolds to

`Store.Unfolds s id t` says that `t` is what lies below a node, however the nodes are numbered and
whatever their spans are: a node with several parents is unfolded once for each of them. It leaves no
room for a cycle, so the tree that is read off the store, down to as many levels as there are nodes, has
that shape (`Unfolds.shape_below`). In a store without cycles, the tree below a node is put together
from those below its children (`Store.Acyclic.below_eq`).
-/

namespace Downlevel

namespace Store

open Relation

variable {s : Store} {id : NodeId} {levels : Nat}

/-- The tree below a node. -/
def below (s : Store) (id : NodeId) : Tree Span :=
  s.unfold (s.size + 1) id

/-- Levels that go all the way down show the whole tree. -/
theorem unfold_of_ends (h : s.Ends levels id) {depth : Nat} (hdepth : levels ≤ depth) :
    s.unfold depth id = s.unfold levels id := by
  induction levels generalizing id depth with
  | zero => exact h.elim
  | succ levels ih =>
    obtain ⟨depth, rfl⟩ := Nat.exists_eq_add_of_le' (Nat.one_le_of_lt hdepth)
    rw [unfold, unfold]
    exact congrArg (Tree.node _) (Kind.map_congr fun c hc => ih (h c hc) (Nat.le_of_succ_le_succ hdepth))

/-- A node over the trees below its children. -/
theorem Acyclic.below_eq (h : s.Acyclic) (hid : id < s.size) :
    s.below id = .node (s.span id) ((s.kind id).map s.below) := by
  rw [below, unfold]
  refine congrArg (Tree.node _) (Kind.map_congr fun c hc => ?_)
  exact (unfold_of_ends (h.ends (h.stored id hid c hc)) (Nat.le_succ _)).symm

/-! ## Unfolding -/

/-- What lies below a node: a node of its kind, over what lies below its children. -/
inductive Unfolds (s : Store) : NodeId → Tree Unit → Prop
  | node {id : NodeId} {trees : NodeId → Tree Unit} (stored : id < s.size)
    (below : ∀ c ∈ s.children id, Unfolds s c (trees c)) :
    Unfolds s id (.node () ((s.kind id).map trees))

namespace Unfolds

variable {t t' : Tree Unit}

theorem unique (h : s.Unfolds id t) (h' : s.Unfolds id t') : t = t' := by
  induction h generalizing t' with
  | node _ _ ih =>
    cases h' with
    | node _ below => exact congrArg (Tree.node ()) (Kind.map_congr fun c hc => ih c hc (below c hc))

/-- What a node leads to has a smaller tree. -/
theorem exists_of_leads (h : s.Unfolds id t) {i : NodeId} (hi : s.Leads id i) :
    ∃ u, s.Unfolds i u ∧ u.height < t.height := by
  induction hi with
  | single hc =>
    cases h with
    | node _ below =>
      refine ⟨_, below _ hc, ?_⟩
      exact Tree.height_lt_of_mem_children (Kind.children_map _ _ ▸ List.mem_map_of_mem hc)
  | tail _ hc ih =>
    obtain ⟨u, hu, hlt⟩ := ih
    cases hu with
    | node _ below =>
      refine ⟨_, below _ hc, lt_trans ?_ hlt⟩
      exact Tree.height_lt_of_mem_children (Kind.children_map _ _ ▸ List.mem_map_of_mem hc)

theorem exists_of_reaches (h : s.Unfolds id t) {i : NodeId} (hi : s.Reaches id i) :
    ∃ u, s.Unfolds i u := by
  rcases reflTransGen_iff_eq_or_transGen.mp hi with rfl | hi
  · exact ⟨t, h⟩
  · exact (h.exists_of_leads hi).imp fun _ => And.left

theorem ends (h : s.Unfolds id t) : s.Ends s.size id := by
  refine ends_of_acyclic (fun i hi => ?_) fun i hi hcycle => ?_
  · obtain ⟨u, hu⟩ := h.exists_of_reaches hi
    cases hu with
    | node stored => exact stored
  · -- The tree below the node would be smaller than itself.
    obtain ⟨u, hu⟩ := h.exists_of_reaches hi
    obtain ⟨u', hu', hlt⟩ := hu.exists_of_leads hcycle
    rw [hu.unique hu'] at hlt
    exact hlt.false

theorem shape_unfold (h : s.Unfolds id t) (hends : s.Ends levels id) :
    (s.unfold levels id).shape = t := by
  induction h generalizing levels with
  | node _ _ ih =>
    cases levels with
    | zero => exact hends.elim
    | succ levels =>
      rw [unfold, Tree.shape_node, Kind.map_map]
      exact congrArg (Tree.node ()) (Kind.map_congr fun c hc => ih c hc (hends c hc))

/-- The tree that is read off the store has the shape that the store unfolds to. -/
theorem shape_below (h : s.Unfolds id t) : (s.below id).shape = t := by
  rw [Store.below, unfold_of_ends h.ends (Nat.le_succ _)]
  exact h.shape_unfold h.ends

end Unfolds

theorem Acyclic.unfolds_unfold (h : s.Acyclic) (hid : id < s.size) (hends : s.Ends levels id) :
    s.Unfolds id (s.unfold levels id).shape := by
  induction levels generalizing id with
  | zero => exact hends.elim
  | succ levels ih =>
    rw [unfold, Tree.shape_node, Kind.map_map]
    exact .node hid fun c hc => ih (h.stored id hid c hc) (hends c hc)

/-- In a store without cycles, something lies below every node. -/
theorem Acyclic.unfolds (h : s.Acyclic) (hid : id < s.size) : s.Unfolds id (s.below id).shape := by
  rw [below, unfold_of_ends (h.ends hid) (Nat.le_succ _)]
  exact h.unfolds_unfold hid (h.ends hid)

end Store

end Downlevel
