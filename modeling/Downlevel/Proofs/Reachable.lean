import Mathlib.Data.List.Perm.Subperm
import Mathlib.Logic.Relation
import Downlevel.Proofs.Cells
import Downlevel.Proofs.Formed

/-!
# Nodes that the root leads to

If no node comes up twice below the root, the nodes there form a tree: a way down that is longer
than the store would pass through a node twice. So the store owns that tree
(`Store.exists_holds_of_nodup`).
-/

namespace Downlevel

namespace Store

open Downlevel.Tree

variable {s : Store}

/-- There is a way down from one node to another. -/
def Leads (s : Store) : NodeId → NodeId → Prop :=
  Relation.TransGen fun id c => c ∈ s.children id

/-- No way down from a node is longer than `depth` levels. -/
def Ends (s : Store) : (depth : Nat) → NodeId → Prop
  | 0, _ => False
  | depth + 1, id => ∀ c ∈ s.children id, s.Ends depth c

/-- Where the levels end too early, there is a way down through as many nodes. -/
theorem ends_or_exists_path (depth : Nat) (id : NodeId) :
    s.Ends depth id ∨
      ∃ path : List NodeId, path.Sublist (s.preorder depth id) ∧ path.length = depth := by
  induction depth generalizing id with
  | zero => exact .inr ⟨[], List.nil_sublist _, rfl⟩
  | succ depth ih =>
    by_cases hall : ∀ c ∈ s.children id, s.Ends depth c
    · exact .inl hall
    · obtain ⟨c, hc, hends⟩ : ∃ c ∈ s.children id, ¬ s.Ends depth c := by simpa using hall
      obtain ⟨path, hsub, hlen⟩ := (ih c).resolve_left hends
      refine .inr ⟨id :: path, .cons_cons id (hsub.trans ?_), by rw [List.length_cons, hlen]⟩
      obtain ⟨before, after, hchildren⟩ := List.append_of_mem hc
      rw [hchildren, List.flatMap_append, List.flatMap_cons]
      exact (List.sublist_append_left _ _).trans (List.sublist_append_right _ _)

theorem ends_of_nodup {id : NodeId} (hnodup : (s.preorder (s.size + 1) id).Nodup)
    (hlt : ∀ i ∈ s.preorder (s.size + 1) id, i < s.size) : s.Ends (s.size + 1) id := by
  refine (ends_or_exists_path _ id).resolve_right ?_
  rintro ⟨path, hsub, hlen⟩
  have hrange : path ⊆ List.range s.size :=
    fun i hi => List.mem_range.mpr (hlt i (hsub.subset hi))
  have hle := (List.subperm_of_subset (hnodup.sublist hsub) hrange).length_le
  rw [List.length_range] at hle
  omega

/-- What stands in the store under a number. -/
def cellAt (s : Store) (id : NodeId) : Cell :=
  (id, s.node id)

theorem exists_tree_of_ends {depth : Nat} {id : NodeId} (h : s.Ends depth id) :
    ∃ t : Tree Label, t.number = id ∧ t.cells = (s.preorder depth id).map s.cellAt := by
  induction depth generalizing id with
  | zero => exact h.elim
  | succ depth ih =>
    have : Inhabited (Tree Label) := ⟨.node (0, {}) .empty⟩
    choose! tree hnumber hcells using fun c hc => ih (h c hc)
    have hkind : (s.kind id).map (fun c => (tree c).number) = s.kind id :=
      (Kind.map_congr hnumber).trans (Kind.map_id _)
    have hforest : ∀ ids : List NodeId, (∀ c ∈ ids, c ∈ s.children id) →
        forest (ids.map tree) = (ids.flatMap (s.preorder depth)).map s.cellAt := by
      intro ids hids
      induction ids with
      | nil => rfl
      | cons c ids ih =>
        rw [List.map_cons, forest_cons, hcells c (hids c List.mem_cons_self),
          ih fun c hc => hids c (List.mem_cons_of_mem _ hc), Multiset.coe_add, ← List.map_append,
          List.flatMap_cons]
    refine ⟨.node (id, s.span id) ((s.kind id).map tree), rfl, ?_⟩
    rw [cells_node, cell, Kind.map_map, hkind, Kind.children_map, ← children,
      hforest _ fun _ hc => hc, Multiset.cons_coe]
    rfl

theorem exists_holds_of_nodup (hnodup : (s.preorder (s.size + 1) s.root).Nodup)
    (hlt : ∀ id ∈ s.preorder (s.size + 1) s.root, id < s.size) :
    ∃ t, s.Holds t ∧ t.cells = (s.preorder (s.size + 1) s.root).map s.cellAt := by
  obtain ⟨t, hnumber, hcells⟩ := exists_tree_of_ends (ends_of_nodup hnodup hlt)
  refine ⟨t, ⟨hnumber, ?_, ?_⟩, hcells⟩
  · rw [hcells]
    intro c hc
    obtain ⟨id, hid, rfl⟩ := List.mem_map.mp (Multiset.mem_coe.mp hc)
    have hid : id < s.nodes.size := hlt id hid
    simp [cellAt, node, hid]
  · rw [hcells, Multiset.map_coe, List.map_map]
    exact hnodup.map fun _ _ h => h

/-! ## Nodes of a tree -/

theorem kind_eq_of_owns {t : Tree Label} (h : Owns s.nodes t.cells) :
    s.kind t.number = t.kind.map number := by
  obtain ⟨a, k⟩ := t
  rw [cells_node] at h
  exact congrArg Node.kind (node_eq h (Multiset.mem_cons_self _ _))

theorem span_eq_of_owns {t : Tree Label} (h : Owns s.nodes t.cells) : s.span t.number = t.ann.2 := by
  obtain ⟨a, k⟩ := t
  rw [cells_node] at h
  exact congrArg Node.span (node_eq h (Multiset.mem_cons_self _ _))

theorem owns_of_mem_children {a : Label} {k : Kind (Tree Label)} (h : Owns s.nodes (Tree.node a k).cells)
    {c : Tree Label} (hc : c ∈ k.children) : Owns s.nodes c.cells := by
  rw [cells_node] at h
  exact h.mono ((cells_le_forest hc).trans (Multiset.le_cons_self _ _))

theorem children_eq_of_owns {a : Label} {k : Kind (Tree Label)} (h : Owns s.nodes (Tree.node a k).cells) :
    s.children a.1 = k.children.map number := by
  rw [children, show s.kind a.1 = k.map number from kind_eq_of_owns h, Kind.children_map]

/-- The nodes below the root of a tree are those of the tree. -/
theorem coe_preorder {t : Tree Label} {depth : Nat} (h : Owns s.nodes t.cells)
    (hdepth : t.height ≤ depth) :
    (s.preorder depth t.number : Multiset NodeId) = t.cells.map Prod.fst := by
  induction t using induction_on generalizing depth with
  | node a k ih =>
    obtain ⟨depth, rfl⟩ := Nat.exists_eq_add_of_lt (hdepth.trans_lt' (height_pos _))
    rw [Nat.zero_add] at hdepth ⊢
    have hforest : ∀ ts : List (Tree Label), (∀ c ∈ ts, c ∈ k.children) →
        (((ts.map number).flatMap (s.preorder depth) : List NodeId) : Multiset NodeId)
          = (forest ts).map Prod.fst := by
      intro ts hts
      induction ts with
      | nil => rfl
      | cons c ts ihts =>
        rw [List.forall_mem_cons] at hts
        rw [List.map_cons, List.flatMap_cons, ← Multiset.coe_add,
          ih c hts.1 (owns_of_mem_children h hts.1) (height_node_le.mp hdepth c hts.1), ihts hts.2,
          forest_cons, Multiset.map_add]
    rw [cells_node, Multiset.map_cons, ← hforest _ fun _ hc => hc, ← children_eq_of_owns h]
    rfl

theorem Holds.coe_reachable {t : Tree Label} (h : s.Holds t) :
    (s.reachable : Multiset NodeId) = t.cells.map Prod.fst := by
  rw [reachable, ← h.1]
  exact coe_preorder h.2 h.height_le

/-- The children of a node of a tree are nodes of the tree. -/
theorem mem_cells_of_mem_children {t : Tree Label} {c : Cell} (hc : c ∈ t.cells) {id : NodeId}
    (hid : id ∈ c.2.kind.children) : id ∈ t.cells.map Prod.fst := by
  induction t using induction_on with
  | node a k ih =>
    rw [cells_node] at hc ⊢
    rw [Multiset.map_cons, Multiset.mem_cons]
    refine .inr ?_
    have hforest {d : Tree Label} (hd : d ∈ k.children) (h : id ∈ d.cells.map Prod.fst) :
        id ∈ (forest k.children).map Prod.fst :=
      Multiset.mem_of_le (Multiset.map_le_map (cells_le_forest hd)) h
    rcases Multiset.mem_cons.mp hc with rfl | hc
    · rw [cell, Kind.children_map] at hid
      obtain ⟨d, hd, rfl⟩ := List.mem_map.mp hid
      exact hforest hd d.number_mem_cells
    · obtain ⟨d, hd, hc⟩ := mem_forest.mp hc
      exact hforest hd (ih d hd hc)

theorem Holds.mem_reachable_iff {t : Tree Label} (h : s.Holds t) {id : NodeId} :
    id ∈ s.reachable ↔ ∃ c ∈ t.cells, c.1 = id := by
  rw [← Multiset.mem_coe, h.coe_reachable, Multiset.mem_map]

/-- What holds of the cells of a tree holds of the nodes that the root leads to. -/
theorem Holds.forall_reachable {t : Tree Label} (h : s.Holds t) {P : Kind NodeId → Prop} :
    (∀ id ∈ s.reachable, P (s.kind id)) ↔ ∀ c ∈ t.cells, P c.2.kind := by
  have hkind : ∀ c ∈ t.cells, s.kind c.1 = c.2.kind := fun c hc => congrArg Node.kind (node_eq h.2 hc)
  constructor
  · intro hall c hc
    exact hkind c hc ▸ hall c.1 (h.mem_reachable_iff.mpr ⟨c, hc, rfl⟩)
  · intro hall id hid
    obtain ⟨c, hc, rfl⟩ := h.mem_reachable_iff.mp hid
    exact hkind c hc ▸ hall c hc

/-! ## Conditions on nodes, node by node -/

/-- No way down in a tree is longer than the tree is high. -/
theorem ends_of_owns {t : Tree Label} {depth : Nat} (h : Owns s.nodes t.cells)
    (hdepth : t.height ≤ depth) : s.Ends depth t.number := by
  induction t using induction_on generalizing depth with
  | node a k ih =>
    obtain ⟨depth, rfl⟩ := Nat.exists_eq_add_of_lt (hdepth.trans_lt' (height_pos _))
    rw [Nat.zero_add] at hdepth ⊢
    intro id hid
    rw [show (Tree.node a k).number = a.1 from rfl, children_eq_of_owns h] at hid
    obtain ⟨c, hc, rfl⟩ := List.mem_map.mp hid
    exact ih c hc (owns_of_mem_children h hc) (height_node_le.mp hdepth c hc)

/-- A condition holds everywhere in a tree if it holds of each of its nodes, seen with the kinds that
its children have in the store. -/
theorem each_plain_iff {P : Kind (Kind (Tree Span)) → Prop} {Q : Kind (Kind NodeId) → Prop}
    (hPQ : ∀ k : Kind (Tree Label), (∀ c ∈ k.children, s.kind c.number = c.kind.map number) →
      (P ((k.map plain).map Tree.kind) ↔ Q ((k.map number).map s.kind)))
    {t : Tree Label} (h : Owns s.nodes t.cells) :
    t.plain.Each P ↔ ∀ c ∈ t.cells, Q (c.2.kind.map s.kind) := by
  induction t using induction_on with
  | node a k ih =>
    have howns : ∀ c ∈ k.children, Owns s.nodes c.cells := fun c hc => owns_of_mem_children h hc
    rw [plain_node, each_node, hPQ k fun c hc => kind_eq_of_owns (howns c hc), Kind.children_map,
      List.forall_mem_map, cells_node, Multiset.forall_mem_cons]
    refine and_congr_right fun _ => ⟨fun hall c hc => ?_, fun hall c hc => ?_⟩
    · obtain ⟨d, hd, hc⟩ := mem_forest.mp hc
      exact (ih d hd (howns d hd)).mp (hall d hd) c hc
    · exact (ih c hc (howns c hc)).mpr fun d hd => hall d (mem_forest.mpr ⟨c, hc, hd⟩)

/-- A tree is well-formed if each of its nodes is, seen with the kinds of its children. -/
theorem formed_iff_of_owns {t : Tree Label} (h : Owns s.nodes t.cells) :
    t.plain.Formed ↔ ∀ c ∈ t.cells, (c.2.kind.map s.kind).formed = true := by
  refine each_plain_iff (Q := fun k => k.formed = true) (fun k hkind => ?_) h
  have hplain : (k.map fun c => c.plain.kind).formed = (k.map Tree.kind).formed :=
    Kind.formed_congr fun c _ => kind_map Prod.snd c ▸ Kind.alike_map _ _
  have hstored : (k.map fun c => s.kind c.number).formed = (k.map Tree.kind).formed :=
    Kind.formed_congr fun c hc => hkind c hc ▸ Kind.alike_map _ _
  rw [Kind.map_map, Kind.map_map, hplain, hstored]

end Store

end Downlevel
