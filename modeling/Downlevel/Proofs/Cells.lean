import Mathlib.Algebra.Order.Group.Multiset
import Mathlib.Data.Multiset.Range
import Downlevel.Proofs.Tree
import Downlevel.Syntax.Store

/-!
# Trees in a store

A numbered tree carries at every node the number and the span it has in a store. `Owns nodes X` says
that a store has the cells `X`, each under a number of its own, so that two trees whose cells are
owned together share nothing, and a change to a cell of one leaves the other as it is.

A store that owns a tree unfolds to it (`Store.unfold_eq`), and storing a tree gives a store that
owns it (`Store.ofTree_owns`).
-/

namespace Downlevel

/-- A node under its number. -/
abbrev Cell := NodeId × Node

/-- What a numbered tree carries at a node. -/
abbrev Label := NodeId × Span

/-! ## Cells -/

/-- The store has these cells, and no two of them are the same node. -/
structure Owns (nodes : Array Node) (cells : Multiset Cell) : Prop where
  get : ∀ c ∈ cells, nodes[c.1]? = some c.2
  nodup : (cells.map Prod.fst).Nodup

namespace Owns

variable {nodes : Array Node} {X Y : Multiset Cell}

theorem mono (h : Owns nodes X) (hle : Y ≤ X) : Owns nodes Y where
  get c hc := h.get c (Multiset.mem_of_le hle hc)
  nodup := Multiset.nodup_of_le (Multiset.map_le_map hle) h.nodup

theorem lt_size (h : Owns nodes X) {c : Cell} (hc : c ∈ X) : c.1 < nodes.size :=
  (Array.getElem?_eq_some_iff.mp (h.get c hc)).1

/-- A new node is none of those owned before. -/
theorem push (h : Owns nodes X) (n : Node) :
    Owns (nodes.push n) ((nodes.size, n) ::ₘ X) where
  get c hc := by
    rcases Multiset.mem_cons.mp hc with rfl | hc
    · simp
    · rw [Array.getElem?_push, if_neg (h.lt_size hc).ne, h.get c hc]
  nodup := by
    rw [Multiset.map_cons, Multiset.nodup_cons]
    refine ⟨fun hmem => ?_, h.nodup⟩
    obtain ⟨c, hc, hsize⟩ := Multiset.mem_map.mp hmem
    exact (h.lt_size hc).ne hsize

/-- A change to one cell leaves the others as they are. -/
theorem modify {id : NodeId} {n : Node} (h : Owns nodes ((id, n) ::ₘ X)) (f : Node → Node) :
    Owns (nodes.modify id f) ((id, f n) ::ₘ X) where
  get c hc := by
    rw [Array.getElem?_modify]
    rcases Multiset.mem_cons.mp hc with rfl | hmem
    · rw [if_pos rfl, h.get (id, n) (Multiset.mem_cons_self _ _)]
      rfl
    · have hne : id ≠ c.1 := by
        rintro rfl
        have hnodup := h.nodup
        rw [Multiset.map_cons, Multiset.nodup_cons] at hnodup
        exact hnodup.1 (Multiset.mem_map.mpr ⟨c, hmem, rfl⟩)
      rw [if_neg hne, h.get c (Multiset.mem_cons_of_mem hmem)]
  nodup := by simpa using h.nodup

theorem card_le (h : Owns nodes X) : X.card ≤ nodes.size := by
  have hsub : X.map Prod.fst ≤ Multiset.range nodes.size := by
    refine (Multiset.le_iff_subset h.nodup).mpr fun id hid => ?_
    obtain ⟨c, hc, rfl⟩ := Multiset.mem_map.mp hid
    exact Multiset.mem_range.mpr (h.lt_size hc)
  simpa using Multiset.card_le_card hsub

end Owns

namespace Store

variable {s : Store} {X : Multiset Cell}

theorem node_eq (h : Owns s.nodes X) {c : Cell} (hc : c ∈ X) : s.node c.1 = c.2 := by
  simp [node, Array.getD_eq_getD_getElem?, h.get c hc]

end Store

/-! ## Numbered trees -/

namespace Tree

def number (t : Tree Label) : NodeId :=
  t.ann.1

/-- The tree without its numbers. -/
def plain : Tree Label → Tree Span :=
  map Prod.snd

@[simp] theorem number_node (a : Label) (k : Kind (Tree Label)) : (node a k).number = a.1 := rfl

@[simp] theorem plain_node (a : Label) (k : Kind (Tree Label)) :
    (node a k).plain = node a.2 (k.map plain) := by
  simp [plain, map]

@[simp] theorem kind_plain (t : Tree Label) : t.plain.kind = t.kind.map plain := by
  cases t
  simp

@[simp] theorem ann_plain (t : Tree Label) : t.plain.ann = t.ann.2 := by
  cases t
  simp

/-- The cells of a tree, with its number. -/
private def numberedCells : Tree Label → NodeId × Multiset Cell :=
  fold fun a k => (a.1, (a.1, ⟨k.map Prod.fst, a.2⟩) ::ₘ (k.children.map Prod.snd).sum)

/-- The cells of a store that hold a tree. -/
def cells (t : Tree Label) : Multiset Cell :=
  t.numberedCells.2

private theorem numberedCells_fst (t : Tree Label) : t.numberedCells.1 = t.number := by
  cases t
  simp [numberedCells]

/-- The cell of a node by itself. -/
def cell (a : Label) (k : Kind (Tree Label)) : Cell :=
  (a.1, ⟨k.map number, a.2⟩)

/-- The cells that hold a list of trees. -/
def forest (ts : List (Tree Label)) : Multiset Cell :=
  (ts.map cells).sum

@[simp] theorem cells_node (a : Label) (k : Kind (Tree Label)) :
    (node a k).cells = cell a k ::ₘ forest k.children := by
  have hfst : (fun t : Tree Label => t.numberedCells.1) = number := funext numberedCells_fst
  simp only [cells, cell, forest, numberedCells, fold_node, Kind.map_map, Kind.children_map,
    List.map_map]
  exact congrArg₂ (fun k X => (a.1, (⟨k, a.2⟩ : Node)) ::ₘ X)
    (congrArg (k.map ·) hfst) rfl

theorem number_mem_cells (t : Tree Label) : t.number ∈ t.cells.map Prod.fst := by
  obtain ⟨a, k⟩ := t
  rw [cells_node, Multiset.map_cons]
  exact Multiset.mem_cons_self _ _

@[simp] theorem forest_nil : forest [] = 0 := rfl

@[simp] theorem forest_cons (t : Tree Label) (ts : List (Tree Label)) :
    forest (t :: ts) = t.cells + forest ts := by
  simp [forest]

@[simp] theorem forest_append (ts us : List (Tree Label)) :
    forest (ts ++ us) = forest ts + forest us := by
  simp [forest]

theorem cells_le_forest {t : Tree Label} {ts : List (Tree Label)} (h : t ∈ ts) :
    t.cells ≤ forest ts := by
  obtain ⟨us, vs, rfl⟩ := List.append_of_mem h
  simp only [forest_append, forest_cons]
  exact (Multiset.le_add_right _ _).trans (Multiset.le_add_left _ _)

theorem mem_forest {c : Cell} {ts : List (Tree Label)} : c ∈ forest ts ↔ ∃ t ∈ ts, c ∈ t.cells := by
  induction ts with
  | nil => simp
  | cons t ts ih => simp [ih]

/-! ### Heights -/

variable {σ τ : Type}

/-- The number of levels of a tree. -/
def height : Tree σ → Nat :=
  fold fun _ k => k.children.foldr max 0 + 1

theorem le_foldr_max {l : List Nat} {n : Nat} : l.foldr max 0 ≤ n ↔ ∀ m ∈ l, m ≤ n := by
  induction l with
  | nil => simp
  | cons m l ih => simp [ih]

theorem height_node (a : σ) (k : Kind (Tree σ)) :
    (node a k).height = (k.children.map height).foldr max 0 + 1 := by
  simp [height]

theorem height_node_le {a : σ} {k : Kind (Tree σ)} {n : Nat} :
    (node a k).height ≤ n + 1 ↔ ∀ c ∈ k.children, c.height ≤ n := by
  rw [height_node, Nat.add_le_add_iff_right, le_foldr_max]
  simp

theorem height_pos : ∀ t : Tree σ, 0 < t.height
  | node a k => by
    rw [height_node]
    exact Nat.succ_pos _

theorem height_lt_of_mem_children {a : σ} {k : Kind (Tree σ)} {c : Tree σ}
    (h : c ∈ k.children) : c.height < (node a k).height := by
  obtain ⟨n, hn⟩ := Nat.exists_eq_add_of_lt (height_pos (node a k))
  have hle := height_node_le.mp hn.le c h
  omega

theorem height_le_card (t : Tree Label) : t.height ≤ t.cells.card := by
  induction t using induction_on with
  | node a k ih =>
    rw [cells_node, Multiset.card_cons, height_node_le]
    exact fun c hc => (ih c hc).trans (Multiset.card_le_card (cells_le_forest hc))

end Tree

namespace Store

open Downlevel.Tree

/-! ## Unfolding what is owned -/

variable {s : Store}

theorem unfold_eq {t : Tree Label} {d : Nat} (h : Owns s.nodes t.cells) (hd : t.height ≤ d) :
    s.unfold d t.number = t.plain := by
  induction t using induction_on generalizing d with
  | node a k ih =>
    obtain ⟨d, rfl⟩ := Nat.exists_eq_add_of_lt (hd.trans_lt' (height_pos _))
    rw [cells_node] at h
    have hnode : s.node a.1 = ⟨k.map number, a.2⟩ := node_eq h (Multiset.mem_cons_self _ _)
    rw [Nat.zero_add] at hd ⊢
    simp only [unfold, kind, span, number_node, plain_node, hnode, Kind.map_map]
    refine congrArg (Tree.node a.2) (Kind.map_congr fun c hc => ih c hc (h.mono ?_) ?_)
    · exact (cells_le_forest hc).trans (Multiset.le_cons_self _ _)
    · exact height_node_le.mp hd c hc

/-- The store owns a tree that its root leads to. -/
def Holds (s : Store) (t : Tree Label) : Prop :=
  t.number = s.root ∧ Owns s.nodes t.cells

theorem Holds.height_le {t : Tree Label} (h : s.Holds t) : t.height ≤ s.size :=
  t.height_le_card.trans h.2.card_le

theorem Holds.toTree {t : Tree Label} (h : s.Holds t) : s.toTree = t.plain := by
  rw [Store.toTree, ← h.1]
  exact unfold_eq h.2 (h.height_le.trans (Nat.le_succ _))

/-! ## Storing a tree -/

/-- The action adds cells of which `P` holds, together with its result, and nothing else. -/
def Adds {α : Type} (action : StateM (Array Node) α) (P : α → Multiset Cell → Prop) : Prop :=
  ∀ nodes X, Owns nodes X → ∃ Y, P (action nodes).1 Y ∧ Owns (action nodes).2 (Y + X) ∧
    (action nodes).2.size = nodes.size + Y.card

section Adds

variable {α β : Type} {P : α → Multiset Cell → Prop} {Q : β → Multiset Cell → Prop}

theorem Adds.pure {v : α} (h : P v 0) : Adds (Pure.pure v) P :=
  fun _ X hX => ⟨0, h, (zero_add X).symm ▸ hX, rfl⟩

theorem Adds.bind {action : StateM (Array Node) α} {f : α → StateM (Array Node) β}
    (h : Adds action P) (hf : ∀ v Y, P v Y → Adds (f v) fun w Z => Q w (Y + Z)) :
    Adds (action >>= f) Q := by
  intro nodes X hX
  obtain ⟨Y, hP, hY, hsize⟩ := h nodes X hX
  obtain ⟨Z, hQ, hZ, hsize'⟩ := hf _ Y hP _ _ hY
  refine ⟨Y + Z, hQ, by rwa [add_comm Y, add_assoc], ?_⟩
  rw [Multiset.card_add, ← add_assoc, ← hsize]
  exact hsize'

theorem Adds.map {action : StateM (Array Node) α} {f : α → β} (h : Adds action P)
    (hf : ∀ v Y, P v Y → Q (f v) Y) : Adds (f <$> action) Q := by
  intro nodes X hX
  obtain ⟨Y, hP, hY, hsize⟩ := h nodes X hX
  exact ⟨Y, hf _ Y hP, hY, hsize⟩

end Adds

/-- The action stores a tree and returns its number. -/
def AddsTree (t : Tree Span) (action : StateM (Array Node) NodeId) : Prop :=
  Adds action fun id Y => ∃ u : Tree Label, u.plain = t ∧ u.number = id ∧ u.cells = Y

theorem adds_list {f : Tree Span → StateM (Array Node) NodeId} {ts : List (Tree Span)}
    (h : ∀ t ∈ ts, AddsTree t (f t)) :
    Adds (ts.mapM f) fun ids Y =>
      ∃ us : List (Tree Label), us.map plain = ts ∧ us.map number = ids ∧ forest us = Y := by
  induction ts with
  | nil => exact .pure ⟨[], rfl, rfl, rfl⟩
  | cons t ts ih =>
    rw [List.mapM_cons]
    refine (h t List.mem_cons_self).bind ?_
    rintro _ _ ⟨u, rfl, rfl, rfl⟩
    refine (ih fun t ht => h t (List.mem_cons_of_mem _ ht)).bind ?_
    rintro _ _ ⟨us, rfl, rfl, rfl⟩
    exact .pure ⟨u :: us, rfl, rfl, by simp⟩

theorem adds_option {f : Tree Span → StateM (Array Node) NodeId} {t? : Option (Tree Span)}
    (h : ∀ t ∈ t?.toList, AddsTree t (f t)) :
    Adds (t?.mapM f) fun id? Y =>
      ∃ u? : Option (Tree Label), u?.map plain = t? ∧ u?.map number = id? ∧ forest u?.toList = Y := by
  cases t? with
  | none => exact .pure ⟨none, rfl, rfl, rfl⟩
  | some t =>
    refine (h t (by simp)).map ?_
    rintro _ _ ⟨u, rfl, rfl, rfl⟩
    exact ⟨some u, rfl, rfl, by simp⟩

/-- Storing the children of a node gives the cells of trees that stand for them. -/
theorem adds_kind {f : Tree Span → StateM (Array Node) NodeId} {k : Kind (Tree Span)}
    (h : ∀ t ∈ k.children, AddsTree t (f t)) :
    Adds (k.mapM f) fun ids Y =>
      ∃ l : Kind (Tree Label), l.map plain = k ∧ l.map number = ids ∧ forest l.children = Y := by
  cases k with
  | program ts | declaration _ ts | block ts | template _ ts | array ts | object ts =>
    refine (adds_list h).bind ?_
    rintro _ _ ⟨us, rfl, rfl, rfl⟩
    first
    | exact .pure ⟨.program us, rfl, rfl, by simp [Kind.children]⟩
    | exact .pure ⟨.declaration _ us, rfl, rfl, by simp [Kind.children]⟩
    | exact .pure ⟨.block us, rfl, rfl, by simp [Kind.children]⟩
    | exact .pure ⟨.template _ us, rfl, rfl, by simp [Kind.children]⟩
    | exact .pure ⟨.array us, rfl, rfl, by simp [Kind.children]⟩
    | exact .pure ⟨.object us, rfl, rfl, by simp [Kind.children]⟩
  | declarator name t | returnStatement t | param name t rest =>
    refine (adds_option h).bind ?_
    rintro _ _ ⟨u, rfl, rfl, rfl⟩
    first
    | exact .pure ⟨.declarator name u, rfl, rfl, by simp [Kind.children]⟩
    | exact .pure ⟨.returnStatement u, rfl, rfl, by simp [Kind.children]⟩
    | exact .pure ⟨.param name u rest, rfl, rfl, by simp [Kind.children]⟩
  | functionDeclaration name params body | functionExpression name params body
  | arrowFunction params body =>
    refine (adds_list fun t ht => h t (by simp [Kind.children, ht])).bind ?_
    rintro _ _ ⟨us, rfl, rfl, rfl⟩
    refine (h body (by simp [Kind.children])).bind ?_
    rintro _ _ ⟨u, rfl, rfl, rfl⟩
    first
    | exact .pure ⟨.functionDeclaration name us u, rfl, rfl, by simp [Kind.children]⟩
    | exact .pure ⟨.functionExpression name us u, rfl, rfl, by simp [Kind.children]⟩
    | exact .pure ⟨.arrowFunction us u, rfl, rfl, by simp [Kind.children]⟩
  | ifStatement test consequent alternate =>
    refine (h test (by simp [Kind.children])).bind ?_
    rintro _ _ ⟨u, rfl, rfl, rfl⟩
    refine (h consequent (by simp [Kind.children])).bind ?_
    rintro _ _ ⟨v, rfl, rfl, rfl⟩
    refine (adds_option fun t ht => h t (by
      simpa [Kind.children] using Or.inr (Or.inr (by simpa using ht)))).bind ?_
    rintro _ _ ⟨w, rfl, rfl, rfl⟩
    exact .pure ⟨.ifStatement u v w, rfl, rfl, by simp [Kind.children]⟩
  | call callee arguments =>
    refine (h callee (by simp [Kind.children])).bind ?_
    rintro _ _ ⟨u, rfl, rfl, rfl⟩
    refine (adds_list fun t ht => h t (by simp [Kind.children, ht])).bind ?_
    rintro _ _ ⟨us, rfl, rfl, rfl⟩
    exact .pure ⟨.call u us, rfl, rfl, by simp [Kind.children]⟩
  | whileStatement t t' | index t t' | binary op t t' | assign t t' =>
    refine (h t (by simp [Kind.children])).bind ?_
    rintro _ _ ⟨u, rfl, rfl, rfl⟩
    refine (h t' (by simp [Kind.children])).bind ?_
    rintro _ _ ⟨v, rfl, rfl, rfl⟩
    first
    | exact .pure ⟨.whileStatement u v, rfl, rfl, by simp [Kind.children]⟩
    | exact .pure ⟨.index u v, rfl, rfl, by simp [Kind.children]⟩
    | exact .pure ⟨.binary op u v, rfl, rfl, by simp [Kind.children]⟩
    | exact .pure ⟨.assign u v, rfl, rfl, by simp [Kind.children]⟩
  | expressionStatement t | property key t shorthand method | member t name | unary op t =>
    refine (h t (by simp [Kind.children])).bind ?_
    rintro _ _ ⟨u, rfl, rfl, rfl⟩
    first
    | exact .pure ⟨.expressionStatement u, rfl, rfl, by simp [Kind.children]⟩
    | exact .pure ⟨.property key u shorthand method, rfl, rfl, by simp [Kind.children]⟩
    | exact .pure ⟨.member u name, rfl, rfl, by simp [Kind.children]⟩
    | exact .pure ⟨.unary op u, rfl, rfl, by simp [Kind.children]⟩
  | empty => exact .pure ⟨.empty, rfl, rfl, rfl⟩
  | number raw => exact .pure ⟨.number raw, rfl, rfl, rfl⟩
  | string raw => exact .pure ⟨.string raw, rfl, rfl, rfl⟩
  | boolean value => exact .pure ⟨.boolean value, rfl, rfl, rfl⟩
  | null => exact .pure ⟨.null, rfl, rfl, rfl⟩
  | identifier name => exact .pure ⟨.identifier name, rfl, rfl, rfl⟩
  | this => exact .pure ⟨.this, rfl, rfl, rfl⟩

theorem mapM_map {α β γ : Type} (f : β → StateM (Array Node) γ) (g : α → β) (k : Kind α) :
    (k.map g).mapM f = k.mapM fun a => f (g a) := by
  cases k with
  | declarator _ a | returnStatement a | param _ a _ | ifStatement _ _ a => cases a <;> rfl
  | _ => simp [Kind.map, Kind.mapM, Function.comp_def]

theorem graft_node (span : Span) (k : Kind (Tree Span)) :
    graft (.node span k) = (do
      let kind ← k.mapM graft
      modifyGet fun nodes => (nodes.size, nodes.push ⟨kind, span⟩)) := by
  rw [graft, fold_node, mapM_map]
  rfl

theorem addsTree_graft (t : Tree Span) : AddsTree t (graft t) := by
  induction t using induction_on with
  | node span k ih =>
    rw [graft_node]
    refine (adds_kind ih).bind ?_
    rintro _ _ ⟨l, rfl, rfl, rfl⟩ nodes X hX
    have hpush := hX.push ⟨l.map number, span⟩
    rw [← Multiset.singleton_add] at hpush
    refine ⟨_, ⟨.node (nodes.size, span) l, plain_node _ _, rfl, ?_⟩, hpush,
      Array.size_push _ |>.trans (by rw [Multiset.card_singleton])⟩
    rw [cells_node, add_comm, Multiset.singleton_add]
    rfl

/-- A stored tree is owned by its store, which has no other nodes. -/
theorem exists_holds_ofTree (t : Tree Span) :
    ∃ u, (ofTree t).Holds u ∧ u.plain = t ∧ u.cells.card = (ofTree t).size := by
  obtain ⟨span, k⟩ := t
  have hroot : Owns #[⟨.program [], {}⟩] {((0 : NodeId), (⟨.program [], {}⟩ : Node))} :=
    ⟨by simp, by simp⟩
  have hadds := adds_kind (k := k) fun t _ => addsTree_graft t
  obtain ⟨_, ⟨l, rfl, hkind, rfl⟩, hY, hsize⟩ := hadds _ _ hroot
  rw [add_comm] at hY
  have hcard : (Tree.node ((0 : NodeId), span) l).cells.card
      = (ofTree (.node span (l.map plain))).size := by
    have hmodify : (ofTree (.node span (l.map plain))).size = _ := Array.size_modify
    rw [cells_node, Multiset.card_cons, hmodify]
    exact (add_comm _ _).trans hsize.symm
  refine ⟨.node (0, span) l, ⟨rfl, ?_⟩, plain_node _ _, hcard⟩
  have hmodify := hY.modify fun _ => ⟨l.map number, span⟩
  rw [hkind] at hmodify
  rw [cells_node, cell, hkind]
  exact hmodify

end Store

end Downlevel
