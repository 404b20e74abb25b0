import Mathlib.Tactic.Abel
import Downlevel.Lowering.Basic
import Downlevel.Proofs.Walk

/-!
# Actions on owned cells

`Turns X action Q` says what an action on a store makes of the cells `X`: afterwards the store owns,
in their place, cells `Y` with `Q v Y` for the result `v`, and whatever else it owned before. An
action that rewrites the tree at a node as `step` rewrites trees (`Rewrites`) is a hook that does so
(`Rewrites.does`).
-/

namespace Downlevel

open Downlevel.Tree

/-- From cells `X`, the action makes cells that satisfy `Q` together with its result, and leaves
everything else as it is. -/
def Turns {α : Type} (X : Multiset Cell) (action : StateM Store α)
    (Q : α → Multiset Cell → Prop) : Prop :=
  ∀ s F, Owns s.nodes (X + F) → ∃ Y, Q (action s).1 Y ∧ Owns (action s).2.nodes (Y + F) ∧
    (action s).2.root = s.root

/-- The action makes a tree out of cells `X`, and returns its number. -/
def Makes (X : Multiset Cell) (action : StateM Store NodeId) (t : Tree Span) : Prop :=
  Turns X action fun id Y => ∃ u : Tree Label, u.plain = t ∧ u.number = id ∧ u.cells = Y

namespace Turns

variable {α β : Type} {X Z : Multiset Cell} {Q : α → Multiset Cell → Prop}
  {R : β → Multiset Cell → Prop}

theorem pure {v : α} (h : Q v X) : Turns X (Pure.pure v) Q :=
  fun _ _ hs => ⟨X, h, hs, rfl⟩

theorem bind {action : StateM Store α} {f : α → StateM Store β} (h : Turns X action Q)
    (hf : ∀ v Y, Q v Y → Turns (Y + Z) (f v) R) : Turns (X + Z) (action >>= f) R := by
  intro s F hs
  rw [add_assoc] at hs
  obtain ⟨Y, hQ, hY, hroot⟩ := h s _ hs
  rw [← add_assoc] at hY
  obtain ⟨Y', hR, hY', hroot'⟩ := hf _ Y hQ _ F hY
  exact ⟨Y', hR, hY', hroot'.trans hroot⟩

/-- The same with nothing set aside. -/
theorem bind' {action : StateM Store α} {f : α → StateM Store β} (h : Turns X action Q)
    (hf : ∀ v Y, Q v Y → Turns Y (f v) R) : Turns X (action >>= f) R := by
  rw [← add_zero X]
  exact h.bind fun v Y hQ => (add_zero Y).symm ▸ hf v Y hQ

theorem mono {Q' : α → Multiset Cell → Prop} {action : StateM Store α} (h : Turns X action Q)
    (hQ : ∀ v Y, Q v Y → Q' v Y) : Turns X action Q' := by
  intro s F hs
  obtain ⟨Y, hY, hs'⟩ := h s F hs
  exact ⟨Y, hQ _ Y hY, hs'⟩

/-- Other cells stay as they are. -/
theorem frame {action : StateM Store α} (h : Turns X action Q) (Z : Multiset Cell) :
    Turns (X + Z) action fun v Y => ∃ Y', Q v Y' ∧ Y' + Z = Y := by
  intro s F hs
  rw [add_assoc] at hs
  obtain ⟨Y, hQ, howns, hroot⟩ := h s _ hs
  rw [← add_assoc] at howns
  exact ⟨Y + Z, ⟨Y, hQ, rfl⟩, howns, hroot⟩

/-- Cells that are no longer needed are given up. -/
theorem drop {action : StateM Store α} (h : Turns X action Q) (Z : Multiset Cell) :
    Turns (X + Z) action Q := by
  intro s F hs
  refine h s F (hs.mono ?_)
  rw [add_right_comm]
  exact Multiset.le_add_right _ _

/-- What an action reads of the store is what it owns there. -/
theorem get {f : Store → StateM Store α}
    (h : ∀ s : Store, (∀ c ∈ X, s.node c.1 = c.2) → Turns X (f s) Q) : Turns X (get >>= f) Q := by
  intro s F hs
  exact h s (fun c hc => Store.node_eq hs (Multiset.mem_add.mpr (.inl hc))) s F hs

/-- No two of the cells made are the same node. -/
theorem nodup {action : StateM Store α} (h : Turns X action Q) :
    Turns X action fun v Y => Q v Y ∧ (Y.map Prod.fst).Nodup := by
  intro s F hs
  obtain ⟨Y, hQ, howns, hroot⟩ := h s F hs
  exact ⟨Y, ⟨hQ, (howns.mono (Multiset.le_add_right Y F)).nodup⟩, howns, hroot⟩

theorem replace {id : NodeId} {n : Node} (kind : Kind NodeId) :
    Turns {(id, n)} (Lowering.replace id kind) fun _ Y => Y = {(id, { n with kind })} := by
  intro s F hs
  refine ⟨_, rfl, ?_, rfl⟩
  rw [Multiset.singleton_add] at hs ⊢
  exact hs.modify ({ · with kind })

end Turns

theorem cells_eq (a : Label) (k : Kind (Tree Label)) :
    (Tree.node a k).cells = {cell a k} + forest k.children := by
  rw [cells_node, Multiset.singleton_add]

/-- Making a node something else turns it into the root of other trees. The rest is set aside. -/
theorem turns_replace {a : Label} (k k' : Kind (Tree Label)) {Z W : Multiset Cell}
    (hW : W = {cell a k} + forest k'.children + Z) :
    Turns W (Lowering.replace a.1 (k'.map number)) fun _ Y => Y = (Tree.node a k').cells + Z := by
  subst hW
  intro s F hs
  have hs' : Owns s.nodes ({cell a k} + (forest k'.children + Z + F)) := by
    simpa only [add_assoc] using hs
  obtain ⟨_, rfl, howns, hroot⟩ := Turns.replace (k'.map number) s _ hs'
  refine ⟨_, rfl, ?_, hroot⟩
  simp only [cells_eq, cell, add_assoc] at howns ⊢
  exact howns

/-- An action that makes a tree is followed by what uses the tree. -/
theorem Makes.bind {β : Type} {W X : Multiset Cell} {R : β → Multiset Cell → Prop}
    {action : StateM Store NodeId} {t : Tree Span} {f : NodeId → StateM Store β}
    (h : Makes X action t) (Z : Multiset Cell) (hW : W = X + Z)
    (hf : ∀ u : Tree Label, u.plain = t → Turns (u.cells + Z) (f u.number) R) :
    Turns W (action >>= f) R := by
  subst hW
  refine Turns.bind h ?_
  rintro _ _ ⟨u, rfl, rfl, rfl⟩
  exact hf u rfl

theorem Makes.cast {W X : Multiset Cell} {action : StateM Store NodeId} {t t' : Tree Span}
    (h : Makes X action t) (hW : W = X) (ht : t = t') : Makes W action t' := by
  subst hW ht
  exact h

/-- A new node takes its children out of what is owned. -/
theorem turns_alloc (k : Kind (Tree Label)) (span : Span) :
    Turns (forest k.children) (Store.alloc (k.map number) span) fun id Y =>
      (Tree.node (id, span) k).cells = Y := by
  intro s F hs
  refine ⟨_, rfl, ?_, rfl⟩
  rw [cells_node, Multiset.cons_add]
  exact hs.push _

theorem makes_alloc (k : Kind (Tree Label)) (span : Span) :
    Makes (forest k.children) (Store.alloc (k.map number) span) (.node span (k.map plain)) :=
  (turns_alloc k span).mono fun _ _ h => ⟨_, plain_node _ _, rfl, h⟩

theorem Owns.node_tree {s : Store} {X : Multiset Cell} (h : ∀ c ∈ X, s.node c.1 = c.2)
    {t : Tree Label} (ht : t.cells ≤ X) :
    s.node t.number = ⟨t.kind.map number, t.ann.2⟩ := by
  obtain ⟨a, k⟩ := t
  rw [cells_node] at ht
  exact h (cell a k) (Multiset.mem_of_le ht (Multiset.mem_cons_self _ _))

/-! ## Rewriting the tree at a node -/

/-- The action turns a node of kind `k` into one of kind `l`. -/
def Remakes (a : Label) (k : Kind (Tree Label)) (action : StateM Store Unit)
    (l : Kind (Tree Span)) : Prop :=
  Turns (Tree.node a k).cells action fun _ Y =>
    ∃ k' : Kind (Tree Label), k'.map plain = l ∧ (Tree.node a k').cells = Y

theorem Remakes.pure {a : Label} {k : Kind (Tree Label)} : Remakes a k (Pure.pure ()) (k.map plain) :=
  Turns.pure ⟨k, rfl, rfl⟩

theorem Remakes.cast {a : Label} {k : Kind (Tree Label)} {action : StateM Store Unit}
    {l l' : Kind (Tree Span)} (h : Remakes a k action l) (hl : l = l') : Remakes a k action l' :=
  hl ▸ h

/-- An action that looks at the node first finds what it is, and its children. -/
theorem Remakes.get {a : Label} {k : Kind (Tree Label)} {f : Store → StateM Store Unit}
    {l : Kind (Tree Span)}
    (h : ∀ s : Store, s.node a.1 = ⟨k.map number, a.2⟩ →
      (∀ c ∈ k.children, s.node c.number = ⟨c.kind.map number, c.ann.2⟩) → Remakes a k (f s) l) :
    Remakes a k (get >>= f) l := by
  refine Turns.get fun s hs => h s (hs (cell a k) (by simp)) fun c hc => Owns.node_tree hs ?_
  rw [cells_node]
  exact (cells_le_forest hc).trans (Multiset.le_cons_self _ _)

/-- Making a node something else over its own children and new trees. -/
theorem turns_remake {a : Label} {k : Kind (Tree Label)} {l : Kind (Tree Span)}
    (k' : Kind (Tree Label)) (hplain : k'.map plain = l) {W : Multiset Cell}
    (hW : W = {cell a k} + forest k'.children) :
    Turns W (Lowering.replace a.1 (k'.map number)) fun _ Y =>
      ∃ k' : Kind (Tree Label), k'.map plain = l ∧ (Tree.node a k').cells = Y := by
  refine (turns_replace k k' (Z := 0) (by rw [hW, add_zero])).mono ?_
  rintro _ _ rfl
  exact ⟨k', hplain, (add_zero _).symm⟩

/-- The action turns every node into what `step` says. -/
def Rewrites (action : NodeId → StateM Store Unit) (step : Span → Kind (Tree Span) → Kind (Tree Span)) :
    Prop :=
  ∀ a k, Remakes a k (action a.1) (step a.2 (k.map plain))

end Downlevel
