import Downlevel.Pass.Sequence
import Downlevel.Proofs.Ancestors
import Downlevel.Proofs.Cells

/-!
# Walks over owned trees

A walk over a tree that the store owns visits its nodes one by one: the hook that enters a node makes
something of it, the children of what it made are visited, and the hook that leaves it finishes. If
the hooks do on cells what `Enters` and `Leaves` say they do on trees, a whole walk does what can be put
together from that (`Plugin.Acts`, `Plugin.Acts.run`). Whatever else the store owns stays as it is,
and a hook finds the nodes on the way to it as ancestors.

How deep a walk may go does not change what it does, unless it would go deeper (`Plugin.walk_of_le`).
-/

namespace Downlevel

open Downlevel.Tree

/-! ## States of a walk -/

namespace WalkState

variable {C : Type}

/-- What hooks change besides the tree: the plugin's context, and what has been reported. -/
def effects (s : WalkState C) : C × List Diagnostic :=
  (s.context, s.module.diagnostics)

end WalkState

namespace Plugin

variable {p : Plugin} {m m' : Module}

theorem walkWithin_eq (p : Plugin) (depth : Nat) (m : Module) (context : p.Context) :
    p.walkWithin depth m context = WalkState.outcome (p.visit depth none m.tree.root
      ⟨{ m with parents := {} }, context, 0⟩) := rfl

theorem walk_eq (p : Plugin) (m : Module) (context : p.Context) :
    p.walk m context = WalkState.outcome (p.visit (depthLimit m.tree) none m.tree.root
      ⟨{ m with parents := {} }, context, 0⟩) :=
  p.walkWithin_eq (depthLimit m.tree) m context

theorem runWithin_of_start {limit : Store → Nat} {context : p.Context} {draft : Draft}
    (h : p.start m = (.ok context, draft)) : p.runWithin limit m
      = p.finished (p.walkWithin (limit draft.tree) { m with toDraft := draft } context) := by
  rw [runWithin, h]

theorem run_of_walk {walked : Walked} {context : p.Context}
    (hstart : p.start m = (.ok p.initial, m.toDraft))
    (hwalk : p.walk m p.initial = (.ok walked, m', context))
    (hfinish : ∀ m cx, p.finish m cx = (.ok (), m.toDraft)) : p.run m = (.ok walked, m') := by
  rw [walk] at hwalk
  rw [run, runWithin_of_start hstart, hwalk, finished, hfinish]

end Plugin

/-- The tree `t` is what is to be visited next, from the first node of `path`, and the frame holds
everything else that is owned, with the nodes on the path. -/
structure Awaits {C : Type} (path : List Cell) (frame : Multiset Cell) (s : WalkState C)
    (t : Tree Label) : Prop where
  owns : Owns s.module.tree.nodes (t.cells + frame)
  path_mem : ∀ c ∈ path, c ∈ frame
  trail : s.module.parents.Trail (path.map Prod.fst)
  root : path = [] → s.module.parents.parent? t.number = none

/-- The tree `t` is entered. -/
structure Stands (path : List Cell) (frame : Multiset Cell) (m : Module) (t : Tree Label) : Prop where
  owns : Owns m.tree.nodes (t.cells + frame)
  path_mem : ∀ c ∈ path, c ∈ frame
  trail : m.parents.Trail (t.number :: path.map Prod.fst)

/-- Between two states of a walk, `t` has become `t'`, and nothing outside of it has changed. -/
structure Becomes {C : Type} (frame : Multiset Cell) (s : WalkState C) (t : Tree Label)
    (s' : WalkState C) (t' : Tree Label) : Prop where
  owns : Owns s'.module.tree.nodes (t'.cells + frame)
  ann : t'.ann = t.ann
  root : s'.module.tree.root = s.module.tree.root
  parents : ∀ c ∈ frame, s'.module.parents.parent? c.1 = s.module.parents.parent? c.1

theorem Stands.ancestors {path : List Cell} {frame : Multiset Cell} {m : Module} {t : Tree Label}
    (h : Stands path frame m t) : m.ancestors t.number = path.map Prod.fst :=
  h.trail.ancestors

theorem Owns.number_ne {nodes : Array Node} {t : Tree Label} {frame : Multiset Cell}
    (h : Owns nodes (t.cells + frame)) {c : Cell} (hc : c ∈ frame) : c.1 ≠ t.number := by
  obtain ⟨a, k⟩ := t
  have hnodup := h.nodup
  rw [cells_node, Multiset.cons_add, Multiset.map_cons, Multiset.nodup_cons] at hnodup
  rintro hnumber
  refine hnodup.1 (Multiset.mem_map.mpr ⟨c, Multiset.mem_add.mpr (.inr hc), hnumber⟩)

/-- Arriving at a node makes the path the way to it. -/
theorem Awaits.arrive {C : Type} {path : List Cell} {frame : Multiset Cell} {s : WalkState C}
    {t : Tree Label} (h : Awaits path frame s t) :
    Stands path frame (s.arrive t.number (path.head?.map Prod.fst)).module t := by
  cases path with
  | nil => exact ⟨h.owns, h.path_mem, h.root rfl⟩
  | cons c path =>
    refine ⟨h.owns, h.path_mem, h.trail.insert fun ht => ?_⟩
    obtain ⟨d, hd, hnumber⟩ := List.mem_map (l := c :: path).mp ht
    exact h.owns.number_ne (h.path_mem d hd) hnumber

/-! ## What the hooks of a plugin do -/

/-- What becomes of a tree below some nodes, and of the effects. -/
abbrev Effect (C : Type) :=
  List Cell → C × List Diagnostic → Tree Label → C × List Diagnostic → Tree Label → Prop

/-- An effect on trees one after another. -/
inductive Through {C : Type} (Q : Effect C) (path : List Cell) :
    C × List Diagnostic → List (Tree Label) → C × List Diagnostic → List (Tree Label) → Prop
  | nil {e : C × List Diagnostic} : Through Q path e [] e []
  | cons {e e' e'' : C × List Diagnostic} {t t' : Tree Label} {ts ts' : List (Tree Label)}
    (head : Q path e t e' t') (tail : Through Q path e' ts e'' ts') :
    Through Q path e (t :: ts) e'' (t' :: ts')

/-- A hook always proceeds, and on owned trees it has this effect. -/
def Hook.Does {C : Type} (hook : Hook C) (R : Effect C) : Prop :=
  ∀ path frame m cx t, Stands path frame m t →
    ∃ draft cx' t', hook t.number m cx = (.ok .proceed, draft, cx') ∧
      Owns draft.tree.nodes (t'.cells + frame) ∧ t'.ann = t.ann ∧ draft.tree.root = m.tree.root ∧
      R path (cx, m.diagnostics) t (cx', draft.diagnostics) t'

/-- What the hooks of a plugin do on trees, `E` on entering and `L` on leaving a node, amounts to `Q`
for whole trees, and a tree `t` is walked in fewer than `need t` levels. -/
structure Plugin.Acts (p : Plugin) (E L Q : Effect p.Context) (need : Tree Label → Nat) : Prop where
  start : ∀ m, p.start m = (.ok p.initial, m.toDraft)
  finish : ∀ m cx, p.finish m cx = (.ok (), m.toDraft)
  enter : p.enter.Does E
  leave : p.leave.Does L
  need_lt : ∀ {path e t e' t'}, E path e t e' t' → ∀ c ∈ t'.kind.children, need c < need t
  node : ∀ {path e t e₁ a k e₂ f e₃ t₃}, E path e t e₁ (node a k) →
    Through Q (cell a k :: path) e₁ k.children e₂ (k.children.map f) →
    (∀ c ∈ k.children, (f c).ann = c.ann) → L path e₂ (node a (k.map f)) e₃ t₃ → Q path e t e₃ t₃

namespace Plugin

variable {p : Plugin} {E L Q : Effect p.Context} {need : Tree Label → Nat}

/-- Calling a hook does what the hook does. -/
theorem call_of_does {hook : Hook p.Context} {R : Effect p.Context} (h : hook.Does R)
    {path : List Cell} {frame : Multiset Cell} {s : WalkState p.Context} {t : Tree Label}
    (hs : Stands path frame s.module t) :
    ∃ s' t', s.call hook t.number = (.ok .proceed, s') ∧ Becomes frame s t s' t' ∧
      s'.module.parents = s.module.parents ∧ R path s.effects t s'.effects t' := by
  obtain ⟨draft, cx, t', hhook, howns, hann, hroot, hR⟩ := h path frame s.module s.context t hs
  refine ⟨{ s with module := { s.module with toDraft := draft }, context := cx }, t', ?_, ?_⟩
  · rw [WalkState.call, hhook]
    rfl
  · exact ⟨⟨howns, hann, hroot, fun _ _ => rfl⟩, rfl, hR⟩

/-- Visits of trees one after another leave each of them as its visit does. -/
theorem visitAll_of_visit {path : List Cell} (hpath : path ≠ [])
    {visit : NodeId → WalkState p.Context → Except Failure Signal × WalkState p.Context}
    {ts : List (Tree Label)}
    (hvisit : ∀ t ∈ ts, ∀ frame s, Awaits path frame s t → ∃ s' t',
      visit t.number s = (.ok .proceed, s') ∧ Becomes frame s t s' t' ∧
        Q path s.effects t s'.effects t')
    {frame : Multiset Cell} {s : WalkState p.Context}
    (howns : Owns s.module.tree.nodes (forest ts + frame)) (hmem : ∀ c ∈ path, c ∈ frame)
    (htrail : s.module.parents.Trail (path.map Prod.fst)) :
    ∃ s' f, WalkState.visitAll visit (ts.map number) s = (.ok .proceed, s') ∧
      Owns s'.module.tree.nodes (forest (ts.map f) + frame) ∧ (∀ t ∈ ts, (f t).ann = t.ann) ∧
      s'.module.tree.root = s.module.tree.root ∧
      (∀ c ∈ frame, s'.module.parents.parent? c.1 = s.module.parents.parent? c.1) ∧
      Through Q path s.effects ts s'.effects (ts.map f) := by
  induction ts generalizing frame s with
  | nil => exact ⟨s, id, rfl, howns, nofun, rfl, fun _ _ => rfl, .nil⟩
  | cons t ts ih =>
    rw [forest_cons, add_assoc] at howns
    have hawaits : Awaits path (forest ts + frame) s t :=
      ⟨howns, fun c hc => Multiset.mem_add.mpr (.inr (hmem c hc)), htrail,
        fun h => absurd h hpath⟩
    obtain ⟨s₁, t₁, hfirst, hbecomes, hQ⟩ := hvisit t List.mem_cons_self _ s hawaits
    have howns₁ : Owns s₁.module.tree.nodes (forest ts + (t₁.cells + frame)) := by
      rw [add_left_comm]
      exact hbecomes.owns
    have hparents : ∀ c ∈ frame,
        s₁.module.parents.parent? c.1 = s.module.parents.parent? c.1 :=
      fun c hc => hbecomes.parents c (Multiset.mem_add.mpr (.inr hc))
    have htrail₁ : s₁.module.parents.Trail (path.map Prod.fst) := htrail.congr fun a ha => by
      obtain ⟨c, hc, rfl⟩ := List.mem_map.mp ha
      exact hparents c (hmem c hc)
    obtain ⟨s₂, f, hrest, howns₂, hann, hroot, hparents₂, hthrough⟩ :=
      ih (fun u hu => hvisit u (List.mem_cons_of_mem _ hu)) howns₁
        (fun c hc => Multiset.mem_add.mpr (.inr (hmem c hc))) htrail₁
    -- The first tree is told apart from the others by its number.
    let g : Tree Label → Tree Label := fun u => if u.number = t.number then t₁ else f u
    have hg : ∀ u ∈ ts, g u = f u := fun u hu => if_neg (by
      obtain ⟨c, hc, hnumber⟩ := Multiset.mem_map.mp u.number_mem_cells
      rw [← hnumber]
      exact howns.number_ne (Multiset.mem_add.mpr (.inl (Multiset.mem_of_le (cells_le_forest hu) hc))))
    have hmap : (t :: ts).map g = t₁ :: ts.map f := by
      rw [List.map_cons, List.map_congr_left hg, show g t = t₁ from if_pos rfl]
    refine ⟨s₂, g, ?_, ?_, ?_, hroot.trans hbecomes.root,
      fun c hc => (hparents₂ c (Multiset.mem_add.mpr (.inr hc))).trans (hparents c hc), ?_⟩
    · rw [List.map_cons, WalkState.visitAll, hfirst]
      exact hrest
    · rw [hmap, forest_cons, add_assoc, add_left_comm]
      exact howns₂
    · refine List.forall_mem_cons.mpr ⟨?_, fun u hu => (congrArg ann (hg u hu)).trans (hann u hu)⟩
      exact (congrArg ann (if_pos rfl)).trans hbecomes.ann
    · rw [hmap]
      exact .cons hQ hthrough

theorem parents_arrive {C : Type} {frame : Multiset Cell} {s : WalkState C} {t : Tree Label}
    (howns : Owns s.module.tree.nodes (t.cells + frame)) (parent : Option NodeId) :
    ∀ c ∈ frame, (s.arrive t.number parent).module.parents.parent? c.1
      = s.module.parents.parent? c.1 := by
  intro c hc
  cases parent with
  | none => rfl
  | some parent => exact ParentIndex.parent?_insert_of_ne (howns.number_ne hc)

/-- A node whose children have changed, but for their numbers, has the same cell. -/
theorem cell_map {a : Label} {k : Kind (Tree Label)} {f : Tree Label → Tree Label}
    (h : ∀ c ∈ k.children, (f c).ann = c.ann) : cell a (k.map f) = cell a k := by
  have hkind : (k.map f).map number = k.map number := by
    rw [Kind.map_map]
    exact Kind.map_congr fun c hc => congrArg Prod.fst (h c hc)
  rw [cell, cell, hkind]

/-- Visiting a tree does to it what the hooks amount to. -/
theorem Acts.visit (h : p.Acts E L Q need) (depth : Nat) {path : List Cell}
    {frame : Multiset Cell} {s : WalkState p.Context} {t : Tree Label} (hneed : need t < depth)
    (hs : Awaits path frame s t) :
    ∃ s' t', p.visit depth (path.head?.map Prod.fst) t.number s = (.ok .proceed, s') ∧
      Becomes frame s t s' t' ∧ Q path s.effects t s'.effects t' := by
  induction depth generalizing path frame s t with
  | zero => exact absurd hneed (Nat.not_lt_zero _)
  | succ depth ih =>
    have hparents₀ := parents_arrive hs.owns (path.head?.map Prod.fst)
    have hstands := hs.arrive
    obtain ⟨s₁, ⟨a, k⟩, henter, hbecomes₁, hindex, hE⟩ := call_of_does h.enter hstands
    have hnumber : a.1 = t.number := congrArg Prod.fst hbecomes₁.ann
    have howns₁ := hbecomes₁.owns
    rw [cells_node, Multiset.cons_add, ← Multiset.add_cons] at howns₁
    have hchildren : s₁.module.tree.children t.number = k.children.map number := by
      have hnode : s₁.module.tree.node a.1 = _ :=
        Store.node_eq howns₁ (Multiset.mem_add.mpr (.inr (Multiset.mem_cons_self (cell a k) _)))
      rw [← hnumber, Store.children, Store.kind, hnode]
      exact Kind.children_map _ _
    have htrail₁ : s₁.module.parents.Trail ((cell a k :: path).map Prod.fst) := by
      rw [hindex, List.map_cons, show (cell a k).1 = t.number from hnumber]
      exact hstands.trail
    have hvisit : ∀ c ∈ k.children, ∀ frame s, Awaits (cell a k :: path) frame s c → ∃ s' c',
        p.visit depth (some t.number) c.number s = (.ok .proceed, s') ∧ Becomes frame s c s' c' ∧
          Q (cell a k :: path) s.effects c s'.effects c' := by
      intro c hc frame s hs
      have hlt : need c < need t := h.need_lt hE c hc
      rw [← hnumber]
      exact ih (by omega) hs
    obtain ⟨s₂, f, hall, howns₂, hann, hroot₂, hparents₂, hthrough⟩ :=
      visitAll_of_visit (by simp) hvisit howns₁
        (List.forall_mem_cons.mpr ⟨Multiset.mem_cons_self _ _,
          fun c hc => Multiset.mem_cons_of_mem (hs.path_mem c hc)⟩)
        htrail₁
    have hstands₂ : Stands path frame s₂.module (.node a (k.map f)) := by
      refine ⟨?_, hs.path_mem, htrail₁.congr fun b hb => ?_⟩
      · rw [cells_node, Kind.children_map, cell_map hann, Multiset.cons_add, ← Multiset.add_cons]
        exact howns₂
      · obtain ⟨c, hc, rfl⟩ := List.mem_map.mp hb
        rcases List.mem_cons.mp hc with rfl | hc
        · exact hparents₂ _ (Multiset.mem_cons_self _ _)
        · exact hparents₂ _ (Multiset.mem_cons_of_mem (hs.path_mem c hc))
    obtain ⟨s₃, t₃, hleave, hbecomes₃, -, hL⟩ := call_of_does h.leave hstands₂
    refine ⟨s₃, t₃, ?_, ?_, h.node hE hthrough hann hL⟩
    · rw [number_node, hnumber] at hleave
      simp only [Plugin.visit, henter, hchildren, hall, leaveNode, hleave]
    · refine ⟨hbecomes₃.owns, hbecomes₃.ann.trans hbecomes₁.ann,
        hbecomes₃.root.trans (hroot₂.trans hbecomes₁.root), fun c hc => ?_⟩
      calc s₃.module.parents.parent? c.1
          = s₂.module.parents.parent? c.1 := hbecomes₃.parents c hc
        _ = s₁.module.parents.parent? c.1 := hparents₂ c (Multiset.mem_cons_of_mem hc)
        _ = (s.arrive t.number (path.head?.map Prod.fst)).module.parents.parent? c.1 :=
            hbecomes₁.parents c hc
        _ = s.module.parents.parent? c.1 := hparents₀ c hc

/-- A whole pass over a tree does to it what the hooks amount to, and never fails. -/
theorem Acts.run (h : p.Acts E L Q need) {m : Module} {t : Tree Label} (ht : m.tree.Holds t)
    (hneed : need t < depthLimit m.tree) :
    ∃ walked m' t' cx, p.run m = (.ok walked, m') ∧ m'.tree.Holds t' ∧
      Q [] (p.initial, m.diagnostics) t (cx, m'.diagnostics) t' := by
  let s : WalkState p.Context := ⟨{ m with parents := {} }, p.initial, 0⟩
  have hawaits : Awaits [] 0 s t :=
    ⟨by simpa using ht.2, nofun, trivial, fun _ => rfl⟩
  obtain ⟨s', t', hvisit, hbecomes, hQ⟩ := h.visit _ hneed hawaits
  have hwalk : p.walk m p.initial = (.ok ⟨s'.entered, false⟩, s'.module, s'.context) := by
    rw [ht.1] at hvisit
    rw [walk_eq, show p.visit (depthLimit m.tree) none m.tree.root _ = _ from hvisit]
    rfl
  refine ⟨⟨s'.entered, false⟩, s'.module, t', s'.context, ?_, ⟨?_, ?_⟩, hQ⟩
  · exact run_of_walk (h.start m) hwalk h.finish
  · rw [hbecomes.root]
    exact (congrArg Prod.fst hbecomes.ann).trans ht.1
  · simpa using hbecomes.owns

end Plugin

/-! ## How deep a walk goes -/

/-- Visits that agree wherever the first does not go too deep agree along a list, if it does not there. -/
theorem WalkState.visitAll_of_agree {C : Type}
    {visit visit' : NodeId → WalkState C → Except Failure Signal × WalkState C}
    (hvisit : ∀ id s, (visit id s).1 ≠ .error .tooDeep → visit' id s = visit id s) :
    ∀ ids s, (visitAll visit ids s).1 ≠ .error .tooDeep → visitAll visit' ids s = visitAll visit ids s
  | [], _, _ => rfl
  | id :: ids, s, h => by
    have ih := visitAll_of_agree hvisit ids
    have hagree := hvisit id s
    rw [visitAll, visitAll]
    rw [visitAll] at h
    generalize visit id s = r at h hagree
    obtain ⟨e | signal, s'⟩ := r
    · rw [hagree h]
    · rw [hagree nofun]
      cases signal with
      | stop => rfl
      | skip | proceed => exact ih s' h

namespace Plugin

variable {p : Plugin} {m : Module}

/-- A visit that does not go too deep is the same if it may go deeper. -/
theorem visit_of_le {depth depth' : Nat} (hdepth : depth ≤ depth') (parent : Option NodeId)
    (id : NodeId) (s : WalkState p.Context) (h : (p.visit depth parent id s).1 ≠ .error .tooDeep) :
    p.visit depth' parent id s = p.visit depth parent id s := by
  induction depth generalizing depth' parent id s with
  | zero => exact absurd rfl h
  | succ depth ih =>
    obtain ⟨depth', rfl⟩ := Nat.exists_eq_add_of_le' (Nat.one_le_of_lt hdepth)
    rw [visit, visit]
    rw [visit] at h
    rcases hcall : (s.arrive id parent).call p.enter id with ⟨e | signal, s'⟩
    · rfl
    · cases signal with
      | stop | skip => rfl
      | proceed =>
        rw [hcall] at h
        dsimp only at h ⊢
        rw [WalkState.visitAll_of_agree (ih (Nat.le_of_succ_le_succ hdepth) (some id))]
        intro hdeep
        generalize s'.visitAll (p.visit depth (some id)) (s'.module.tree.children id) = r at h hdeep
        obtain ⟨o, s''⟩ := r
        obtain rfl : o = .error .tooDeep := hdeep
        exact h rfl

/-- A walk that does not go too deep is the same if it may go deeper: the limit decides whether a walk is
cut off, never what it does. -/
theorem walkWithin_of_le {depth depth' : Nat} {context : p.Context} (hdepth : depth ≤ depth')
    (h : (p.walkWithin depth m context).1 ≠ .error .tooDeep) :
    p.walkWithin depth' m context = p.walkWithin depth m context := by
  rw [walkWithin_eq] at h
  rw [walkWithin_eq, walkWithin_eq, visit_of_le hdepth]
  intro hdeep
  refine h ?_
  rw [WalkState.outcome, hdeep]
  rfl

end Plugin

end Downlevel
