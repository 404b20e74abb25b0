import Downlevel.Lowering.Catalog
import Downlevel.Proofs.Depth
import Downlevel.Proofs.Hoisting
import Downlevel.Proofs.InPlace

/-!
# What a pass does to a tree

The pass of each lowering runs to its end on every stored tree, and leaves the tree that the lowering's
step makes of it, node by node (`Construct.lowers`). Most lowerings look at one node at a time
(`Plugin.acts_of_reworks`). That of arrow functions keeps a list of those that use the surrounding
`this`, and that of block scope asks what is around a declaration.
-/

namespace Downlevel

open Downlevel.Tree

/-! ## Lowerings that look at one node at a time -/

section Reworks

variable {C : Type}

/-- A node becomes what `g` makes of it, and nothing else happens. -/
def Reworks (g : Span → Kind (Tree Span) → Kind (Tree Span)) : Effect C :=
  fun _ e t e' t' => e' = e ∧ t'.plain = node t.plain.ann (g t.plain.ann t.plain.kind)

/-- A tree is rebuilt, and nothing else happens. -/
def Rebuilds (step : Step Span) : Effect C :=
  fun _ e t e' t' => e' = e ∧ t'.plain = rebuild step t.plain

/-- An action that makes something of a node, as a hook. -/
theorem Turns.does {action : NodeId → StateM Store Unit} {path : List Cell} {frame : Multiset Cell}
    {m : Module} {a : Label} {k : Kind (Tree Label)} {Q : Kind (Tree Label) → Prop}
    (h : Turns (node a k).cells (action a.1) fun _ Y => ∃ k', Q k' ∧ (node a k').cells = Y)
    (hs : Stands path frame m (node a k)) (cx : C) :
    ∃ (draft : Draft) (k' : Kind (Tree Label)),
      Lowering.hook action a.1 m cx = (.ok .proceed, draft, cx) ∧
      Owns draft.tree.nodes ((node a k').cells + frame) ∧ draft.tree.root = m.tree.root ∧
      draft.diagnostics = m.diagnostics ∧ Q k' := by
  obtain ⟨_, ⟨k', hQ, rfl⟩, howns, hroot⟩ := h m.tree frame hs.owns
  exact ⟨_, k', rfl, howns, hroot, rfl, hQ⟩

theorem Remakes.does {action : NodeId → StateM Store Unit} {path : List Cell} {frame : Multiset Cell}
    {m : Module} {a : Label} {k : Kind (Tree Label)} {l : Kind (Tree Span)}
    (h : Remakes a k (action a.1) l) (hs : Stands path frame m (node a k)) (cx : C) :
    ∃ (draft : Draft) (t' : Tree Label), Lowering.hook action a.1 m cx = (.ok .proceed, draft, cx) ∧
      Owns draft.tree.nodes (t'.cells + frame) ∧ t'.ann = a ∧ draft.tree.root = m.tree.root ∧
      draft.diagnostics = m.diagnostics ∧ t'.plain = node a.2 l := by
  obtain ⟨draft, k', hhook, howns, hroot, hdiagnostics, hplain⟩ := Turns.does h hs cx
  exact ⟨draft, node a k', hhook, howns, rfl, hroot, hdiagnostics, by rw [plain_node, hplain]⟩

theorem Rewrites.does {action : NodeId → StateM Store Unit}
    {step : Span → Kind (Tree Span) → Kind (Tree Span)} (h : Rewrites action step) :
    (Lowering.hook action : Hook C).Does (Reworks step) := by
  rintro path frame m cx ⟨a, k⟩ hs
  obtain ⟨draft, t', hhook, howns, hann, hroot, hdiagnostics, hplain⟩ := (h a k).does hs cx
  refine ⟨draft, cx, t', hhook, howns, hann, hroot, by rw [hdiagnostics], ?_⟩
  rw [hplain, plain_node]
  rfl

theorem Hook.pass_does : (Hook.pass : Hook C).Does (Reworks fun _ k => k) :=
  fun _ _ m cx t hs => ⟨m.toDraft, cx, t, rfl, hs.owns, rfl, rfl, rfl, (node_ann_kind _).symm⟩

theorem Through.rebuilds {step : Step Span} {path : List Cell} {e e' : C × List Diagnostic}
    {ts ts' : List (Tree Label)} (h : Through (Rebuilds step) path e ts e' ts') :
    e' = e ∧ ts'.map plain = ts.map fun t => rebuild step t.plain := by
  induction h with
  | nil => exact ⟨rfl, rfl⟩
  | cons head _ ih => exact ⟨ih.1.trans head.1, by rw [List.map_cons, List.map_cons, head.2, ih.2]⟩

end Reworks

/-! ### Numbered trees and what they stand for -/

section Plain

variable {a b : Label} {k k' : Kind (Tree Label)} {l : Kind (Tree Span)}

theorem plain_eq_node (h : (node b k').plain = node (node a k).plain.ann l) :
    b.2 = a.2 ∧ k'.map plain = l := by
  rw [plain_node, plain_node] at h
  exact Tree.node.inj h

theorem reach_lt_of_plain (h : (node b k').plain = node (node a k).plain.ann l)
    (hreach : ∀ c ∈ l.children, c.reach < (node a k).plain.reach) :
    ∀ c ∈ k'.children, c.reach < (node a k).reach := by
  intro c hc
  have hmem : c.plain ∈ l.children := by
    rw [← (plain_eq_node h).2, Kind.children_map]
    exact List.mem_map_of_mem hc
  have hplain : ∀ t : Tree Label, t.plain.reach = t.reach := reach_map _
  have hlt := hreach _ hmem
  rwa [hplain, hplain] at hlt

theorem map_plain_of_children {f : Tree Label → Tree Label} {g : Tree Span → Tree Span}
    (h : (k.children.map f).map plain = k.children.map fun t => g t.plain) :
    (k.map f).map plain = (k.map plain).map g := by
  rw [List.map_map, List.map_inj_left] at h
  rw [Kind.map_map, Kind.map_map]
  exact Kind.map_congr h

end Plain

/-- A lowering that makes something of each node on entering it, `g`, or on leaving it, `l`, rebuilds
the tree, if what it makes on entering does not depend on whether the children are rebuilt yet. -/
theorem Plugin.acts_of_reworks {p : Plugin} {g l : Span → Kind (Tree Span) → Kind (Tree Span)}
    {step : Step Span} (hstart : ∀ m, p.start m = (.ok p.initial, m.toDraft))
    (hfinish : ∀ m cx, p.finish m cx = (.ok (), m.toDraft)) (henter : p.enter.Does (Reworks g))
    (hleave : p.leave.Does (Reworks l))
    (hreach : ∀ a k, ∀ c ∈ (g a k).children, c.reach < (node a k).reach)
    (hstep : ∀ a bound k, l a ((g a k).map (rebuild step)) = step a bound (k.map (rebuild step))) :
    p.Acts (Reworks g) (Reworks l) (Rebuilds step) reach where
  start := hstart
  finish := hfinish
  enter := henter
  leave := hleave
  need_lt := by
    rintro path e ⟨a, k⟩ e' ⟨b, k'⟩ ⟨-, hplain⟩
    refine reach_lt_of_plain hplain ?_
    rw [plain_node]
    exact hreach _ _
  node := by
    rintro path e ⟨a, k⟩ e₁ b k' e₂ f e₃ ⟨a₃, k₃⟩ ⟨rfl, hplain⟩ hthrough - ⟨rfl, hplain₃⟩
    obtain ⟨hann, hkind⟩ := plain_eq_node hplain
    obtain ⟨hann₃, hkind₃⟩ := plain_eq_node hplain₃
    obtain ⟨rfl, hchildren⟩ := hthrough.rebuilds
    refine ⟨rfl, ?_⟩
    rw [plain_node, hann₃, hkind₃, plain_node, ann_node, kind_node, map_plain_of_children hchildren,
      hkind, hann, plain_node, rebuild_node]
    exact congrArg (node a.2) (hstep a.2 _ (k.map plain))

/-! ## Block scope -/

/-- The nodes on a path, without their children. -/
def outlines (path : List Cell) : List (Kind Unit) :=
  path.map fun c => c.2.kind.outline

section Stands

variable {path : List Cell} {frame : Multiset Cell} {m : Module} {a : Label}
  {k : Kind (Tree Label)}

theorem Stands.node_path {t : Tree Label} (h : Stands path frame m t) :
    ∀ c ∈ path, m.tree.node c.1 = c.2 :=
  fun c hc => Store.node_eq h.owns (Multiset.mem_add.mpr (.inr (h.path_mem c hc)))

theorem Stands.node (h : Stands path frame m (.node a k)) :
    m.tree.node a.1 = ⟨k.map number, a.2⟩ :=
  Store.node_eq h.owns (c := cell a k) (by simp)

theorem Stands.node_child (h : Stands path frame m (.node a k)) :
    ∀ c ∈ k.children, m.tree.node c.number = ⟨c.kind.map number, c.ann.2⟩ := by
  intro c hc
  refine Owns.node_tree (X := (Tree.node a k).cells)
    (fun d hd => Store.node_eq h.owns (Multiset.mem_add.mpr (.inl hd))) ?_
  rw [cells_node]
  exact (cells_le_forest hc).trans (Multiset.le_cons_self _ _)

end Stands

/-- Going up the ancestors finds what is around a node. -/
theorem inBlock_path {m : Module} {path : List Cell} (hnode : ∀ c ∈ path, m.tree.node c.1 = c.2)
    (htrail : m.parents.Trail (path.map Prod.fst)) :
    Lowering.inBlock m (path.map Prod.fst) = inBlock (outlines path) := by
  induction path with
  | nil => rfl
  | cons c path ih =>
    obtain ⟨id, n⟩ := c
    rw [List.forall_mem_cons] at hnode
    have hkind : m.tree.kind id = n.kind := congrArg Node.kind hnode.1
    have hparent : ((m.parent? id).any fun parent => (m.tree.kind parent).isFunction)
        = (outlines path).head?.any Kind.isFunction := by
      cases path with
      | nil => rw [Module.parent?, show m.parents.parent? id = none from htrail]; rfl
      | cons d path =>
        have hd : m.tree.kind d.1 = d.2.kind := congrArg Node.kind (hnode.2 d (by simp))
        rw [Module.parent?, show m.parents.parent? id = some d.1 from htrail.1]
        simp [outlines, isFunction_outline, hd]
    rw [List.map_cons, Lowering.inBlock, hkind]
    cases hn : n.kind with
    | block body =>
      simp only [outlines, List.map_cons, hn]
      exact congrArg (!·) hparent
    | program | functionDeclaration | functionExpression | arrowFunction | ifStatement
    | whileStatement => simp only [outlines, List.map_cons, hn]; rfl
    | _ =>
      simp only [outlines, List.map_cons, hn]
      exact ih hnode.2 htrail.tail

theorem declaredNames_children {s : Store} {ds : List (Tree Label)}
    (h : ∀ c ∈ ds, s.node c.number = ⟨c.kind.map number, c.ann.2⟩) :
    Lowering.declaredNames s (ds.map number) = declaredNames (ds.map plain) := by
  rw [Lowering.declaredNames, declaredNames, List.filterMap_map, List.filterMap_map]
  refine congrArg _ (List.filterMap_congr fun c hc => ?_)
  simp only [Function.comp_apply, Store.kind, h c hc, kind_plain]
  cases c.kind <;> rfl

/-- A declaration is reported if it leaves its block, and loses its block scope. -/
def EntersScope : Effect Unit :=
  fun path e t e' t' => e' = (e.1, e.2 ++ (warning? (outlines path, t.plain)).toList) ∧
    t'.plain = node t.plain.ann (scopeStep t.plain.ann false t.plain.kind)

/-- Every declaration that leaves its block is reported, and none has block scope any more. -/
def LowersScope : Effect Unit :=
  fun path e t e' t' => e' = (e.1, e.2 ++ t.plain.hoisted (outlines path)) ∧
    t'.plain = rebuild scopeStep t.plain

theorem tree_warnHoisted (m : Module) (id : NodeId) (keyword : DeclKind) (ds : List NodeId) :
    (Lowering.warnHoisted m id keyword ds).tree = m.tree := by
  unfold Lowering.warnHoisted
  split <;> rfl

theorem diagnostics_warnHoisted {path : List Cell} {frame : Multiset Cell} {m : Module} {a : Label}
    {keyword : DeclKind} {ds : List (Tree Label)}
    (hs : Stands path frame m (node a (.declaration keyword ds))) (hkeyword : keyword ≠ .var) :
    (Lowering.warnHoisted m a.1 keyword (ds.map number)).diagnostics
      = m.diagnostics
        ++ (warning? (outlines path, (node a (.declaration keyword ds)).plain)).toList := by
  have hspan : m.tree.span a.1 = a.2 := congrArg Node.span hs.node
  have hancestors : m.ancestors a.1 = path.map Prod.fst := hs.ancestors
  have hwarning : (node a (.declaration keyword ds)).plain.hoistWarning?
      = some ⟨Lowering.blockScopeHoisted, "`" ++ keyword.keyword ++ "` declaration of "
        ++ declaredNames (ds.map plain) ++ " is hoisted out of its block",
        a.2.start.line, a.2.start.column⟩ := by
    rw [plain_node]
    cases keyword <;> first | rfl | exact absurd rfl hkeyword
  have hnames : Lowering.declaredNames m.tree (ds.map number) = declaredNames (ds.map plain) :=
    declaredNames_children hs.node_child
  rw [Lowering.warnHoisted, hancestors, inBlock_path hs.node_path hs.trail.tail, hnames, warning?, hwarning]
  split
  · simp [Draft.warn, Draft.push, Draft.logEvent, hspan]
  · simp

theorem blockScope_enter_does : Lowering.blockScope.enter.Does EntersScope := by
  rintro path frame m cx ⟨a, k⟩ hs
  have hkind : m.tree.kind a.1 = k.map number := congrArg Node.kind hs.node
  by_cases hk : ∃ keyword ds, keyword ≠ .var ∧ k = .declaration keyword ds
  · obtain ⟨keyword, ds, hkeyword, rfl⟩ := hk
    obtain ⟨_, ⟨k', hplain, rfl⟩, howns, hroot⟩ :=
      remakes_replace (a := a) (k := .declaration keyword ds) (.declaration .var ds) rfl m.tree frame
        hs.owns
    refine ⟨(Lowering.warnHoisted m a.1 keyword (ds.map number)).edit
      (·.replace a.1 (.declaration .var (ds.map number))), cx, node a k', ?_, ?_, rfl, ?_, ?_, ?_⟩
    · cases keyword <;> first | exact absurd rfl hkeyword |
        simp only [Lowering.blockScope, hkind, Kind.map, number_node]
    · rw [Draft.edit, tree_warnHoisted]
      exact howns
    · rw [Draft.edit, tree_warnHoisted]
      exact hroot
    · exact congrArg _ (diagnostics_warnHoisted hs hkeyword)
    · rw [plain_node, hplain, plain_node]
      rfl
  · -- Other nodes stay as they are.
    have hvar : ∀ {keyword ds}, k = .declaration keyword ds → keyword = .var :=
      fun h => by_contra fun hkeyword => hk ⟨_, _, hkeyword, h⟩
    have hstep : scopeStep a.2 false (k.map plain) = k.map plain := by
      cases k with
      | declaration keyword ds => rw [hvar rfl]; rfl
      | _ => rfl
    have hwarning : (node a.2 (k.map plain)).hoistWarning? = none := by
      cases k with
      | declaration keyword ds => rw [hvar rfl]; rfl
      | _ => rfl
    refine ⟨m.toDraft, cx, node a k, ?_, hs.owns, rfl, rfl, ?_, ?_⟩
    · cases k with
      | declaration keyword ds =>
        rw [hvar rfl] at hkind
        simp only [Lowering.blockScope, hkind, Kind.map, number_node]
      | _ => simp only [Lowering.blockScope, hkind, Kind.map, number_node]
    · rw [warning?, plain_node, hwarning, ite_self]
      exact congrArg (Prod.mk cx) (List.append_nil _).symm
    · rw [plain_node, ann_node, kind_node, hstep]

theorem Through.lowersScope {path : List Cell} {e e' : Unit × List Diagnostic}
    {ts ts' : List (Tree Label)} (h : Through LowersScope path e ts e' ts') :
    e' = (e.1, e.2 ++ ts.flatMap fun t => t.plain.hoisted (outlines path)) ∧
      ts'.map plain = ts.map fun t => rebuild scopeStep t.plain := by
  induction h with
  | nil => simp
  | cons head _ ih =>
    refine ⟨?_, by rw [List.map_cons, List.map_cons, head.2, ih.2]⟩
    rw [ih.1, head.1, List.flatMap_cons, List.append_assoc]

theorem acts_blockScope :
    Lowering.blockScope.Acts EntersScope (Reworks fun _ k => k) LowersScope reach where
  start _ := rfl
  finish _ _ := rfl
  enter := blockScope_enter_does
  leave := Hook.pass_does
  need_lt := by
    rintro path e ⟨a, k⟩ e' ⟨b, k'⟩ ⟨-, hplain⟩
    refine reach_lt_of_plain hplain fun c hc => ?_
    rw [Construct.children_scopeStep] at hc
    rw [← node_ann_kind (node a k).plain]
    exact reach_lt_of_mem_children _ hc
  node := by
    rintro path e ⟨a, k⟩ e₁ b k' e₂ f e₃ ⟨a₃, k₃⟩ ⟨rfl, hplain⟩ hthrough - ⟨rfl, hplain₃⟩
    obtain ⟨hann, hkind⟩ := plain_eq_node hplain
    obtain ⟨hann₃, hkind₃⟩ := plain_eq_node hplain₃
    obtain ⟨rfl, hchildren⟩ := hthrough.lowersScope
    refine ⟨?_, ?_⟩
    · rw [plain_node, ann_node, kind_node] at hkind
      have hlist : k'.children.map plain = (k.map plain).children := by
        rw [← Kind.children_map, hkind, Construct.children_scopeStep]
      have houtline : (cell b k').2.kind.outline = (scopeStep a.2 false (k.map plain)).outline := by
        rw [← hkind, Kind.outline, Kind.outline, cell, Kind.map_map, Kind.map_map]
      have habove : ∀ t : Tree Span, t.hoisted (outlines (cell b k' :: path))
          = t.hoisted ((k.map plain).outline :: outlines path) := by
        intro t
        rw [outlines, List.map_cons, houtline]
        refine hoisted_congr ?_ ?_ t <;> cases k.map plain <;> rfl
      rw [plain_node, warning?, hoisted_node, ← hlist, List.flatMap_map]
      simp only [habove, List.append_assoc]
    · rw [plain_node, hann₃, hkind₃, plain_node, ann_node, kind_node,
        map_plain_of_children hchildren, hkind, hann, plain_node, rebuild_node]
      exact congrArg (node a.2) (by cases k <;> rfl)

/-! ## Arrow functions -/

/-- Of the nodes on a path, the arrow functions below the nearest other function. -/
def arrowsOn : List Cell → List NodeId
  | [] => []
  | c :: path =>
    match c.2.kind with
    | .arrowFunction .. => c.1 :: arrowsOn path
    | k => if k.isFunction then [] else arrowsOn path

theorem arrowsOn_subset (path : List Cell) : arrowsOn path ⊆ path.map Prod.fst := by
  induction path with
  | nil => exact List.Subset.refl _
  | cons c path ih =>
    have htail : arrowsOn path ⊆ (c :: path).map Prod.fst := fun n hn => List.mem_cons_of_mem _ (ih hn)
    unfold arrowsOn
    split
    · exact List.cons_subset.mpr ⟨List.mem_cons_self, htail⟩
    · split
      · exact List.nil_subset _
      · exact htail

theorem arrowsAround_path {s : Store} {path : List Cell} (h : ∀ c ∈ path, s.node c.1 = c.2) :
    Lowering.arrowsAround s (path.map Prod.fst) = arrowsOn path := by
  induction path with
  | nil => rfl
  | cons c path ih =>
    rw [List.forall_mem_cons] at h
    have hkind : s.kind c.1 = c.2.kind := congrArg Node.kind h.1
    rw [List.map_cons, Lowering.arrowsAround, hkind, ih h.2]
    cases hk : c.2.kind <;> simp only [arrowsOn, hk]

/-- The arrow functions that a node itself is in need of. -/
def arrowsFor (path : List Cell) : Kind (Tree Label) → List NodeId
  | .this => arrowsOn path
  | _ => []

theorem arrowsFor_subset (path : List Cell) (k : Kind (Tree Label)) :
    arrowsFor path k ⊆ arrowsOn path := by
  cases k <;> first | exact List.Subset.refl _ | exact List.nil_subset _

/-- The arrow functions on a path that a tree is in need of are those that one of its nodes is. -/
theorem mem_arrowsFor_or {a : Label} {k : Kind (Tree Label)} {path : List Cell} {n : NodeId}
    (hn : n ≠ a.1) :
    (n ∈ arrowsFor path k ∨
        k.children.any (·.plain.usesThis) = true ∧ n ∈ arrowsOn (cell a k :: path)) ↔
      (node a k).plain.usesThis = true ∧ n ∈ arrowsOn path := by
  rw [plain_node, usesThis_node, Kind.map_map]
  cases k with
  | this => simp [arrowsFor, thisUsed, Kind.map, Kind.children]
  | arrowFunction params body =>
    simp [arrowsFor, arrowsOn, cell, Kind.map, Kind.children, thisUsed, hn]
  | functionDeclaration | functionExpression =>
    simp [arrowsFor, arrowsOn, cell, Kind.map, Kind.isFunction, thisUsed]
  | _ =>
    simp [arrowsFor, arrowsOn, cell, Kind.map, Kind.children, Kind.isFunction, thisUsed]

/-- At a `this`, the arrow functions it passes through are noted. -/
def EntersArrow : Effect (List NodeId) :=
  fun path e t e' t' => t' = t ∧ e'.2 = e.2 ∧ e'.1 = arrowsFor path t.kind ++ e.1

/-- An arrow function that has been noted is bound. -/
def LeavesArrow : Effect (List NodeId) :=
  fun _ e t e' t' => e' = e ∧
    ∃ k', Unarrows t.ann (e.1.contains t.number) t.kind k' ∧ t' = node t.ann k'

/-- One tree comes of another by lowering its arrow functions, nested ones first. All other nodes keep
their numbers, and so does an arrow function. -/
inductive ArrowsLowered : Tree Label → Tree Label → Prop
  | node {a : Label} {k k' : Kind (Tree Label)} (f : Tree Label → Tree Label)
    (children : ∀ c ∈ k.children, ArrowsLowered c (f c)) (ann : ∀ c ∈ k.children, (f c).ann = c.ann)
    (unarrows : Unarrows a (k.children.any (·.plain.usesThis)) (k.map f) k') :
    ArrowsLowered (node a k) (node a k')

theorem ArrowsLowered.plain {t t' : Tree Label} (h : ArrowsLowered t t') :
    t'.plain = rebuild arrowStep t.plain := by
  induction h with
  | @node a k k' f children ann unarrows ih =>
    have hchildren : (k.map f).map Tree.plain = (k.map Tree.plain).map (rebuild arrowStep) := by
      rw [Kind.map_map, Kind.map_map]
      exact Kind.map_congr ih
    rw [plain_node, unarrows.plain, hchildren, plain_node, rebuild_node, Kind.children_map,
      List.any_map]
    rfl

/-- The nodes of a tree. -/
def numbers (t : Tree Label) : Multiset NodeId :=
  t.cells.map Prod.fst

/-- Arrow functions are lowered. Outside of the tree, those are noted that a `this` in it passes
through. -/
def LowersArrow : Effect (List NodeId) :=
  fun path e t e' t' =>
    (numbers t + (path.map Prod.fst : List NodeId)).Nodup → (∀ n ∈ numbers t, n ∉ e.1) →
      e'.2 = e.2 ∧ ArrowsLowered t t' ∧
        ∀ n ∉ numbers t, (n ∈ e'.1 ↔ n ∈ e.1 ∨ t.plain.usesThis = true ∧ n ∈ arrowsOn path)

theorem arrows_enter_does : Lowering.arrows.enter.Does EntersArrow := by
  rintro path frame m cx ⟨a, k⟩ hs
  have hkind : m.tree.kind a.1 = k.map number := congrArg Node.kind hs.node
  have harrows : Lowering.arrowsAround m.tree (m.ancestors a.1) = arrowsOn path := by
    rw [show m.ancestors a.1 = _ from hs.ancestors, arrowsAround_path hs.node_path]
  cases k with
  | this =>
    refine ⟨m.toDraft, List.append (arrowsOn path) cx, _, ?_, hs.owns, rfl, rfl, rfl, rfl, rfl⟩
    simp only [Lowering.arrows, number_node, hkind, Kind.map, harrows]
    rfl
  | _ =>
    refine ⟨m.toDraft, cx, _, ?_, hs.owns, rfl, rfl, rfl, rfl, rfl⟩
    simp only [Lowering.arrows, number_node, hkind, Kind.map]

theorem arrows_leave_does : Lowering.arrows.leave.Does LeavesArrow := by
  rintro path frame m cx ⟨a, k⟩ hs
  obtain ⟨draft, k', hhook, howns, hroot, hdiagnostics, hunarrows⟩ :=
    (turns_lowerArrow cx a k).does hs cx
  exact ⟨draft, cx, node a k', hhook, howns, rfl, hroot, by rw [hdiagnostics], k', hunarrows, rfl⟩

theorem Through.lowersArrow {path : List Cell} {e e' : List NodeId × List Diagnostic}
    {ts ts' : List (Tree Label)} (h : Through LowersArrow path e ts e' ts')
    (hnodup : ((forest ts).map Prod.fst + (path.map Prod.fst : List NodeId)).Nodup)
    (hnew : ∀ n ∈ (forest ts).map Prod.fst, n ∉ e.1) :
    e'.2 = e.2 ∧ List.Forall₂ ArrowsLowered ts ts' ∧
      ∀ n ∉ (forest ts).map Prod.fst,
        (n ∈ e'.1 ↔ n ∈ e.1 ∨ ts.any (·.plain.usesThis) = true ∧ n ∈ arrowsOn path) := by
  induction h with
  | nil => simp
  | @cons e e' e'' t t' ts ts' head tail ih =>
    rw [forest_cons, Multiset.map_add] at hnodup hnew ⊢
    obtain ⟨hhead, hrest, hdisjoint⟩ := Multiset.nodup_add.mp (add_assoc (numbers t) _ _ ▸ hnodup)
    have hnot : ∀ n ∈ (forest ts).map Prod.fst, n ∉ numbers t ∧ n ∉ arrowsOn path := by
      intro n hn
      refine ⟨fun ht => Multiset.disjoint_left.mp hdisjoint ht (Multiset.mem_add.mpr (.inl hn)),
        fun hp => ?_⟩
      exact Multiset.disjoint_left.mp (Multiset.nodup_add.mp hrest).2.2 hn
        (Multiset.mem_coe.mpr (arrowsOn_subset path hp))
    obtain ⟨hdiag, hlowered, hmem⟩ := head
      (Multiset.nodup_of_le (by rw [add_right_comm]; exact Multiset.le_add_right _ _) hnodup)
      fun n hn => hnew n (Multiset.mem_add.mpr (.inl hn))
    obtain ⟨hdiag', hall, hmem'⟩ := ih hrest fun n hn => by
      obtain ⟨ht, hp⟩ := hnot n hn
      rw [hmem n ht]
      exact fun h => h.elim (hnew n (Multiset.mem_add.mpr (.inr hn))) fun h => hp h.2
    refine ⟨hdiag'.trans hdiag, .cons hlowered hall, fun n hn => ?_⟩
    rw [Multiset.mem_add, not_or] at hn
    rw [hmem' n hn.2, hmem n hn.1, List.any_cons, Bool.or_eq_true]
    tauto

theorem acts_arrows : Lowering.arrows.Acts EntersArrow LeavesArrow LowersArrow reach where
  start _ := rfl
  finish _ _ := rfl
  enter := arrows_enter_does
  leave := arrows_leave_does
  need_lt := by
    rintro path e ⟨a, k⟩ e' _ ⟨rfl, -⟩ c hc
    exact reach_lt_of_mem_children a hc
  node := by
    rintro path e t e₁ a k e₂ f e₃ _ ⟨rfl, hdiag, hnoted⟩ hthrough hann ⟨rfl, k₃, hunarrows, rfl⟩ hnodup
      hnew
    have hnumbers : numbers (node a k) = a.1 ::ₘ (forest k.children).map Prod.fst := by
      rw [numbers, cells_node, Multiset.map_cons]
      rfl
    rw [hnumbers] at hnodup hnew ⊢
    rw [kind_node] at hnoted
    have hnodup' : ((forest k.children).map Prod.fst
        + (((cell a k :: path).map Prod.fst : List NodeId) : Multiset NodeId)).Nodup := by
      rw [List.map_cons, ← Multiset.cons_coe, Multiset.add_cons, ← Multiset.cons_add]
      exact hnodup
    have hroot : a.1 ∉ (forest k.children).map Prod.fst :=
      fun h => (Multiset.nodup_cons.mp (Multiset.cons_add _ _ _ ▸ hnodup)).1
        (Multiset.mem_add.mpr (.inl h))
    obtain ⟨hdiag', hchildren, hmem⟩ := hthrough.lowersArrow hnodup' fun n hn => by
      rw [hnoted, List.mem_append, not_or]
      refine ⟨fun h => ?_, hnew n (Multiset.mem_cons_of_mem hn)⟩
      exact Multiset.disjoint_left.mp (Multiset.nodup_add.mp hnodup).2.2
        (Multiset.mem_cons_of_mem hn)
        (Multiset.mem_coe.mpr (arrowsOn_subset path (arrowsFor_subset path k h)))
    have hlowered : ∀ c ∈ k.children, ArrowsLowered c (f c) := by
      rw [List.forall₂_map_right_iff, List.forall₂_same] at hchildren
      exact hchildren
    refine ⟨hdiag'.trans hdiag, .node f hlowered hann ?_, fun n hn => ?_⟩
    · cases k with
      | arrowFunction params body =>
        -- The function itself is noted exactly if one of its parts needs it.
        have hbound : e₃.1.contains a.1
            = (Kind.arrowFunction params body).children.any (·.plain.usesThis) := by
          refine Bool.eq_iff_iff.mpr (List.contains_iff_mem.trans ((hmem a.1 hroot).trans ?_))
          rw [hnoted]
          simp [arrowsFor, arrowsOn, cell, Kind.map, hnew a.1 (Multiset.mem_cons_self _ _)]
        rw [← hbound]
        exact hunarrows
      | _ =>
        cases hunarrows
        exact .other fun _ _ h => by cases h
    · rw [Multiset.mem_cons, not_or] at hn
      rw [hmem n hn.2, hnoted, List.mem_append, ← mem_arrowsFor_or hn.1]
      tauto

/-! ## Whole passes -/

/-- The pass of a plugin runs to its end on every stored tree, leaves what `f` makes of the tree, and
reports what `reports` says. -/
def Plugin.Lowers (p : Plugin) (f : Tree Span → Tree Span) (reports : Tree Span → List Diagnostic) :
    Prop :=
  ∀ (m : Module) (t : Tree Label), m.tree.Holds t → ∃ walked m' t', p.run m = (.ok walked, m') ∧
    m'.tree.Holds t' ∧ t'.plain = f t.plain ∧ m'.diagnostics = m.diagnostics ++ reports t.plain

theorem reach_lt_depthLimit {s : Store} {t : Tree Label} (h : s.Holds t) :
    t.reach < Plugin.depthLimit s := by
  have hreach := t.reach_le_height
  have hheight := h.height_le
  unfold Plugin.depthLimit
  omega

theorem Plugin.Acts.lowers {p : Plugin} {E L : Effect p.Context} {step : Step Span}
    (h : p.Acts E L (Rebuilds step) reach) : p.Lowers (rebuild step) fun _ => [] := by
  intro m t ht
  obtain ⟨walked, m', t', cx, hrun, hholds, heffects, hplain⟩ := h.run ht (reach_lt_depthLimit ht)
  refine ⟨walked, m', t', hrun, hholds, hplain, ?_⟩
  rw [List.append_nil]
  exact congrArg Prod.snd heffects

theorem lowers_blockScope : Lowering.blockScope.Lowers (rebuild scopeStep) (hoisted []) := by
  intro m t ht
  obtain ⟨walked, m', t', cx, hrun, hholds, heffects, hplain⟩ :=
    acts_blockScope.run ht (reach_lt_depthLimit ht)
  exact ⟨walked, m', t', hrun, hholds, hplain, congrArg Prod.snd heffects⟩

theorem run_arrows {m : Module} {t : Tree Label} (ht : m.tree.Holds t) :
    ∃ walked m' t', Lowering.arrows.run m = (.ok walked, m') ∧ m'.tree.Holds t' ∧ ArrowsLowered t t' ∧
      m'.diagnostics = m.diagnostics := by
  obtain ⟨walked, m', t', cx, hrun, hholds, hQ⟩ := acts_arrows.run ht (reach_lt_depthLimit ht)
  obtain ⟨hdiag, hlowered, -⟩ :=
    hQ (by simpa [numbers] using ht.2.nodup) (by intro n _; exact List.not_mem_nil)
  exact ⟨walked, m', t', hrun, hholds, hlowered, hdiag⟩

theorem lowers_arrows : Lowering.arrows.Lowers (rebuild arrowStep) fun _ => [] := by
  intro m t ht
  obtain ⟨walked, m', t', hrun, hholds, hlowered, hdiag⟩ := run_arrows ht
  exact ⟨walked, m', t', hrun, hholds, hlowered.plain, by rw [List.append_nil, hdiag]⟩

namespace Construct

def plugin : Construct → Plugin
  | arrowFunction => Lowering.arrows
  | conciseMethod => Lowering.conciseMethods
  | defaultParam => Lowering.defaultParams
  | restParam => Lowering.restParams
  | shorthandProperty => Lowering.shorthandProperties
  | templateLiteral => Lowering.templateLiterals
  | powerOperator => Lowering.exponentOperator
  | blockScope => Lowering.blockScope

/-- What the pass for a construct reports about a tree. -/
def reports : Construct → Tree Span → List Diagnostic
  | blockScope, t => t.hoisted []
  | _, _ => []

/-- The pass for a construct lowers it everywhere. -/
theorem lowers (c : Construct) : c.plugin.Lowers (rebuild c.step) c.reports := by
  cases c with
  | arrowFunction => exact lowers_arrows
  | blockScope => exact lowers_blockScope
  | conciseMethod =>
    refine (Plugin.acts_of_reworks (fun _ => rfl) (fun _ _ => rfl) rewrites_lowerConcise.does
      Hook.pass_does (fun a k c hc => ?_) fun a bound k => ?_).lowers
    · cases k <;> exact reach_lt_of_mem_children a hc
    · cases k <;> rfl
  | shorthandProperty =>
    refine (Plugin.acts_of_reworks (fun _ => rfl) (fun _ _ => rfl) rewrites_lowerShorthand.does
      Hook.pass_does (fun a k c hc => ?_) fun a bound k => ?_).lowers
    · cases k <;> exact reach_lt_of_mem_children a hc
    · cases k <;> rfl
  | defaultParam =>
    exact (Plugin.acts_of_reworks (fun _ => rfl) (fun _ _ => rfl) rewrites_lowerDefaults.does
      Hook.pass_does (fun a _ _ hc => reach_lt_of_mem_defaultStep a false hc)
      fun a bound k => (defaultParam.mild.defaultStep_map a bound k).symm).lowers
  | restParam =>
    refine (Plugin.acts_of_reworks (fun _ => rfl) (fun _ _ => rfl) rewrites_lowerRest.does
      Hook.pass_does (fun a _ _ hc => reach_lt_of_mem_restStep a false hc)
      fun a bound k => (restParam.mild.restStep_map a false k).symm.trans ?_).lowers
    cases k <;> rfl
  | templateLiteral =>
    refine (Plugin.acts_of_reworks (fun _ => rfl) (fun _ _ => rfl) Hook.pass_does
      rewrites_lowerTemplate.does (fun a _ _ hc => reach_lt_of_mem_children a hc)
      fun a bound k => ?_).lowers
    cases k <;> rfl
  | powerOperator =>
    refine (Plugin.acts_of_reworks (fun _ => rfl) (fun _ _ => rfl) Hook.pass_does
      rewrites_lowerPower.does (fun a _ _ hc => reach_lt_of_mem_children a hc)
      fun a bound k => ?_).lowers
    cases k with
    | binary op => cases op <;> rfl
    | _ => rfl

end Construct

end Downlevel
