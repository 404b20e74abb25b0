import Downlevel.Lowering.Catalog
import Downlevel.Proofs.Action
import Downlevel.Proofs.Lower

/-!
# Lowerings in place

Each lowering changes a stored tree node by node. What it does at a node, by new nodes and by making
nodes something else, is what its step does to the tree at that node.
-/

namespace Downlevel

open Downlevel.Tree

/-! ## New nodes -/

theorem makes_identifier (name : String) (span : Span) :
    Makes 0 (Lowering.identifier name span) (.node span (.identifier name)) :=
  makes_alloc (.identifier name) span

theorem makes_member (u : Tree Label) (name : String) (span : Span) :
    Makes (forest [u]) (Lowering.member u.number name span) (.node span (.member u.plain name)) :=
  makes_alloc (.member u name) span

theorem makes_nullCheck (name : String) (fallback : Tree Label) (span : Span) :
    Makes fallback.cells (Lowering.nullCheck name fallback.number span)
      (nullCheck span name fallback.plain) := by
  refine (makes_identifier name span).bind _ (zero_add _).symm fun left hleft => ?_
  refine (makes_alloc .null span).bind _ (zero_add _).symm fun right hright => ?_
  refine (makes_alloc (.binary .equal left right) span).bind fallback.cells ?_ fun test htest => ?_
  · simp only [Kind.children, forest_cons, forest_nil]
    abel
  refine (makes_identifier name span).bind _ (zero_add _).symm fun target htarget => ?_
  refine (makes_alloc (.assign target fallback) span).bind test.cells ?_ fun assign hassign => ?_
  · simp only [Kind.children, forest_cons, forest_nil]
    abel
  refine (makes_alloc (.expressionStatement assign) span).bind test.cells ?_ fun st hst => ?_
  · simp [Kind.children]
  refine (makes_alloc (.block [st]) span).bind test.cells ?_ fun block hblock => ?_
  · simp [Kind.children]
  refine (makes_alloc (.ifStatement test block none) span).cast ?_ ?_
  · simp [Kind.children, add_comm]
  · simp [nullCheck, Kind.map, htest, hblock, hst, hassign, htarget, hleft, hright]

theorem makes_sliceArguments (name : String) (index : Nat) (span : Span) :
    Makes 0 (Lowering.sliceArguments name index span) (sliceArguments span name index) := by
  refine (makes_identifier "Array" span).bind 0 (add_zero 0).symm fun array harray => ?_
  refine (makes_member array "prototype" span).bind 0 (by simp) fun prototype hprototype => ?_
  refine (makes_member prototype "slice" span).bind 0 (by simp) fun slice hslice => ?_
  refine (makes_member slice "call" span).bind 0 (by simp) fun callee hcallee => ?_
  refine (makes_identifier "arguments" span).bind _ (zero_add _).symm fun arguments harguments => ?_
  refine (makes_alloc (.number (toString index)) span).bind _ (zero_add _).symm fun start hstart => ?_
  refine (makes_alloc (.call callee [arguments, start]) span).bind 0 ?_ fun init hinit => ?_
  · simp only [Kind.children, forest_cons, forest_nil]
    abel
  refine (makes_alloc (.declarator name (some init)) span).bind 0 (by simp [Kind.children])
    fun declarator hdeclarator => ?_
  refine (makes_alloc (.declaration .var [declarator]) span).cast (by simp [Kind.children]) ?_
  simp [sliceArguments, Kind.map, hdeclarator, hinit, hcallee, hslice, hprototype, harray,
    harguments, hstart]

/-- The block that a function body becomes: the body itself, or a new one that returns its value. -/
inductive Encloses (body : Tree Label) : Tree Label → Prop
  | self (h : body.kind.isBlock = true) : Encloses body body
  | new (h : body.kind.isBlock = false) (block result : NodeId) :
    Encloses body (.node (block, body.ann.2)
      (.block [.node (result, body.ann.2) (.returnStatement (some body))]))

theorem Encloses.plain {body block : Tree Label} (h : Encloses body block) :
    block.plain = ensureBlock body.plain := by
  cases h with
  | self h => rw [ensureBlock, if_pos (by rwa [kind_plain, Kind.isBlock_map])]
  | new h =>
    rw [ensureBlock, if_neg (by rw [kind_plain, Kind.isBlock_map, h]; simp)]
    simp [Kind.map]

theorem turns_encloses (body : Tree Label) :
    Turns body.cells (Lowering.ensureBlock body.number) fun id Y =>
      ∃ block, Encloses body block ∧ block.number = id ∧ block.cells = Y := by
  refine Turns.get fun s hs => ?_
  have hnode := Owns.node_tree hs le_rfl
  simp only [Store.kind, Store.span, hnode, Kind.isBlock_map]
  split
  · rename_i hblock
    exact .pure ⟨body, .self hblock, rfl, rfl⟩
  · rename_i hblock
    have hresult := turns_alloc (.returnStatement (some body)) body.ann.2
    have hargument : forest (Kind.returnStatement (some body)).children = body.cells := by
      simp [Kind.children]
    rw [hargument] at hresult
    refine hresult.bind' ?_
    rintro result _ rfl
    have hforest (inner : Tree Label) : forest (Kind.block [inner]).children = inner.cells := by
      simp [Kind.children]
    have hnew := turns_alloc (.block [.node (result, body.ann.2) (.returnStatement (some body))])
      body.ann.2
    rw [hforest] at hnew
    refine hnew.mono ?_
    rintro id _ rfl
    exact ⟨_, .new (by simpa using hblock) id result, rfl, rfl⟩

/-- The block for a function body is the body itself or a new node. -/
theorem turns_ensureBlock (body : Tree Label) :
    Turns body.cells (Lowering.ensureBlock body.number) fun id Y => ∃ b old,
      (Tree.node b (.block old)).plain = ensureBlock body.plain ∧ b.1 = id ∧
        (Tree.node b (.block old)).cells = Y ∧ (id = body.number → .node b (.block old) = body) := by
  refine (turns_encloses body).nodup.mono ?_
  rintro _ _ ⟨⟨block, hencloses, rfl, rfl⟩, hnodup⟩
  have hplain := hencloses.plain
  cases hencloses with
  | self h =>
    obtain ⟨b, k⟩ := body
    cases k with
    | block old => exact ⟨b, old, hplain, rfl, rfl, fun _ => rfl⟩
    | _ => cases h
  | new h block result =>
    refine ⟨_, _, hplain, rfl, rfl, fun hnumber => ?_⟩
    rw [cells_node, Multiset.map_cons, Multiset.nodup_cons] at hnodup
    have hmem := body.number_mem_cells
    rw [← hnumber] at hmem
    refine absurd ?_ hnodup.1
    have hle : body.cells ≤ forest (Kind.block
        [Tree.node (result, body.ann.2) (.returnStatement (some body))]).children := by
      simp only [Kind.children, Option.toList, forest_cons, forest_nil, add_zero, cells_node]
      exact Multiset.le_cons_self _ _
    exact Multiset.mem_of_le (Multiset.map_le_map hle) hmem

/-! ## Function bodies -/

section Function

variable {a : Label} {k : Kind (Tree Label)} {params : List (Tree Label)} {body : Tree Label}

theorem cells_function (h : k.signature? = some (params, body)) :
    (Tree.node a k).cells = {cell a k} + forest params + body.cells := by
  rw [cells_eq, Kind.children_of_signature h, forest_append, forest_cons, forest_nil, add_zero,
    add_assoc]

/-- A function is the same cell with another body of the same number. -/
theorem cell_withBody (h : k.signature? = some (params, body)) {body' : Tree Label}
    (hnumber : body'.number = body.number) : cell a (k.withBody body') = cell a k := by
  have hkind : (k.map number).withBody body.number = k.map number := by
    rw [← Kind.withBody_map, Kind.withBody_self h]
  rw [cell, cell, Kind.withBody_map, hnumber, hkind]

/-- A function is the same cell with other parameters of the same numbers. -/
theorem cell_withParams (h : k.signature? = some (params, body)) {params' : List (Tree Label)}
    (hnumber : params'.map number = params.map number) : cell a (k.withParams params') = cell a k := by
  have hkind : (k.map number).withParams (params.map number) = k.map number := by
    rw [← Kind.withParams_map, Kind.withParams_self h]
  rw [cell, cell, Kind.withParams_map, hnumber, hkind]

/-- Statements are put before those of a body that is a block. -/
theorem turns_prepend {b : Label} {old : List (Tree Label)}
    (h : k.signature? = some (params, .node b (.block old))) (statements : List (Tree Label)) :
    Turns ((Tree.node a k).cells + forest statements)
      (do
        match (← get).kind b.1 with
        | .block old => Lowering.replace b.1 (.block (statements.map number ++ old))
        | _ => return) fun _ Y =>
        (Tree.node a (k.withBody (.node b (.block (statements ++ old))))).cells = Y := by
  refine Turns.get fun s hs => ?_
  rw [cells_function h] at hs ⊢
  have hle : (Tree.node b (.block old)).cells
      ≤ {cell a k} + forest params + (Tree.node b (.block old)).cells + forest statements :=
    (Multiset.le_add_left _ _).trans (Multiset.le_add_right _ _)
  have hkind : s.kind b.1 = .block (old.map number) :=
    congrArg Node.kind (Owns.node_tree hs hle)
  rw [hkind]
  have hcell : cell a (k.withBody (.node b (.block (statements ++ old)))) = cell a k :=
    cell_withBody h rfl
  have hreplace := turns_replace (a := b) (.block old) (.block (statements ++ old))
    (Z := {cell a k} + forest params) rfl
  rw [Kind.map, List.map_append] at hreplace
  have hcells : {cell a k} + forest params + (Tree.node b (.block old)).cells + forest statements
      = {cell b (.block old)} + forest (Kind.block (statements ++ old)).children
        + ({cell a k} + forest params) := by
    simp only [cells_eq, Kind.children, forest_append]
    abel
  rw [hcells]
  refine hreplace.mono ?_
  rintro _ _ rfl
  rw [cells_function (Kind.signature?_withBody h _), hcell, add_comm]

theorem turns_prependToBody (h : k.signature? = some (params, body))
    {statements : List (Tree Label)} (hstatements : statements ≠ []) :
    Turns ((Tree.node a k).cells + forest statements)
      (Lowering.prependToBody a.1 (statements.map number)) fun _ Y =>
        ∃ k' : Kind (Tree Label), k'.map plain = (k.map plain).withBody
          (prepend (statements.map plain) body.plain) ∧ (Tree.node a k').cells = Y := by
  unfold Lowering.prependToBody
  refine Turns.get fun s hs => ?_
  have hkind : s.kind a.1 = k.map number :=
    congrArg Node.kind (Owns.node_tree hs (Multiset.le_add_right (Tree.node a k).cells _))
  rw [hkind, Kind.signature?_map, h]
  have hsplit : (Tree.node a k).cells + forest statements
      = body.cells + ({cell a k} + forest params + forest statements) := by
    rw [cells_function h]
    abel
  rw [hsplit]
  refine (turns_ensureBlock body).bind ?_
  rintro block _ ⟨b, old, hplain, rfl, rfl, hsame⟩
  -- What is made of the body, whether or not it was a block already.
  have hprepend : prepend (statements.map plain) body.plain
      = (Tree.node b (.block (statements ++ old))).plain := by
    rw [prepend, if_neg (by simpa using hstatements), ← hplain]
    simp [Kind.map]
  rw [hprepend]
  dsimp only
  split
  · -- The function gets the new block before the block gets the statements.
    refine Turns.get fun s hs => ?_
    have hfunction : s.kind a.1 = k.map number :=
      congrArg Node.kind (hs (cell a k) (by simp))
    let k' := k.withBody (.node b (.block old))
    have hsig : k'.signature? = some (params, .node b (.block old)) :=
      Kind.signature?_withBody h _
    have hcells : (Tree.node b (.block old)).cells
          + ({cell a k} + forest params + forest statements)
        = {cell a k} + forest k'.children + forest statements := by
      rw [Kind.children_of_signature hsig, forest_append, forest_cons, forest_nil]
      abel
    have hreplace := turns_replace k k' hcells
    rw [Kind.withBody_map, ← hfunction] at hreplace
    refine hreplace.bind' ?_
    rintro _ _ rfl
    refine (turns_prepend hsig statements).mono ?_
    rintro _ _ rfl
    refine ⟨_, ?_, rfl⟩
    rw [Kind.withBody_map, Kind.withBody_map, Kind.withBody_withBody]
  · rename_i heq
    obtain rfl := hsame (by simpa using heq)
    rw [← hsplit]
    refine (turns_prepend h statements).mono ?_
    rintro _ _ rfl
    exact ⟨_, Kind.withBody_map _ _ _, rfl⟩

end Function

/-! ## Parameters -/

/-- The parameters without their defaults, under the same numbers, and the checks for the defaults. -/
def Parted (params : List (Tree Label)) (ids : List NodeId) (Y : Multiset Cell) : Prop :=
  ∃ params' checks : List (Tree Label), params'.map number = params.map number ∧
    params'.map plain = (params.map plain).map withoutDefault ∧
    checks.map plain = defaultChecks (params.map plain) ∧ checks.map number = ids ∧
    forest params' + forest checks = Y

section Parted

variable {params : List (Tree Label)} {ids : List NodeId} {Y : Multiset Cell}

theorem Parted.keep (h : Parted params ids Y) {p : Tree Label}
    (hcheck : defaultCheck? p.plain = none) (hp : withoutDefault p.plain = p.plain) :
    Parted (p :: params) ids (Y + p.cells) := by
  obtain ⟨params', checks, hnumber, hplain, hchecks, hids, rfl⟩ := h
  refine ⟨p :: params', checks, ?_, ?_, ?_, hids, ?_⟩
  · rw [List.map_cons, List.map_cons, hnumber]
  · rw [List.map_cons, hplain, List.map_cons, List.map_cons, hp]
  · rw [hchecks, List.map_cons, defaultChecks, defaultChecks, List.filterMap_cons, hcheck]
  · rw [forest_cons]
    abel

theorem Parted.take (h : Parted params ids Y) {b : Label} {name : String} {rest : Bool}
    {fallback check : Tree Label} (hcheck : check.plain = nullCheck b.2 name fallback.plain) :
    Parted (.node b (.param name (some fallback) rest) :: params) (check.number :: ids)
      (Y + (check.cells + (Tree.node b (.param name none rest)).cells)) := by
  obtain ⟨params', checks, hnumber, hplain, hchecks, rfl, rfl⟩ := h
  refine ⟨.node b (.param name none rest) :: params', check :: checks, ?_, ?_, ?_, rfl, ?_⟩
  · rw [List.map_cons, List.map_cons, hnumber]
    rfl
  · simp [hplain, Kind.map, withoutDefault]
  · simp [hchecks, hcheck, Kind.map, defaultChecks, defaultCheck?]
  · rw [forest_cons, forest_cons]
    abel

end Parted

/-- Taking off the defaults leaves the parameters under their numbers. -/
theorem turns_takeDefaults (params : List (Tree Label)) :
    Turns (forest params) (Lowering.takeDefaults (params.map number)) (Parted params) := by
  induction params with
  | nil => exact .pure ⟨[], [], rfl, rfl, rfl, rfl, rfl⟩
  | cons p params ih =>
    obtain ⟨b, k⟩ := p
    unfold Lowering.takeDefaults
    rw [List.map_cons, forest_cons]
    refine Turns.get fun s hs => ?_
    have hnode := Owns.node_tree hs (Multiset.le_add_right (Tree.node b k).cells _)
    have hkind : s.kind (Tree.node b k).number = k.map number := congrArg Node.kind hnode
    have hspan : s.span (Tree.node b k).number = b.2 := congrArg Node.span hnode
    rw [hkind, hspan]
    have hkeep (hcheck : defaultCheck? (Tree.node b k).plain = none)
        (hp : withoutDefault (Tree.node b k).plain = (Tree.node b k).plain) :
        Turns ((Tree.node b k).cells + forest params)
          (Lowering.takeDefaults (params.map number)) (Parted (.node b k :: params)) := by
      rw [add_comm]
      refine (ih.frame _).mono ?_
      rintro _ _ ⟨_, h, rfl⟩
      exact h.keep hcheck hp
    cases k with
    | param name fallback rest =>
      cases fallback with
      | none => exact hkeep (by simp [Kind.map, defaultCheck?]) (by simp [Kind.map, withoutDefault])
      | some fallback =>
        let stripped : Kind (Tree Label) := .param name none rest
        refine (turns_replace (a := b) (.param name (some fallback) rest) stripped
          (Z := fallback.cells + forest params) ?_).bind' ?_
        · simp only [stripped, cells_eq, Kind.children, Option.toList_some, Option.toList_none,
            forest_cons, forest_nil]
          abel
        rintro _ _ rfl
        refine (makes_nullCheck name fallback b.2).bind
          ((Tree.node b stripped).cells + forest params) (by abel) fun check hcheck => ?_
        rw [← add_assoc, add_comm]
        refine (ih.frame _).bind' ?_
        rintro _ _ ⟨_, h, rfl⟩
        exact .pure (h.take hcheck)
    | _ => exact hkeep (by simp [Kind.map, defaultCheck?]) (by simp [Kind.map, withoutDefault])

/-- The defaults of a function are moved into its body. -/
theorem rewrites_lowerDefaults :
    Rewrites Lowering.lowerDefaults fun span => defaultStep span false := by
  intro a k
  unfold Lowering.lowerDefaults
  refine Remakes.get fun s hnode _ => ?_
  rw [Store.kind, hnode, Kind.signature?_map]
  cases hsig : k.signature? with
  | none =>
    refine Remakes.pure.cast (defaultStep_of_none ?_).symm
    rw [Kind.signature?_map, hsig]
    rfl
  | some signature =>
    obtain ⟨params, body⟩ := signature
    have hplain : (k.map plain).signature? = some (params.map plain, body.plain) := by
      rw [Kind.signature?_map, hsig]
      rfl
    refine Remakes.cast ?_ (defaultStep_of_signature hplain).symm
    have hcells : (Tree.node a k).cells = forest params + ({cell a k} + body.cells) := by
      rw [cells_function hsig]
      abel
    rw [Remakes, hcells]
    refine (turns_takeDefaults params).bind ?_
    rintro _ _ ⟨params', checks, hnumber, hparams, hchecks, rfl, rfl⟩
    -- The function is the same cell, since the parameters keep their numbers.
    let k' := k.withParams params'
    have hsig' : k'.signature? = some (params', body) := Kind.signature?_withParams hsig _
    have hcell : cell a k' = cell a k := cell_withParams hsig hnumber
    have hmap : k'.map plain = (k.map plain).withParams ((params.map plain).map withoutDefault) := by
      rw [Kind.withParams_map, hparams]
    have hcells' : forest params' + forest checks + ({cell a k} + body.cells)
        = (Tree.node a k').cells + forest checks := by
      rw [cells_function hsig', hcell]
      abel
    rw [hcells', ← hchecks, ← hmap]
    cases checks with
    | nil =>
      have hbody : (k'.map plain).signature? = some (params'.map plain, body.plain) := by
        rw [Kind.signature?_map, hsig']
        rfl
      exact .pure ⟨k', (Kind.withBody_self hbody).symm, (add_zero _).symm⟩
    | cons check checks => exact turns_prependToBody hsig' (List.cons_ne_nil check checks)

theorem rest?_plain (t : Tree Label) :
    rest? t.plain = (Lowering.restName? (t.kind.map number)).map fun name => (t.ann.2, name) := by
  obtain ⟨b, k⟩ := t
  cases k with
  | param name fallback rest => cases rest <;> simp [Kind.map, rest?, Lowering.restName?]
  | _ => simp [Kind.map, rest?, Lowering.restName?]

/-- The rest parameter of a function is declared in its body. -/
theorem turns_takeRest {a : Label} {k : Kind (Tree Label)} {params : List (Tree Label)}
    {last body : Tree Label} (h : k.signature? = some (params ++ [last], body)) (name : String) :
    Remakes a k
      (do
        Lowering.replace a.1 ((k.map number).withParams (params.map number))
        let declaration ← Lowering.sliceArguments name (params.map number).length last.ann.2
        Lowering.prependToBody a.1 [declaration])
      (((k.map plain).withParams (params.map plain)).withBody
        (prepend [sliceArguments last.ann.2 name params.length] body.plain)) := by
  let k' := k.withParams params
  have hsig : k'.signature? = some (params, body) := Kind.signature?_withParams h _
  have hcells : (Tree.node a k).cells = {cell a k} + forest k'.children + 0 + last.cells := by
    rw [cells_function h, Kind.children_of_signature hsig]
    simp only [forest_append, forest_cons, forest_nil]
    abel
  rw [Remakes, hcells]
  refine Turns.drop ?_ _
  rw [← Kind.withParams_map]
  refine (turns_replace k k' rfl).bind' ?_
  rintro _ _ rfl
  refine (makes_sliceArguments name _ _).bind (Tree.node a k').cells (add_comm _ _) fun declaration hdecl => ?_
  rw [add_comm, List.length_map] at *
  have hprepend := turns_prependToBody (a := a) hsig (List.cons_ne_nil declaration [])
  rw [List.map_singleton, List.map_singleton, hdecl, Kind.withParams_map, forest_cons, forest_nil,
    add_zero] at hprepend
  exact hprepend

theorem rewrites_lowerRest : Rewrites Lowering.lowerRest fun span => restStep span false := by
  intro a k
  unfold Lowering.lowerRest
  refine Remakes.get fun s hnode hchildren => ?_
  have hkind : s.kind a.1 = k.map number := congrArg Node.kind hnode
  rw [hkind]
  cases k with
  | functionDeclaration fname params body | functionExpression fname params body =>
    rcases List.eq_nil_or_concat params with rfl | ⟨params, last, rfl⟩
    · exact .pure
    · have hlast := hchildren last (by simp [Kind.children])
      have hrest := rest?_plain last
      generalize last.kind.map number = lastKind at hlast hrest
      simp only [Kind.map, Kind.signature?, List.concat_eq_append, List.map_append, List.map_cons,
        List.map_nil, List.getLast?_concat, List.dropLast_concat, Store.kind, Store.span, hlast]
      cases hname : Lowering.restName? lastKind with
      | none =>
        rw [hname] at hrest
        refine Remakes.pure.cast ?_
        simp [restStep, Kind.map, Kind.signature?, Kind.withParams, Kind.withBody, withoutRest,
          restDeclaration, lastRest?_concat, hrest, prepend]
      | some name =>
        rw [hname] at hrest
        refine (turns_takeRest rfl name).cast ?_
        simp [restStep, Kind.map, Kind.signature?, Kind.withParams, Kind.withBody, withoutRest,
          restDeclaration, lastRest?_concat, hrest]
  | _ => exact .pure

/-! ## Arrow functions -/

/-- What becomes of a node when arrow functions are lowered, with the numbers of the new nodes: an arrow
function becomes a function, or the function bound to the surrounding `this`. -/
inductive Unarrows (a : Label) (bound : Bool) : Kind (Tree Label) → Kind (Tree Label) → Prop
  | function {params : List (Tree Label)} {body block : Tree Label} (hbound : bound = false)
    (hblock : Encloses body block) :
    Unarrows a bound (.arrowFunction params body) (.functionExpression none params block)
  | bind {params : List (Tree Label)} {body block : Tree Label} (hbound : bound = true)
    (hblock : Encloses body block) (function callee this : NodeId) :
    Unarrows a bound (.arrowFunction params body) (.call (.node (callee, a.2) (.member
      (.node (function, a.2) (.functionExpression none params block)) "bind")) [.node (this, a.2) .this])
  | other {k : Kind (Tree Label)} (h : ∀ params body, k ≠ .arrowFunction params body) :
    Unarrows a bound k k

theorem Unarrows.plain {a : Label} {bound : Bool} {k k' : Kind (Tree Label)} (h : Unarrows a bound k k') :
    k'.map plain = arrowStep a.2 bound (k.map plain) := by
  cases h with
  | function hbound hblock => simp [arrowStep, bindThis, Kind.map, hbound, hblock.plain]
  | bind hbound hblock => simp [arrowStep, bindThis, Kind.map, hbound, hblock.plain]
  | other h =>
    cases k with
    | arrowFunction params body => exact absurd rfl (h params body)
    | _ => rfl

/-- An arrow function becomes a function, bound to the surrounding `this` if it is among those that
use it. -/
theorem turns_lowerArrow (bound : List NodeId) (a : Label) (k : Kind (Tree Label)) :
    Turns (Tree.node a k).cells (Lowering.lowerArrow bound a.1) fun _ Y =>
      ∃ k', Unarrows a (bound.contains a.1) k k' ∧ (Tree.node a k').cells = Y := by
  unfold Lowering.lowerArrow
  refine Turns.get fun s hs => ?_
  have hnode : s.node a.1 = ⟨k.map number, a.2⟩ := hs (cell a k) (by simp)
  rw [Store.kind, Store.span, hnode]
  cases k with
  | arrowFunction params body =>
    have hcells : (Tree.node a (.arrowFunction params body)).cells
        = body.cells + ({cell a (.arrowFunction params body)} + forest params) := by
      rw [cells_function rfl]
      abel
    rw [hcells]
    refine (turns_encloses body).bind ?_
    rintro _ _ ⟨block, hblock, rfl, rfl⟩
    let function : Kind (Tree Label) := .functionExpression none params block
    have hchildren : forest function.children = forest params + block.cells := by
      simp [function, Kind.children]
    have hrest : block.cells + ({cell a (.arrowFunction params body)} + forest params)
        = forest function.children + {cell a (.arrowFunction params body)} := by
      rw [hchildren]
      abel
    dsimp only
    split
    · rename_i hbound
      rw [hrest]
      refine (turns_alloc function a.2).bind ?_
      rintro f _ rfl
      have hmember := turns_alloc (.member (.node (f, a.2) function) "bind") a.2
      simp only [Kind.children, forest_cons, forest_nil, add_zero] at hmember
      refine hmember.bind ?_
      rintro m _ rfl
      rw [← zero_add ((Tree.node _ _).cells + _)]
      refine (turns_alloc .this a.2).bind ?_
      rintro h _ rfl
      refine (turns_replace (.arrowFunction params body)
        (.call (.node (m, a.2) (.member (.node (f, a.2) function) "bind")) [.node (h, a.2) .this])
        (Z := 0) ?_).mono ?_
      · simp only [Kind.children, forest_cons, forest_nil]
        abel
      · rintro _ _ rfl
        exact ⟨_, .bind hbound hblock f m h, (add_zero _).symm⟩
    · rename_i hbound
      refine (turns_replace (.arrowFunction params body) function (Z := 0) ?_).mono ?_
      · rw [hrest]
        abel
      · rintro _ _ rfl
        exact ⟨_, .function (by simpa using hbound) hblock, (add_zero _).symm⟩
  | _ => exact .pure ⟨_, .other (fun _ _ h => by cases h), rfl⟩

/-! ## Templates and powers -/

/-- Adding up a template makes its sum, but for the last node. -/
theorem turns_sum (span : Span) (total : Kind (Tree Label)) (es : List (Tree Label))
    (texts : List String) :
    Turns (forest total.children + forest es)
      (Lowering.sum span (total.map number) (es.map number) texts) fun kind Y =>
        ∃ k : Kind (Tree Label), k.map number = kind ∧
          k.map plain = sum span (total.map plain) (es.map plain) texts ∧ forest k.children = Y := by
  have hadd : ∀ left right : Tree Label,
      (Kind.binary .add left right).map plain = .binary .add left.plain right.plain :=
    fun _ _ => rfl
  have hcells : ∀ left right : Tree Label, ∀ es,
      forest (Kind.binary .add left right).children + forest es
        = left.cells + (right.cells + forest es) := by
    intro left right es
    simp only [Kind.children, forest_cons, forest_nil]
    abel
  induction es generalizing total texts with
  | nil => exact .pure ⟨total, rfl, rfl, (add_zero _).symm⟩
  | cons e es ih =>
    refine (makes_alloc total span).bind (forest (e :: es)) rfl fun left hleft => ?_
    rw [forest_cons, ← hcells left e es]
    cases texts with
    | nil =>
      refine (ih (.binary .add left e) []).mono ?_
      rintro _ _ ⟨k, hnumber, hplain, hforest⟩
      exact ⟨k, hnumber, by rw [hplain, hadd, hleft]; rfl, hforest⟩
    | cons text texts =>
      simp only [List.map_cons, sum]
      split
      · refine (ih (.binary .add left e) texts).mono ?_
        rintro _ _ ⟨k, hnumber, hplain, hforest⟩
        exact ⟨k, hnumber, by rw [hplain, hadd, hleft], hforest⟩
      · refine (makes_alloc (.binary .add left e) span).bind (forest es) rfl fun left' hleft' => ?_
        refine (makes_alloc (.string text) span).bind _ (zero_add _).symm fun right hright => ?_
        rw [add_left_comm, ← hcells left' right es]
        refine (ih (.binary .add left' right) texts).mono ?_
        rintro _ _ ⟨k, hnumber, hplain, hforest⟩
        refine ⟨k, hnumber, ?_, hforest⟩
        rw [hplain, hadd, hleft', hadd, hleft, hright]
        rfl

theorem rewrites_lowerTemplate :
    Rewrites Lowering.lowerTemplate fun span => templateStep span false := by
  intro a k
  unfold Lowering.lowerTemplate
  refine Remakes.get fun s hnode _ => ?_
  rw [Store.kind, Store.span, hnode]
  cases k with
  | template quasis expressions =>
    let texts := quasis.map Lowering.quotedString
    have hcells : (Tree.node a (.template quasis expressions)).cells
        = forest (Kind.string (texts.headD "")).children + forest expressions
          + {cell a (.template quasis expressions)} := by
      simp only [cells_eq, Kind.children, forest_nil]
      abel
    rw [Remakes, hcells]
    refine (turns_sum a.2 (.string (texts.headD "")) expressions texts.tail).bind ?_
    rintro _ _ ⟨k, rfl, hplain, rfl⟩
    exact turns_remake (k := .template quasis expressions) k hplain (add_comm _ _)
  | _ => exact .pure

theorem rewrites_lowerPower : Rewrites Lowering.lowerPower fun span => powerStep span false := by
  intro a k
  unfold Lowering.lowerPower
  refine Remakes.get fun s hnode _ => ?_
  rw [Store.kind, Store.span, hnode]
  cases k with
  | binary op left right =>
    cases op with
    | power =>
      refine (makes_identifier "Math" a.2).bind _ (zero_add _).symm fun math hmath => ?_
      refine (makes_member math "pow" a.2).bind (Tree.node a (.binary .power left right)).cells ?_
        fun callee hcallee => ?_
      · simp
      refine turns_remake (k := .binary .power left right) (.call callee [left, right]) ?_ ?_
      · simp only [Kind.map, List.map_cons, List.map_nil, hcallee, hmath]
        rfl
      · simp only [cells_eq, Kind.children, forest_cons, forest_nil]
        abel
    | _ => exact .pure
  | _ => exact .pure

/-! ## Marks and keywords -/

/-- A change of a node over the same children. -/
theorem remakes_replace {a : Label} {k : Kind (Tree Label)} (k' : Kind (Tree Label))
    (h : k'.children = k.children) :
    Remakes a k (Lowering.replace a.1 (k'.map number)) (k'.map plain) :=
  turns_remake k' rfl (by rw [cells_eq, h])

/-- A change of the store that does what an action does to nodes of a kind. -/
theorem Remakes.editing {a : Label} {k : Kind (Tree Label)} {l : Kind (Tree Span)} {f : Store → Store}
    {action : StateM Store Unit} (h : Remakes a k action l)
    (hf : ∀ s : Store, s.kind a.1 = k.map number → f s = (action s).2) :
    Remakes a k (modify f) l := by
  intro s F hs
  have hkind : s.kind a.1 = k.map number :=
    congrArg Node.kind (Store.node_eq hs (c := cell a k) (by simp))
  have hturn := h s F hs
  rw [← hf s hkind] at hturn
  exact hturn

theorem rewrites_lowerConcise :
    Rewrites (fun id => modify (Lowering.lowerConcise id)) fun span => conciseStep span false := by
  intro a k
  cases k with
  | property key value shorthand method =>
    refine (remakes_replace (k := .property key value shorthand method)
      (.property key value shorthand false) rfl).editing fun s hs => ?_
    rw [Lowering.lowerConcise, hs]
    rfl
  | _ =>
    refine Remakes.pure.editing fun s hs => ?_
    rw [Lowering.lowerConcise, hs]
    rfl

theorem rewrites_lowerShorthand :
    Rewrites (fun id => modify (Lowering.lowerShorthand id)) fun span =>
      shorthandStep span false := by
  intro a k
  cases k with
  | property key value shorthand method =>
    refine (remakes_replace (k := .property key value shorthand method)
      (.property key value false method) rfl).editing fun s hs => ?_
    rw [Lowering.lowerShorthand, hs]
    rfl
  | _ =>
    refine Remakes.pure.editing fun s hs => ?_
    rw [Lowering.lowerShorthand, hs]
    rfl

end Downlevel
