import Downlevel.Lowering.BlockScope
import Downlevel.Proofs.Preserve

/-!
# Declarations that leave their blocks

`Tree.hoisted` lists the warnings about declarations that would be visible outside of their blocks
without block scope, in the order in which a reader meets the declarations. In a well-formed tree, what
directly contains a declaration decides about it (`Tree.hoisted_eq_filterMap`). The other lowerings move
parts of a program around, but never change this list (`Construct.hoisted_rebuild`).
-/

namespace Downlevel

/-- A kind without children. -/
def Kind.outline {α : Type} (k : Kind α) : Kind Unit :=
  k.map fun _ => ()

namespace Tree

variable {σ : Type}

/-! ## Nodes and what is around them -/

private def meet (a : σ) (k : Kind (Tree σ × (List (Kind Unit) → List (List (Kind Unit) × Tree σ)))) :
    Tree σ × (List (Kind Unit) → List (List (Kind Unit) × Tree σ)) :=
  let t := node a (k.map Prod.fst)
  (t, fun above => (above, t) :: k.children.flatMap fun c => c.2 (k.outline :: above))

/-- Every node of a tree, in the order in which they are met, with the nodes around it, nearest
first. -/
def occurrences (t : Tree σ) (above : List (Kind Unit)) : List (List (Kind Unit) × Tree σ) :=
  (t.fold meet).2 above

private theorem fold_meet_fst (t : Tree σ) : (t.fold meet).1 = t := by
  induction t using induction_on with
  | node a k ih =>
    simp only [fold_node, meet, Kind.map_map]
    exact congrArg (node a) ((Kind.map_congr ih).trans (Kind.map_id k))

theorem occurrences_node (above : List (Kind Unit)) (a : σ) (k : Kind (Tree σ)) :
    (node a k).occurrences above
      = (above, node a k) :: k.children.flatMap (·.occurrences (k.outline :: above)) := by
  have hkind : k.map (fun c => (c.fold meet).1) = k :=
    (Kind.map_congr fun c _ => fold_meet_fst c).trans (Kind.map_id k)
  rw [occurrences, fold_node, meet]
  simp only [hkind, Kind.children_map, List.flatMap_map, Kind.outline, Kind.map_map]
  rfl

/-- Whether, of the nodes around a declaration, the nearest that holds statements is neither the program
nor the body of a function. -/
def inBlock : List (Kind Unit) → Bool
  | [] => false
  | .program _ :: _ | .functionDeclaration .. :: _ | .functionExpression .. :: _
  | .arrowFunction .. :: _ => false
  | .block _ :: above => !(above.head?.any Kind.isFunction)
  | .ifStatement .. :: _ | .whileStatement .. :: _ => true
  | _ :: above => inBlock above

/-- A declared name, as a message shows it. -/
def declaredName? : Kind (Tree σ) → Option String
  | .declarator name _ => some ("`" ++ name ++ "`")
  | _ => none

/-- The declared names, as a message lists them. -/
def declaredNames (declarators : List (Tree σ)) : String :=
  ", ".intercalate (declarators.filterMap fun t => declaredName? t.kind)

/-- The warning about a declaration that leaves its block, unless it has no block scope. -/
def hoistWarning? : Tree Span → Option Diagnostic
  | node _ (.declaration .var _) => none
  | node span (.declaration keyword declarators) =>
    some ⟨Lowering.blockScopeHoisted, "`" ++ keyword.keyword ++ "` declaration of "
      ++ declaredNames declarators ++ " is hoisted out of its block",
      span.start.line, span.start.column⟩
  | _ => none

/-- The warning about a node below others. -/
def warning? (o : List (Kind Unit) × Tree Span) : Option Diagnostic :=
  if inBlock o.1 then o.2.hoistWarning? else none

/-- The warnings about declarations of a tree below some nodes. -/
def hoisted (above : List (Kind Unit)) (t : Tree Span) : List Diagnostic :=
  (t.occurrences above).filterMap warning?

theorem hoisted_node (above : List (Kind Unit)) (a : Span) (k : Kind (Tree Span)) :
    (node a k).hoisted above
      = (if inBlock above then (node a k).hoistWarning? else none).toList
        ++ k.children.flatMap (hoisted (k.outline :: above)) := by
  rw [hoisted, occurrences_node, List.filterMap_cons, List.filterMap_flatMap]
  change _ = (warning? (above, node a k)).toList ++ _
  cases warning? (above, node a k) <;> rfl

/-! ## What the list depends on -/

@[simp] theorem inBlock_function {k : Kind Unit} (hk : k.isFunction = true)
    (above : List (Kind Unit)) : inBlock (k :: above) = false := by
  cases k <;> first | rfl | cases hk

theorem isFunction_outline {α : Type} (k : Kind α) : k.outline.isFunction = k.isFunction := by
  cases k <;> rfl

/-- A tree has the same warnings below nodes that agree on whether it stands in a block, and on whether
it is a part of a function. -/
theorem hoisted_congr {above above' : List (Kind Unit)} (hblock : inBlock above = inBlock above')
    (hfunction : above.head?.any Kind.isFunction = above'.head?.any Kind.isFunction)
    (t : Tree Span) : t.hoisted above = t.hoisted above' := by
  induction t using induction_on generalizing above above' with
  | node a k ih =>
    rw [hoisted_node, hoisted_node, hblock]
    refine congrArg (_ ++ ·) (List.flatMap_congr fun c hc => ih c hc ?_ rfl)
    cases k with
    | block =>
      change (!_) = (!_)
      rw [hfunction]
    | program | functionDeclaration | functionExpression | arrowFunction | ifStatement
    | whileStatement => rfl
    | _ => exact hblock

/-- What is around the tree does not matter for its warnings. -/
def Steady (t : Tree Span) : Prop :=
  ∀ above above', t.hoisted above = t.hoisted above'

theorem hoisted_of_steady {t : Tree Span} (h : t.Steady) (above : List (Kind Unit)) :
    t.hoisted above = t.hoisted [] :=
  h above []

theorem flatMap_hoisted_of_steady {ts : List (Tree Span)} (h : ∀ t ∈ ts, t.Steady)
    (above : List (Kind Unit)) : ts.flatMap (hoisted above) = ts.flatMap (hoisted []) :=
  List.flatMap_congr fun t ht => h t ht above []

/-- A node without a warning of its own, over parts for which their surroundings do not matter. -/
theorem hoisted_node_of_steady {a : Span} {k : Kind (Tree Span)}
    (hk : (node a k).hoistWarning? = none) (h : ∀ c ∈ k.children, c.Steady)
    (above : List (Kind Unit)) : (node a k).hoisted above = k.children.flatMap (hoisted []) := by
  rw [hoisted_node, hk, ite_self, flatMap_hoisted_of_steady h]
  rfl

theorem steady_node {a : Span} {k : Kind (Tree Span)} (hk : (node a k).hoistWarning? = none)
    (h : ∀ c ∈ k.children, c.Steady) : (node a k).Steady := by
  intro above above'
  rw [hoisted_node_of_steady hk h, hoisted_node_of_steady hk h]

/-- The warnings about parts of a function. -/
def hoistedInside (t : Tree Span) : List Diagnostic :=
  t.hoisted [.arrowFunction [] ()]

section Signature

variable {a : Span} {k : Kind (Tree Span)} {params : List (Tree Span)} {body : Tree Span}

/-- The warnings about a function are those about its parts, wherever it is. -/
theorem hoisted_of_signature (h : k.signature? = some (params, body)) (above : List (Kind Unit)) :
    (node a k).hoisted above = params.flatMap hoistedInside ++ body.hoistedInside := by
  have hfunction : k.outline.isFunction = true := by cases k <;> first | rfl | cases h
  have hwarning : (node a k).hoistWarning? = none := by cases k <;> first | rfl | cases h
  have hinside : ∀ t, hoisted (k.outline :: above) t = hoisted [.arrowFunction [] ()] t :=
    hoisted_congr (inBlock_function hfunction above) hfunction
  rw [hoisted_node, hwarning, ite_self, Kind.children_of_signature h, List.flatMap_append,
    List.flatMap_congr fun t _ => hinside t]
  simp only [List.flatMap_singleton, hinside]
  rfl

theorem steady_of_signature (h : k.signature? = some (params, body)) : (node a k).Steady :=
  fun above above' => by rw [hoisted_of_signature h, hoisted_of_signature h]

end Signature

/-- An expression that is no function has no statement as a part. -/
theorem category_of_mem_children {k : Kind (Tree Span)} (h : (k.map kind).formed = true)
    (hk : k.category ≠ .statement ∧ k.category ≠ .program) (hs : k.signature? = none)
    {c : Tree Span} (hc : c ∈ k.children) :
    c.kind.category ≠ .statement ∧ c.kind.category ≠ .program := by
  have hadmits : ∀ p ∈ k.admits, p ≠ .statement ∧ p ≠ .program := by
    cases k <;> first | exact absurd rfl hk.1 | exact absurd rfl hk.2 | cases hs; done |
      simp [Kind.admits]
  exact hadmits _ (category_mem_admits h c hc)

/-- A well-formed expression, or a part of one, has the same warnings everywhere: whatever statements it
has are inside of a function. -/
theorem Formed.steady {t : Tree Span} (h : t.Formed)
    (hk : t.kind.category ≠ .statement ∧ t.kind.category ≠ .program) : t.Steady := by
  induction t using Tree.induction_on with
  | node a k ih =>
    cases hs : k.signature? with
    | some signature => exact steady_of_signature hs
    | none =>
      obtain ⟨here, below⟩ := formed_node.mp h
      refine steady_node ?_ fun c hc => ih c hc (below c hc) (category_of_mem_children here hk hs hc)
      cases k <;> first | rfl | exact absurd rfl hk.1

theorem Formed.steady_children {a : Span} {k : Kind (Tree Span)} (h : (node a k).Formed)
    (hk : k.category ≠ .statement ∧ k.category ≠ .program) (hs : k.signature? = none) :
    ∀ c ∈ k.children, c.Steady := by
  obtain ⟨here, below⟩ := formed_node.mp h
  exact fun c hc => (below c hc).steady (category_of_mem_children here hk hs hc)

theorem Formed.steady_of_isExpression {t : Tree Span} (h : t.Formed)
    (hk : t.kind.isExpression = true) : t.Steady := by
  simp only [Kind.isExpression, decide_eq_true_eq] at hk
  exact h.steady (by rw [hk]; decide)

/-! ## What directly contains a declaration -/

/-- The warnings about a statement at the top of a function body. -/
def hoistedOnTop (t : Tree Span) : List Diagnostic :=
  t.hoisted [.block [], .arrowFunction [] ()]

theorem hoistedInside_block (a : Span) (old : List (Tree Span)) :
    (node a (.block old)).hoistedInside = old.flatMap hoistedOnTop := by
  rw [hoistedInside, hoisted_node]
  refine List.flatMap_congr fun t _ => ?_
  rw [hoistedOnTop]
  refine hoisted_congr ?_ ?_ t <;> rfl

theorem hoistedInside_ensureBlock {body : Tree Span} (h : body.Formed)
    (hbody : body.kind.isBlock = true ∨ body.kind.isExpression = true) :
    (ensureBlock body).hoistedInside = body.hoistedInside := by
  unfold ensureBlock
  split
  · rfl
  · rename_i hb
    have hsteady := h.steady_of_isExpression (hbody.resolve_left hb)
    rw [hoistedInside_block, List.flatMap_singleton, hoistedOnTop,
      hoisted_node_of_steady rfl (by simpa [Kind.children] using hsteady), hoistedInside,
      hoisted_of_steady hsteady]
    simp [Kind.children]

theorem hoistedInside_prepend {body : Tree Span} (h : body.Formed)
    (hbody : body.kind.isBlock = true ∨ body.kind.isExpression = true)
    (statements : List (Tree Span)) :
    (prepend statements body).hoistedInside
      = statements.flatMap hoistedOnTop ++ body.hoistedInside := by
  cases statements with
  | nil => rfl
  | cons s statements =>
    obtain ⟨old, hold⟩ := exists_eq_block (isBlock_ensureBlock body)
    rw [prepend_of_ne_nil (List.cons_ne_nil s statements), ← hoistedInside_ensureBlock h hbody,
      hold, prepend_block, hoistedInside_block, hoistedInside_block, List.flatMap_append]

theorem hoistedOnTop_nullCheck {a : Span} {name : String} {fallback : Tree Span}
    (h : fallback.Steady) : (nullCheck a name fallback).hoistedOnTop = fallback.hoisted [] := by
  simp [nullCheck, hoistedOnTop, hoisted_node, hoistWarning?, Kind.children, hoisted_of_steady h]

theorem hoistedOnTop_sliceArguments (a : Span) (name : String) (index : Nat) :
    (sliceArguments a name index).hoistedOnTop = [] := by
  simp [sliceArguments, hoistedOnTop, hoisted_node, hoistWarning?, Kind.children]

/-- The default of a parameter is warned about in the check that stands for it. -/
theorem flatMap_hoistedInside_params {params : List (Tree Span)} (h : ∀ p ∈ params, p.Formed)
    (hparams : ∀ p ∈ params, p.kind.isParam = true) :
    (params.map withoutDefault).flatMap hoistedInside = [] ∧
      (defaultChecks params).flatMap hoistedOnTop = params.flatMap hoistedInside := by
  induction params with
  | nil => exact ⟨rfl, rfl⟩
  | cons p params ih =>
    rw [List.forall_mem_cons] at h hparams
    obtain ⟨ih₁, ih₂⟩ := ih h.2 hparams.2
    rw [List.map_cons, List.flatMap_cons, List.flatMap_cons, ih₁, List.append_nil, ← ih₂]
    obtain ⟨a, k⟩ := p
    cases k with
    | param name fallback rest =>
      cases fallback with
      | none => exact ⟨rfl, rfl⟩
      | some d =>
        obtain ⟨here, below⟩ := formed_node.mp h.1
        simp only [Kind.map, Kind.formed, Bool.and_eq_true] at here
        have hsteady := (below d (by simp [Kind.children])).steady_of_isExpression here.1.2
        have hinside : (node a (.param name (some d) rest)).hoistedInside = d.hoisted [] := by
          rw [hoistedInside, hoisted_node_of_steady rfl (by simpa [Kind.children] using hsteady)]
          simp [Kind.children]
        refine ⟨rfl, ?_⟩
        change (nullCheck a name d).hoistedOnTop ++ (defaultChecks params).flatMap hoistedOnTop = _
        rw [hoistedOnTop_nullCheck hsteady, hinside]
    | _ => cases hparams.1

/-- A rest parameter has no default to warn about. -/
theorem flatMap_hoistedInside_withoutRest {params : List (Tree Span)}
    (h : ∀ p ∈ params, p.Formed) :
    (withoutRest params).flatMap hoistedInside = params.flatMap hoistedInside := by
  unfold withoutRest
  split
  · rename_i hrest
    rcases List.eq_nil_or_concat params with rfl | ⟨init, last, rfl⟩
    · rfl
    · rw [List.concat_eq_append] at h hrest ⊢
      rw [lastRest?_concat] at hrest
      have hlast : last.hoistedInside = [] := by
        have hformed := (formed_node.mp (last.node_ann_kind ▸ h last (by simp))).1
        obtain ⟨a, k⟩ := last
        cases k with
        | param name fallback rest =>
          cases rest with
          | false => cases hrest
          | true =>
            simp only [kind_node, Kind.map, Kind.formed, Bool.and_eq_true] at hformed
            cases fallback with
            | none => rfl
            | some d => cases hformed.2
        | _ => cases hrest
      simp [hlast]
  · rfl

theorem flatMap_hoistedOnTop_restDeclaration (params : List (Tree Span)) :
    (restDeclaration params).flatMap hoistedOnTop = [] := by
  simp [restDeclaration, List.flatMap_map, hoistedOnTop_sliceArguments]

theorem steady_binary {a : Span} {op : BinaryOp} {l r : Tree Span} (hl : l.Steady) (hr : r.Steady) :
    (node a (.binary op l r)).Steady :=
  steady_node rfl (by simp [Kind.children, hl, hr])

theorem hoisted_binary {a : Span} {op : BinaryOp} {l r : Tree Span} (hl : l.Steady) (hr : r.Steady)
    (above : List (Kind Unit)) :
    (node a (.binary op l r)).hoisted above = l.hoisted [] ++ r.hoisted [] := by
  rw [hoisted_node_of_steady rfl (by simp [Kind.children, hl, hr])]
  simp [Kind.children]

/-- The substitutions of a template are warned about in the order in which they are added up. -/
theorem hoisted_sum {a : Span} {total : Kind (Tree Span)} (htotal : (node a total).Steady)
    {es : List (Tree Span)} (hes : ∀ e ∈ es, e.Steady) (texts : List String)
    (above : List (Kind Unit)) :
    (node a (sum a total es texts)).hoisted above
      = (node a total).hoisted [] ++ es.flatMap (hoisted []) := by
  fun_induction sum a total es texts with
  | case1 => simp [hoisted_of_steady htotal]
  | case2 total e es ih | case3 total e es _ _ _ ih =>
    rw [List.forall_mem_cons] at hes
    rw [ih (steady_binary htotal hes.1) hes.2, hoisted_binary htotal hes.1, List.flatMap_cons,
      List.append_assoc]
  | case4 total e es text texts _ ih =>
    rw [List.forall_mem_cons] at hes
    have htext : (node a (.string text)).Steady := steady_node rfl (by simp [Kind.children])
    have hsum : (node a (.binary .add (node a total) e)).Steady := steady_binary htotal hes.1
    rw [ih (steady_binary hsum htext) hes.2, hoisted_binary hsum htext, hoisted_binary htotal hes.1,
      List.flatMap_cons]
    simp [hoisted_node, hoistWarning?, Kind.children]

theorem hoisted_concatenation {a : Span} {es : List (Tree Span)} (hes : ∀ e ∈ es, e.Steady)
    (quasis : List String) (above : List (Kind Unit)) :
    (node a (concatenation a quasis es)).hoisted above = es.flatMap (hoisted []) := by
  have htext : ∀ text, (node a (.string text)).Steady :=
    fun text => steady_node rfl (by simp [Kind.children])
  rw [concatenation, hoisted_sum (htext _) hes]
  simp [hoisted_node, hoistWarning?, Kind.children]

theorem hoisted_mathPow {a : Span} {base exponent : Tree Span} (hb : base.Steady)
    (he : exponent.Steady) (above : List (Kind Unit)) :
    (node a (mathPow a base exponent)).hoisted above = [base, exponent].flatMap (hoisted []) := by
  have hmath : (node a (.identifier "Math")).Steady := steady_node rfl (by simp [Kind.children])
  have hpow : (node a (.member (node a (.identifier "Math")) "pow")).Steady :=
    steady_node rfl (by simp [Kind.children, hmath])
  rw [mathPow, hoisted_node_of_steady rfl (by simp [Kind.children, hpow, hb, he])]
  simp [Kind.children, hoisted_node, hoistWarning?]

theorem hoisted_bindThis {a : Span} {k : Kind (Tree Span)} (h : (node a k).Steady) (bound : Bool)
    (above : List (Kind Unit)) :
    (node a (bindThis a bound k)).hoisted above = (node a k).hoisted above := by
  cases bound with
  | false => rfl
  | true =>
    have hmember : (node a (.member (node a k) "bind")).Steady :=
      steady_node rfl (by simpa [Kind.children] using h)
    have hthis : (node a .this).Steady := steady_node rfl (by simp [Kind.children])
    calc (node a (.call (node a (.member (node a k) "bind")) [node a .this])).hoisted above
      _ = (node a (.member (node a k) "bind")).hoisted [] ++ (node a .this).hoisted [] := by
        rw [hoisted_node_of_steady rfl (by simp [Kind.children, hmember, hthis])]
        simp [Kind.children]
      _ = (node a k).hoisted [] := by
        rw [hoisted_node_of_steady rfl (by simpa [Kind.children] using h), hoisted_node]
        simp [Kind.children, hoistWarning?]
      _ = (node a k).hoisted above := (hoisted_of_steady h above).symm

end Tree

namespace Construct

open Downlevel.Tree

/-! ## Lowering other constructs -/

theorem hoisted_arrowStep {a : Span} {params : List (Tree Span)} {body : Tree Span}
    (h : (node a (.arrowFunction params body)).Formed) (bound : Bool) (above : List (Kind Unit)) :
    (node a (arrowStep a bound (.arrowFunction params body))).hoisted above
      = (node a (.arrowFunction params body)).hoisted above := by
  obtain ⟨-, hbody, hkind⟩ := formed_of_signature h rfl
  rw [arrowStep, hoisted_bindThis (steady_of_signature rfl), hoisted_of_signature rfl,
    hoisted_of_signature rfl, hoistedInside_ensureBlock hbody hkind]

theorem hoisted_defaultStep {a : Span} {k : Kind (Tree Span)} (h : (node a k).Formed) (bound : Bool)
    (above : List (Kind Unit)) :
    (node a (defaultStep a bound k)).hoisted above = (node a k).hoisted above := by
  cases hk : k.signature? with
  | none => rw [defaultStep_of_none hk]
  | some signature =>
    obtain ⟨params, body⟩ := signature
    obtain ⟨⟨hparams, hformed⟩, hbody, hkind⟩ := formed_of_signature h hk
    obtain ⟨hgone, hchecks⟩ :=
      flatMap_hoistedInside_params hparams (isParam_of_paramsFormed hformed)
    rw [defaultStep_of_signature hk,
      hoisted_of_signature (Kind.signature?_withBody (Kind.signature?_withParams hk _) _),
      hoisted_of_signature hk, hoistedInside_prepend hbody hkind, hgone, hchecks, List.nil_append]

theorem hoisted_restStep {a : Span} {k : Kind (Tree Span)} (h : (node a k).Formed) (bound : Bool)
    (above : List (Kind Unit)) :
    (node a (restStep a bound k)).hoisted above = (node a k).hoisted above := by
  cases k with
  | functionDeclaration name params body | functionExpression name params body =>
    obtain ⟨⟨hparams, -⟩, hbody, hkind⟩ := formed_of_signature h rfl
    rw [restStep_of_signature (by nofun) rfl,
      hoisted_of_signature (Kind.signature?_withBody (Kind.signature?_withParams rfl _) _),
      hoisted_of_signature rfl, hoistedInside_prepend hbody hkind,
      flatMap_hoistedInside_withoutRest hparams, flatMap_hoistedOnTop_restDeclaration,
      List.nil_append]
  | _ => rfl

/-- A property is warned about as its value is. -/
theorem hoisted_property {a : Span} {key : PropertyKey} {value : Tree Span}
    (shorthand method shorthand' method' : Bool) (above : List (Kind Unit)) :
    (node a (.property key value shorthand method)).hoisted above
      = (node a (.property key value shorthand' method')).hoisted above := by
  rw [hoisted_node, hoisted_node]
  refine congrArg (_ ++ ·) (List.flatMap_congr fun t _ => hoisted_congr ?_ ?_ t) <;> rfl

theorem hoisted_step {c : Construct} (hc : c ≠ .blockScope) {a : Span} {k : Kind (Tree Span)}
    (h : (node a k).Formed) (bound : Bool) (above : List (Kind Unit)) :
    (node a (c.step a bound k)).hoisted above = (node a k).hoisted above := by
  cases c with
  | defaultParam => exact hoisted_defaultStep h bound above
  | restParam => exact hoisted_restStep h bound above
  | arrowFunction =>
    cases k with
    | arrowFunction params body => exact hoisted_arrowStep h bound above
    | _ => rfl
  | conciseMethod | shorthandProperty =>
    cases k with
    | property => exact hoisted_property _ _ _ _ above
    | _ => rfl
  | templateLiteral =>
    cases k with
    | template quasis expressions =>
      have hes := h.steady_children ⟨nofun, nofun⟩ rfl
      rw [hoisted_node_of_steady rfl hes]
      exact hoisted_concatenation hes quasis above
    | _ => rfl
  | powerOperator =>
    cases k with
    | binary op left right =>
      cases op with
      | power =>
        have hes := h.steady_children ⟨nofun, nofun⟩ rfl
        rw [hoisted_node_of_steady rfl hes]
        exact hoisted_mathPow (hes left (by simp [Kind.children])) (hes right (by simp [Kind.children]))
          above
      | _ => rfl
    | _ => rfl
  | blockScope => exact absurd rfl hc

theorem declaredName?_rebuild (c : Construct) (t : Tree Span) :
    declaredName? (rebuild c.step t).kind = declaredName? t.kind := by
  have hnone : ∀ {k : Kind (Tree Span)}, k.category ≠ .declarator → declaredName? k = none :=
    fun {k} hk => by cases k <;> first | rfl | exact absurd rfl hk
  by_cases ht : t.kind.category = .declarator
  · obtain ⟨a, k⟩ := t
    cases k with
    | declarator name init =>
      rw [c.mild.rebuild_untouched a rfl]
      rfl
    | _ => cases ht
  · rw [hnone ht, hnone (by rwa [c.mild.category_rebuild])]

/-- A declaration keeps its warning when its parts are rebuilt. -/
theorem hoistWarning?_map (c : Construct) (a : Span) (k : Kind (Tree Span)) :
    (node a (k.map (rebuild c.step))).hoistWarning? = (node a k).hoistWarning? := by
  cases k with
  | declaration keyword declarators =>
    have hnames : declaredNames (declarators.map (rebuild c.step)) = declaredNames declarators := by
      rw [declaredNames, declaredNames, List.filterMap_map]
      exact congrArg _ (List.filterMap_congr fun t _ => c.declaredName?_rebuild t)
    cases keyword <;> simp only [Kind.map, hoistWarning?, hnames]
  | _ => rfl

/-- No lowering but that of block scope itself adds, loses or reorders a warning. -/
theorem hoisted_rebuild {c : Construct} (hc : c ≠ .blockScope) {t : Tree Span} (h : t.Formed)
    (above : List (Kind Unit)) : (rebuild c.step t).hoisted above = t.hoisted above := by
  induction t using induction_on generalizing above with
  | node a k ih =>
    obtain ⟨-, below⟩ := formed_node.mp h
    rw [rebuild_node, hoisted_step hc (c.formed_map_rebuild h), hoisted_node, hoisted_node,
      c.hoistWarning?_map, Kind.children_map, List.flatMap_map, Kind.outline, Kind.map_map]
    exact congrArg (_ ++ ·) (List.flatMap_congr fun d hd => ih d hd (below d hd) _)

theorem children_scopeStep {σ : Type} (a : σ) (bound : Bool) (k : Kind (Tree σ)) :
    (scopeStep a bound k).children = k.children := by
  cases k <;> rfl

/-- Without block scope, nothing is left to warn about. -/
theorem hoisted_rebuild_scopeStep (t : Tree Span) (above : List (Kind Unit)) :
    (rebuild scopeStep t).hoisted above = [] := by
  induction t using induction_on generalizing above with
  | node a k ih =>
    have hwarning : ∀ bound l, (node a (scopeStep a bound l)).hoistWarning? = none :=
      fun bound l => by cases l <;> rfl
    rw [rebuild_node, hoisted_node, hwarning, ite_self, children_scopeStep, Kind.children_map,
      List.flatMap_map, List.flatMap_congr fun c hc => ih c hc _]
    simp

end Construct

end Downlevel
