import Downlevel.Proofs.Fusion
import Downlevel.Proofs.Hoisting
import Downlevel.Proofs.Rebuild

/-!
# Annotations have no influence

The lowerings copy the annotations of nodes but never look at them: changing all annotations of a tree
and then lowering constructs is the same as lowering them first (`Tree.map_lowerAll`). Nor do spans have
an influence on which declarations are warned about, and on what is said about them
(`Tree.content_hoisted`).
-/

namespace Downlevel

namespace Tree

variable {σ τ : Type} (f : σ → τ)

theorem map_map {υ : Type} (g : τ → υ) (t : Tree σ) : (t.map f).map g = t.map fun a => g (f a) := by
  induction t using induction_on with
  | node a k ih =>
    rw [map_node, map_node, map_node, Kind.map_map]
    exact congrArg (node (g (f a))) (Kind.map_congr ih)

/-! ## Lowering -/

section Parts

attribute [local simp] map_node Kind.map

theorem map_ensureBlock (body : Tree σ) : (ensureBlock body).map f = ensureBlock (body.map f) := by
  unfold ensureBlock
  rw [kind_map, Kind.isBlock_map, ann_map]
  split
  · rfl
  · simp

theorem map_prepend (statements : List (Tree σ)) (body : Tree σ) :
    (prepend statements body).map f = prepend (statements.map (map f)) (body.map f) := by
  cases statements with
  | nil => rfl
  | cons s statements =>
    obtain ⟨old, hold⟩ := exists_eq_block (isBlock_ensureBlock body)
    rw [prepend_of_ne_nil (List.cons_ne_nil s statements), List.map_cons,
      prepend_of_ne_nil (List.cons_ne_nil (s.map f) _), ← map_ensureBlock, hold]
    simp [prepend_block]

theorem map_nullCheck (a : σ) (name : String) (fallback : Tree σ) :
    (nullCheck a name fallback).map f = nullCheck (f a) name (fallback.map f) := by
  simp [nullCheck]

theorem map_sliceArguments (a : σ) (name : String) (index : Nat) :
    (sliceArguments a name index).map f = sliceArguments (f a) name index := by
  simp [sliceArguments]

theorem map_withoutDefault (t : Tree σ) : (withoutDefault t).map f = withoutDefault (t.map f) := by
  obtain ⟨a, k⟩ := t
  cases k with
  | param name fallback rest => cases fallback <;> simp [withoutDefault]
  | _ => simp [withoutDefault]

theorem map_defaultCheck? (t : Tree σ) : (defaultCheck? t).map (map f) = defaultCheck? (t.map f) := by
  obtain ⟨a, k⟩ := t
  cases k with
  | param name fallback rest => cases fallback <;> simp [defaultCheck?, map_nullCheck]
  | _ => simp [defaultCheck?]

theorem map_defaultChecks (params : List (Tree σ)) :
    (defaultChecks params).map (map f) = defaultChecks (params.map (map f)) := by
  rw [defaultChecks, defaultChecks, List.map_filterMap, List.filterMap_map]
  exact List.filterMap_congr fun t _ => map_defaultCheck? f t

theorem map_rest? (t : Tree σ) : (rest? t).map (Prod.map f id) = rest? (t.map f) := by
  obtain ⟨a, k⟩ := t
  cases k with
  | param name fallback rest => cases rest <;> simp [rest?]
  | _ => simp [rest?]

theorem map_lastRest? (params : List (Tree σ)) :
    (lastRest? params).map (Prod.map f id) = lastRest? (params.map (map f)) := by
  simp only [lastRest?, List.getLast?_map]
  cases params.getLast? with
  | none => rfl
  | some last => exact map_rest? f last

theorem map_withoutRest (params : List (Tree σ)) :
    (withoutRest params).map (map f) = withoutRest (params.map (map f)) := by
  unfold withoutRest
  rw [← map_lastRest?, Option.isSome_map]
  split
  · exact List.map_dropLast
  · rfl

theorem map_restDeclaration (params : List (Tree σ)) :
    (restDeclaration params).map (map f) = restDeclaration (params.map (map f)) := by
  unfold restDeclaration
  rw [← map_lastRest?, List.length_map]
  cases lastRest? params with
  | none => rfl
  | some rest => simp [map_sliceArguments]

theorem map_sum (a : σ) (total : Kind (Tree σ)) (es : List (Tree σ)) (texts : List String) :
    (sum a total es texts).map (map f) = sum (f a) (total.map (map f)) (es.map (map f)) texts := by
  induction es generalizing total texts with
  | nil => rfl
  | cons e es ih =>
    cases texts with
    | nil =>
      rw [sum, ih, List.map_cons, sum, ← map_node]
      rfl
    | cons text texts =>
      rw [List.map_cons, sum, sum]
      split <;> rw [ih, ← map_node] <;> rfl

theorem map_concatenation (a : σ) (quasis : List String) (expressions : List (Tree σ)) :
    (concatenation a quasis expressions).map (map f)
      = concatenation (f a) quasis (expressions.map (map f)) :=
  map_sum f a _ expressions _

theorem map_bindThis (a : σ) (bound : Bool) (function : Kind (Tree σ)) :
    (bindThis a bound function).map (map f) = bindThis (f a) bound (function.map (map f)) := by
  cases bound <;> simp [bindThis]

end Parts

theorem map_defaultStep (a : σ) (bound : Bool) (k : Kind (Tree σ)) :
    (defaultStep a bound k).map (map f) = defaultStep (f a) bound (k.map (map f)) := by
  cases hs : k.signature? with
  | none =>
    rw [defaultStep_of_none hs, defaultStep_of_none (by rw [Kind.signature?_map, hs]; rfl)]
  | some signature =>
    obtain ⟨params, body⟩ := signature
    have hs' : (k.map (map f)).signature? = some (params.map (map f), body.map f) := by
      rw [Kind.signature?_map, hs]
      rfl
    rw [defaultStep_of_signature hs, defaultStep_of_signature hs', Kind.withBody_map,
      Kind.withParams_map, map_prepend, map_defaultChecks, List.map_map, List.map_map]
    congr 3
    funext t
    exact map_withoutDefault f t

theorem map_restStep (a : σ) (bound : Bool) (k : Kind (Tree σ)) :
    (restStep a bound k).map (map f) = restStep (f a) bound (k.map (map f)) := by
  cases k with
  | functionDeclaration name params body | functionExpression name params body =>
    simp [restStep, Kind.signature?, Kind.withParams, Kind.withBody, Kind.map, map_withoutRest,
      map_prepend, map_restDeclaration]
  | _ => rfl

/-- What becomes of a node depends on no annotation. -/
theorem map_step (c : Construct) (a : σ) (bound : Bool) (k : Kind (Tree σ)) :
    (c.step a bound k).map (map f) = c.step (f a) bound (k.map (map f)) := by
  cases c with
  | arrowFunction =>
    cases k with
    | arrowFunction params body =>
      rw [Construct.step, arrowStep, map_bindThis, Kind.map, map_ensureBlock]
      rfl
    | _ => rfl
  | conciseMethod | shorthandProperty | blockScope => cases k <;> rfl
  | defaultParam => exact map_defaultStep f a bound k
  | restParam => exact map_restStep f a bound k
  | templateLiteral =>
    cases k with
    | template quasis expressions => exact map_concatenation f a quasis expressions
    | _ => rfl
  | powerOperator =>
    cases k with
    | binary op left right => cases op <;> simp [Construct.step, powerStep, mathPow, Kind.map, map_node]
    | _ => rfl

@[simp] theorem usesThis_map (t : Tree σ) : (t.map f).usesThis = t.usesThis := by
  induction t using induction_on with
  | node a k ih =>
    rw [map_node, usesThis_node, usesThis_node, Kind.map_map]
    exact congrArg thisUsed (Kind.map_congr ih)

theorem map_rebuild (c : Construct) (t : Tree σ) :
    (rebuild c.step t).map f = rebuild c.step (t.map f) := by
  induction t using induction_on with
  | node a k ih =>
    have hany : (k.map (map f)).children.any usesThis = k.children.any usesThis := by
      rw [Kind.children_map, List.any_map]
      exact congrArg k.children.any (funext fun t => usesThis_map f t)
    rw [rebuild_node, map_node, map_step, map_node, rebuild_node, hany, Kind.map_map, Kind.map_map]
    exact congrArg (fun l => node (f a) (c.step (f a) _ l)) (Kind.map_congr ih)

/-- Lowering constructs commutes with changing annotations. -/
theorem map_lowerAll (cs : List Construct) (t : Tree σ) :
    (Construct.lowerAll cs t).map f = Construct.lowerAll cs (t.map f) := by
  induction cs generalizing t with
  | nil => rfl
  | cons c cs ih => exact (ih _).trans (congrArg (Construct.lowerAll cs) (map_rebuild f c t))

theorem shape_lowerAll (cs : List Construct) (t : Tree σ) :
    (Construct.lowerAll cs t).shape = Construct.lowerAll cs t.shape :=
  map_lowerAll _ cs t

end Tree

/-! ## Warnings -/

/-- What a diagnostic says, wherever it points. -/
def Diagnostic.content (d : Diagnostic) : String × String :=
  (d.kind, d.message)

namespace Tree

variable (f : Span → Span)

theorem declaredNames_map (declarators : List (Tree Span)) :
    declaredNames (declarators.map (map f)) = declaredNames declarators := by
  have hname (t : Tree Span) : declaredName? (t.map f).kind = declaredName? t.kind := by
    rw [kind_map]
    cases t.kind <;> rfl
  simp only [declaredNames, List.filterMap_map, Function.comp_def, hname]

theorem content_hoistWarning? (t : Tree Span) :
    (t.map f).hoistWarning?.map Diagnostic.content = t.hoistWarning?.map Diagnostic.content := by
  obtain ⟨a, k⟩ := t
  rw [map_node]
  cases k with
  | declaration keyword declarators =>
    cases keyword <;> simp [Kind.map, hoistWarning?, Diagnostic.content, declaredNames_map]
  | _ => rfl

/-- The warnings about declarations say the same whatever the spans are. -/
theorem content_hoisted (t : Tree Span) (above : List (Kind Unit)) :
    ((t.map f).hoisted above).map Diagnostic.content = (t.hoisted above).map Diagnostic.content := by
  induction t using induction_on generalizing above with
  | node a k ih =>
    have hwarning := content_hoistWarning? f (node a k)
    rw [map_node] at hwarning ⊢
    have houtline : (k.map (map f)).outline = k.outline := Kind.map_map _ _ _
    rw [hoisted_node, hoisted_node, List.map_append, List.map_append, houtline, Kind.children_map,
      List.map_flatMap, List.map_flatMap, List.flatMap_map]
    refine congrArg₂ (· ++ ·) ?_ (List.flatMap_congr fun c hc => ih c hc _)
    rw [← Option.toList_map, ← Option.toList_map]
    split
    · rw [hwarning]
    · rfl

theorem content_hoisted_congr {t u : Tree Span} (h : t.shape = u.shape) (above : List (Kind Unit)) :
    (t.hoisted above).map Diagnostic.content = (u.hoisted above).map Diagnostic.content := by
  -- Both are compared with a tree of the same shape in which all spans are equal.
  have hsame (t : Tree Span) : t.map (fun _ => default) = t.shape.map fun _ => (default : Span) :=
    (map_map (fun _ => ()) (fun _ => default) t).symm
  rw [← content_hoisted (fun _ => default) t, hsame, h, ← hsame, content_hoisted]

end Tree

end Downlevel
