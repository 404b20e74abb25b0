import Mathlib.Data.List.Induction
import Downlevel.Proofs.Commute

/-!
# Lowerings one after another

Lowering one construct after another amounts to one recursion over the tree that lowers all of them
(`Construct.lowerAll_eq_rebuild`), as long as each construct is lowered once and rest parameters come
after arrow functions and defaults. If all constructs are lowered, that recursion is `Tree.lower`
(`Construct.lowerAll_eq_lower`), so the order does not matter otherwise.
-/

namespace Downlevel

namespace Tree

variable {σ : Type}

/-! ## Uses of `this` -/

attribute [local simp] thisUsed Kind.map Kind.children

theorem usesThis_ensureBlock (t : Tree σ) : (ensureBlock t).usesThis = t.usesThis := by
  unfold ensureBlock
  split
  · rfl
  · simp

theorem usesThis_prepend (statements : List (Tree σ)) (body : Tree σ) :
    (prepend statements body).usesThis = (statements.any usesThis || body.usesThis) := by
  cases statements with
  | nil => rfl
  | cons s statements =>
    obtain ⟨old, hold⟩ := exists_eq_block (isBlock_ensureBlock body)
    rw [prepend_of_ne_nil (List.cons_ne_nil s statements), ← usesThis_ensureBlock body, hold,
      prepend_block]
    simp [Bool.or_assoc]

theorem usesThis_nullCheck (a : σ) (name : String) (fallback : Tree σ) :
    (nullCheck a name fallback).usesThis = fallback.usesThis := by
  simp [nullCheck]

/-- What a parameter uses is used by what is left of it or by the check for its default. -/
theorem any_usesThis_params (params : List (Tree σ)) :
    ((params.map withoutDefault).any usesThis || (defaultChecks params).any usesThis)
      = params.any usesThis := by
  induction params with
  | nil => rfl
  | cons p params ih =>
    rw [List.any_cons, ← ih]
    obtain ⟨a, k⟩ := p
    cases k with
    | param name fallback rest =>
      cases fallback with
      | none => simp [defaultChecks, defaultCheck?, withoutDefault]
      | some d =>
        simp [defaultChecks, defaultCheck?, withoutDefault, usesThis_nullCheck, Bool.or_left_comm]
    | _ => simp [defaultChecks, defaultCheck?, withoutDefault, Bool.or_assoc]

theorem usesThis_defaultStep (a : σ) (bound : Bool) (k : Kind (Tree σ)) :
    (node a (defaultStep a bound k)).usesThis = (node a k).usesThis := by
  cases k with
  | arrowFunction params body =>
    have hfunction : ∀ (params : List (Tree σ)) body,
        (node a (.arrowFunction params body)).usesThis = (params.any usesThis || body.usesThis) :=
      fun params body => by simp
    rw [defaultStep_of_signature rfl, Kind.withParams, Kind.withBody, hfunction, hfunction,
      usesThis_prepend, ← Bool.or_assoc, any_usesThis_params]
  | _ => rfl

theorem usesThis_sum (a : σ) (total : Kind (Tree σ)) (es : List (Tree σ)) (texts : List String) :
    (node a (sum a total es texts)).usesThis = ((node a total).usesThis || es.any usesThis) := by
  have hadd : ∀ l r : Tree σ,
      (node a (.binary .add l r)).usesThis = (l.usesThis || r.usesThis) := fun l r => by
    simp
  fun_induction sum a total es texts with
  | case1 => simp
  | case2 total e es ih | case3 total e es _ _ _ ih =>
    rw [ih, hadd, List.any_cons, Bool.or_assoc]
  | case4 total e es text texts _ ih =>
    rw [ih, hadd, hadd, List.any_cons, Bool.or_assoc, Bool.or_assoc]
    rfl

end Tree

namespace Construct

open Downlevel.Tree

variable {σ : Type}

theorem usesThis_step (c : Construct) (a : σ) (k : Kind (Tree σ)) :
    (node a (c.step a (k.children.any usesThis) k)).usesThis = (node a k).usesThis := by
  by_cases hk : k.isUntouched = true
  · rw [c.step_of_isUntouched a _ hk]
  · cases c with
    | defaultParam => exact usesThis_defaultStep a (k.children.any usesThis) k
    | restParam => cases k <;> rfl
    | arrowFunction =>
      cases k with
      | arrowFunction params body =>
        have hnode : (node a (.arrowFunction params body)).usesThis
            = (Kind.arrowFunction params body).children.any usesThis := by
          simp [thisUsed, Kind.map, Kind.children]
        rw [step, arrowStep, hnode]
        cases (Kind.arrowFunction params body).children.any usesThis <;>
          simp [bindThis, thisUsed, Kind.map, Kind.children]
      | _ => rfl
    | templateLiteral =>
      cases k with
      | template quasis expressions =>
        simp only [step, templateStep, concatenation, usesThis_sum]
        simp [thisUsed, Kind.map, Kind.children]
      | _ => rfl
    | powerOperator =>
      cases k with
      | binary op left right =>
        cases op <;> rfl
      | _ => rfl
    | conciseMethod | shorthandProperty | blockScope => cases k <;> rfl

theorem usesThis_rebuild (c : Construct) (t : Tree σ) : (rebuild c.step t).usesThis = t.usesThis := by
  induction t using induction_on with
  | node a k ih =>
    have hany : (k.map (rebuild c.step)).children.any usesThis = k.children.any usesThis := by
      rw [Kind.children_map, List.any_map, Bool.eq_iff_iff, List.any_eq_true, List.any_eq_true]
      exact exists_congr fun d => and_congr_right fun hd => by rw [Function.comp_apply, ih d hd]
    rw [rebuild_node, ← hany, usesThis_step, usesThis_node, usesThis_node, Kind.map_map,
      Kind.map_congr ih]

end Construct

namespace Tree

variable {σ : Type}

/-! ## Lowering some constructs -/

section Stage

variable (done : List Construct)

/-- The parameters of a function, where some constructs are lowered. -/
def stageParams (params : List (Tree σ)) : List (Tree σ) :=
  let params := if .restParam ∈ done then withoutRest params else params
  if .defaultParam ∈ done then params.map withoutDefault else params

/-- What comes first in the body of a function, where some constructs are lowered. -/
def stagePrologue (params : List (Tree σ)) : List (Tree σ) :=
  (if .restParam ∈ done then restDeclaration params else [])
    ++ if .defaultParam ∈ done then defaultChecks params else []

/-- A function with its parameters lowered as far as they are. -/
def stageFunction (k : Kind (Tree σ)) : Kind (Tree σ) :=
  match k.signature? with
  | none => k
  | some (params, body) =>
    (k.withParams (stageParams done params)).withBody (prepend (stagePrologue done params) body)

/-- What becomes of a node where some constructs are lowered. -/
def stageStep : Step σ
  | _, _, .declaration keyword declarators =>
    .declaration (if .blockScope ∈ done then .var else keyword) declarators
  | a, bound, .arrowFunction params body =>
    if .arrowFunction ∈ done then
      bindThis a bound (stageFunction done (.functionExpression none params (ensureBlock body)))
    else stageFunction done (.arrowFunction params body)
  | _, _, .property key value shorthand method =>
    .property key value (if .shorthandProperty ∈ done then false else shorthand)
      (if .conciseMethod ∈ done then false else method)
  | a, _, .template quasis expressions =>
    if .templateLiteral ∈ done then concatenation a quasis expressions
    else .template quasis expressions
  | a, _, .binary .power left right =>
    if .powerOperator ∈ done then mathPow a left right else .binary .power left right
  | _, _, k => stageFunction done k

end Stage

theorem stageFunction_of_none {done : List Construct} {k : Kind (Tree σ)} (h : k.signature? = none) :
    stageFunction done k = k := by
  rw [stageFunction, h]

theorem stageFunction_of_signature {done : List Construct} {k : Kind (Tree σ)}
    {params : List (Tree σ)} {body : Tree σ} (h : k.signature? = some (params, body)) :
    stageFunction done k = (k.withParams (stageParams done params)).withBody
      (prepend (stagePrologue done params) body) := by
  rw [stageFunction, h]

theorem stageStep_nil (a : σ) (bound : Bool) (k : Kind (Tree σ)) : stageStep [] a bound k = k := by
  have hfunction : stageFunction [] k = k := by
    cases h : k.signature? with
    | none => exact stageFunction_of_none h
    | some signature =>
      rw [stageFunction_of_signature h]
      simp [stageParams, stagePrologue, Kind.withParams_self h, Kind.withBody_self h]
  cases k with
  | binary op => cases op <;> rfl
  | functionDeclaration | functionExpression | arrowFunction => exact hfunction
  | _ => rfl

/-- Where all constructs are lowered, nothing else is to be done. -/
theorem stageStep_of_all {done : List Construct} (h : ∀ c, c ∈ done) :
    (stageStep done : Step σ) = lowerStep := by
  have hparams : (stageParams done : List (Tree σ) → List (Tree σ)) = lowerParams := by
    funext params
    simp [stageParams, lowerParams, h]
  have hprologue : (stagePrologue done : List (Tree σ) → List (Tree σ)) = prologue := by
    funext params
    simp [stagePrologue, prologue, h]
  funext a bound k
  cases k with
  | binary op => cases op <;> simp [stageStep, lowerStep, h, stageFunction, Kind.signature?]
  | _ =>
    simp [stageStep, lowerStep, h, stageFunction, Kind.signature?, Kind.withParams, Kind.withBody,
      hparams, hprologue, ensureBlock_prepend]

/-! ## Lowering one more construct -/

namespace Mild

variable {step : Step σ} (h : Mild step)

include h

theorem stageParams_map (done : List Construct) (params : List (Tree σ)) :
    (stageParams done params).map (rebuild step) = stageParams done (params.map (rebuild step)) := by
  have hdefault : ∀ ps : List (Tree σ), (ps.map withoutDefault).map (rebuild step)
      = (ps.map (rebuild step)).map withoutDefault := fun ps => by
    rw [List.map_map, List.map_map]
    exact List.map_congr_left fun t _ => h.rebuild_withoutDefault t
  simp only [stageParams, withoutRest_map h.rest?_rebuild]
  split <;> split <;> simp only [hdefault]

theorem stagePrologue_map (done : List Construct) (params : List (Tree σ)) :
    (stagePrologue done params).map (rebuild step)
      = stagePrologue done (params.map (rebuild step)) := by
  simp only [stagePrologue, restDeclaration_map h.rest?_rebuild, h.defaultChecks_rebuild,
    List.map_append]
  split <;> split <;> simp [h.rebuild_restDeclaration]

theorem stageFunction_map (done : List Construct) (k : Kind (Tree σ)) :
    (stageFunction done k).map (rebuild step) = stageFunction done (k.map (rebuild step)) := by
  cases hk : k.signature? with
  | none =>
    rw [stageFunction_of_none hk, stageFunction_of_none]
    rw [Kind.signature?_map, hk]
    rfl
  | some signature =>
    obtain ⟨params, body⟩ := signature
    have hmap : (k.map (rebuild step)).signature?
        = some (params.map (rebuild step), rebuild step body) := by
      rw [Kind.signature?_map, hk]
      rfl
    rw [stageFunction_of_signature hk, stageFunction_of_signature hmap, Kind.withBody_map,
      Kind.withParams_map, h.rebuild_prepend, h.stageParams_map, h.stagePrologue_map]

theorem rebuild_sum (a : σ) (total : Kind (Tree σ)) (htotal : total.isUntouched = true)
    (es : List (Tree σ)) (texts : List String) :
    rebuild step (node a (sum a total es texts))
      = node a (sum a (total.map (rebuild step)) (es.map (rebuild step)) texts) := by
  fun_induction sum a total es texts with
  | case1 => exact h.rebuild_untouched a htotal
  | case2 total e es ih =>
    rw [ih rfl, Kind.map, h.rebuild_untouched a htotal]
    rfl
  | case3 total e es text texts hempty ih =>
    rw [ih rfl, Kind.map, h.rebuild_untouched a htotal, List.map_cons, sum, if_pos hempty]
  | case4 total e es text texts hempty ih =>
    rw [ih rfl, List.map_cons, sum, if_neg hempty]
    simp (disch := first | rfl | exact htotal) only [Kind.map, h.rebuild_untouched]

theorem rebuild_concatenation (a : σ) (quasis : List String) (es : List (Tree σ)) :
    rebuild step (node a (concatenation a quasis es))
      = node a (concatenation a quasis (es.map (rebuild step))) :=
  h.rebuild_sum a _ rfl es _

theorem rebuild_mathPow (a : σ) (base exponent : Tree σ) :
    rebuild step (node a (mathPow a base exponent))
      = node a (mathPow a (rebuild step base) (rebuild step exponent)) := by
  simp (disch := rfl) only [mathPow, h.rebuild_untouched, Kind.map, List.map_cons, List.map_nil]

theorem rebuild_bindThis (a : σ) (bound : Bool) {k k' : Kind (Tree σ)}
    (hk : rebuild step (node a k) = node a k') :
    rebuild step (node a (bindThis a bound k)) = node a (bindThis a bound k') := by
  cases bound with
  | false => exact hk
  | true =>
    simp (disch := rfl) only [bindThis, if_true, h.rebuild_untouched, Kind.map, List.map_cons,
      List.map_nil, hk]

end Mild

end Tree

namespace Construct

open Downlevel.Tree

variable {σ : Type}

/-- A construct may be lowered after others: rest parameters after arrow functions and defaults, and
each construct once. -/
structure Follows (done : List Construct) (c : Construct) : Prop where
  new : c ∉ done
  rest : c = .restParam → .arrowFunction ∈ done ∧ .defaultParam ∈ done
  before : .restParam ∈ done → c ≠ .arrowFunction ∧ c ≠ .defaultParam

section Follows

variable {done : List Construct} {c : Construct}

theorem mem_append_iff {d : Construct} (h : d ≠ c) : d ∈ done ++ [c] ↔ d ∈ done := by
  simp [h]

/-- Lowering another construct changes nothing about functions, unless it is one of theirs. -/
theorem stageFunction_append (hd : c ≠ .defaultParam) (hr : c ≠ .restParam) (k : Kind (Tree σ)) :
    stageFunction (done ++ [c]) k = stageFunction done k := by
  simp only [stageFunction, stageParams, stagePrologue, mem_append_iff hd.symm,
    mem_append_iff hr.symm]

theorem step_stageFunction (h : Follows done c) {a : σ} {bound : Bool} {k : Kind (Tree σ)}
    (hk : (∀ params body, k ≠ .arrowFunction params body) ∨ c ≠ .arrowFunction ∧ c ≠ .restParam)
    (hs : k.signature?.isSome = true) :
    c.step a bound (stageFunction done k) = stageFunction (done ++ [c]) k := by
  obtain ⟨⟨params, body⟩, hs⟩ := Option.isSome_iff_exists.mp hs
  cases c with
  | defaultParam =>
    have hrest : .restParam ∉ done := fun hr => (h.before hr).2 rfl
    have hdone : stageFunction done k = k := by
      simp [stageFunction_of_signature hs, stageParams, stagePrologue, hrest, h.new,
        Kind.withParams_self hs, Kind.withBody_self hs]
    rw [hdone, step, defaultStep_of_signature hs, stageFunction_of_signature hs]
    simp [stageParams, stagePrologue, hrest]
  | restParam =>
    obtain ⟨-, hdefault⟩ := h.rest rfl
    cases k with
    | functionDeclaration | functionExpression =>
      simp [step, stageFunction, restStep, stageParams, stagePrologue, Kind.signature?,
        Kind.withParams, Kind.withBody, h.new, hdefault, withoutRest_map rest?_withoutDefault,
        restDeclaration_map rest?_withoutDefault, prepend_prepend]
    | arrowFunction params body =>
      exact absurd rfl (hk.elim (fun h => absurd rfl (h params body)) fun h => h.2)
    | _ => cases hs
  | arrowFunction =>
    refine .trans ?_ (stageFunction_append (by decide) (by decide) k).symm
    cases k with
    | functionDeclaration | functionExpression => rfl
    | arrowFunction params body =>
      exact absurd rfl (hk.elim (fun h => absurd rfl (h params body)) fun h => h.1)
    | _ => cases hs
  | _ =>
    refine .trans ?_ (stageFunction_append (by decide) (by decide) k).symm
    cases k with
    | functionDeclaration | functionExpression | arrowFunction => rfl
    | _ => cases hs

theorem rebuild_stageFunction (h : Follows done c) (a : σ) (k : Kind (Tree σ))
    (hk : (∀ params body, k ≠ .arrowFunction params body) ∨ c ≠ .arrowFunction ∧ c ≠ .restParam)
    (hs : k.signature?.isSome = true) :
    rebuild c.step (node a (stageFunction done k))
      = node a (stageFunction (done ++ [c]) (k.map (rebuild c.step))) := by
  rw [rebuild_node, c.mild.stageFunction_map]
  refine congrArg (node a) (step_stageFunction h ?_ ?_)
  · refine hk.imp_left fun hk params body => ?_
    cases k with
    | arrowFunction params body => exact absurd rfl (hk params body)
    | _ => nofun
  · rw [Kind.signature?_map, Option.isSome_map, hs]

theorem any_usesThis_stageFunction (hrest : .restParam ∉ done) (params : List (Tree σ))
    (body : Tree σ) :
    (stageFunction done (.arrowFunction params body)).children.any usesThis
      = (Kind.arrowFunction params body).children.any usesThis := by
  have hparams := any_usesThis_params params
  rw [stageFunction_of_signature rfl]
  by_cases hdefault : .defaultParam ∈ done
  · simp [stageParams, stagePrologue, hrest, hdefault, Kind.withParams, Kind.withBody, Kind.children,
      usesThis_prepend, ← hparams, Bool.or_assoc]
  · simp [stageParams, stagePrologue, hrest, hdefault, Kind.withParams, Kind.withBody, Kind.children]

theorem rebuild_stageStep_arrowFunction (h : Follows done c) (a : σ) (params : List (Tree σ))
    (body : Tree σ) :
    rebuild c.step (node a (stageStep done a
        ((Kind.arrowFunction params body).children.any usesThis) (.arrowFunction params body)))
      = node a (stageStep (done ++ [c]) a ((Kind.arrowFunction params body).children.any usesThis)
        (.arrowFunction (params.map (rebuild c.step)) (rebuild c.step body))) := by
  by_cases harrow : .arrowFunction ∈ done
  · rw [stageStep, stageStep, if_pos harrow, if_pos (List.mem_append_left _ harrow)]
    refine c.mild.rebuild_bindThis a _ ?_
    rw [rebuild_stageFunction h a (.functionExpression none params (ensureBlock body))
      (.inl fun _ _ => nofun) rfl, Kind.map, c.mild.rebuild_ensureBlock]
  · have hrest : c ≠ .restParam := fun hc => harrow (h.rest hc).1
    by_cases hc : c = .arrowFunction
    · subst hc
      have hdone : .restParam ∉ done := fun hr => (h.before hr).1 rfl
      rw [stageStep, stageStep, if_neg harrow, if_pos (by simp),
        stageFunction_append (by decide) (by decide), rebuild_node,
        any_usesThis_stageFunction hdone, arrowFunction.mild.stageFunction_map, Kind.map,
        stageFunction_of_signature rfl, stageFunction_of_signature rfl]
      simp only [step, arrowStep, Kind.withParams, Kind.withBody, ensureBlock_prepend]
    · rw [stageStep, stageStep, if_neg harrow, if_neg (by simp [harrow, Ne.symm hc])]
      exact rebuild_stageFunction h a _ (.inr ⟨hc, hrest⟩) rfl

attribute [local simp] step arrowStep conciseStep defaultStep restStep shorthandStep templateStep
  powerStep scopeStep Kind.signature?

/-- Lowering one more construct at a node whose parts have been lowered so far. -/
theorem rebuild_stageStep (h : Follows done c) (a : σ) (k : Kind (Tree σ)) :
    rebuild c.step (node a (stageStep done a (k.children.any usesThis) k))
      = node a (stageStep (done ++ [c]) a (k.children.any usesThis) (k.map (rebuild c.step))) := by
  have huntouched : ∀ {l : Kind (Tree σ)}, l.isUntouched = true →
      rebuild c.step (node a l) = node a (l.map (rebuild c.step)) := c.mild.rebuild_untouched a
  cases k with
  | functionDeclaration name params body =>
    exact rebuild_stageFunction h a (.functionDeclaration name params body) (.inl fun _ _ => nofun) rfl
  | functionExpression name params body =>
    exact rebuild_stageFunction h a (.functionExpression name params body) (.inl fun _ _ => nofun) rfl
  | arrowFunction params body => exact rebuild_stageStep_arrowFunction h a params body
  | declaration keyword declarators =>
    rw [stageStep, rebuild_node, Kind.map, Kind.map, stageStep]
    refine congrArg (node a) ?_
    cases c <;> simp
  | property key value shorthand method =>
    rw [stageStep, rebuild_node, Kind.map, Kind.map, stageStep]
    refine congrArg (node a) ?_
    cases c <;> simp
  | template quasis expressions =>
    by_cases hdone : .templateLiteral ∈ done
    · rw [stageStep, if_pos hdone, c.mild.rebuild_concatenation, Kind.map, stageStep,
        if_pos (List.mem_append_left _ hdone)]
    · rw [stageStep, if_neg hdone, rebuild_node, Kind.map, stageStep]
      cases c <;> simp [hdone]
  | binary op left right =>
    cases op with
    | power =>
      by_cases hdone : .powerOperator ∈ done
      · rw [stageStep, if_pos hdone, c.mild.rebuild_mathPow, Kind.map, stageStep,
          if_pos (List.mem_append_left _ hdone)]
      · rw [stageStep, if_neg hdone, rebuild_node, Kind.map, stageStep]
        cases c <;> simp [hdone]
    | _ => exact huntouched rfl
  | _ => exact huntouched rfl

end Follows

/-! ## Lowering constructs one after another -/

/-- Every construct of the list may be lowered after those before it. -/
def InOrder (cs : List Construct) : Prop :=
  ∀ done c rest, cs = done ++ c :: rest → Follows done c

/-- A tree with the constructs of a list lowered one after another. -/
def lowerAll (cs : List Construct) (t : Tree σ) : Tree σ :=
  cs.foldl (fun t c => rebuild c.step t) t

theorem lowerAll_concat (cs : List Construct) (c : Construct) (t : Tree σ) :
    lowerAll (cs ++ [c]) t = rebuild c.step (lowerAll cs t) := by
  simp [lowerAll]

theorem InOrder.of_concat {cs : List Construct} {c : Construct} (h : InOrder (cs ++ [c])) :
    InOrder cs ∧ Follows cs c :=
  ⟨fun done d rest hcs => h done d (rest ++ [c]) (by simp [hcs]), h cs c [] rfl⟩

theorem usesThis_lowerAll (cs : List Construct) (t : Tree σ) :
    (lowerAll cs t).usesThis = t.usesThis := by
  induction cs generalizing t with
  | nil => rfl
  | cons c cs ih => exact (ih _).trans (c.usesThis_rebuild t)

theorem rebuild_id {step : Step σ} (h : ∀ a bound k, step a bound k = k) (t : Tree σ) :
    rebuild step t = t := by
  induction t using induction_on with
  | node a k ih => rw [rebuild_node, h, Kind.map_congr ih, Kind.map_id]

/-- Lowering one construct after another is one recursion over the tree. -/
theorem lowerAll_eq_rebuild {cs : List Construct} (h : InOrder cs) (t : Tree σ) :
    lowerAll cs t = rebuild (stageStep cs) t := by
  induction cs using List.reverseRecOn generalizing t with
  | nil => exact (rebuild_id stageStep_nil t).symm
  | append_singleton cs c ih =>
    obtain ⟨hcs, hc⟩ := h.of_concat
    have hthis : ∀ u : Tree σ, (rebuild (stageStep cs) u).usesThis = u.usesThis := fun u => by
      rw [← ih hcs u, usesThis_lowerAll]
    rw [lowerAll_concat, ih hcs t]
    induction t using induction_on with
    | node a k ihk =>
      have hany : k.children.any usesThis
          = (k.map (rebuild (stageStep cs))).children.any usesThis := by
        rw [Kind.children_map, List.any_map]
        exact congrArg k.children.any (funext fun u => (hthis u).symm)
      rw [rebuild_node (stageStep cs), rebuild_node (stageStep (cs ++ [c])), hany,
        rebuild_stageStep hc, Kind.map_map, Kind.map_congr ihk]

/-- In whatever order all constructs are lowered, the result is the same. -/
theorem lowerAll_eq_lower {cs : List Construct} (h : InOrder cs) (hall : ∀ c, c ∈ cs) (t : Tree σ) :
    lowerAll cs t = lower t := by
  rw [lowerAll_eq_rebuild h, stageStep_of_all hall, lower]

/-- In a sequence with no construct twice, what comes before a construct is in front of it. -/
theorem mem_of_sublist {done rest : List Construct} {c d : Construct}
    (hnodup : (done ++ c :: rest).Nodup) (h : [d, c].Sublist (done ++ c :: rest)) : d ∈ done := by
  have hnew : c ∉ done ∧ c ∉ rest := by
    have hperm := (List.nodup_cons.mp (List.perm_middle.nodup_iff.mp hnodup)).1
    simpa using hperm
  obtain ⟨xs, ys, hsplit, hd, hc⟩ := List.append_sublist_iff.mp (show ([d] ++ [c]).Sublist _ from h)
  obtain ⟨us, vs, rfl⟩ := List.append_of_mem (List.singleton_sublist.mp hc)
  rw [← List.append_assoc] at hsplit
  obtain ⟨rfl, -⟩ := (List.append_cons_inj_of_notMem hnew.1 hnew.2).mp hsplit
  exact List.mem_append_left us (List.singleton_sublist.mp hd)

/-- Each construct once, and rest parameters after arrow functions and defaults. -/
theorem inOrder_of_nodup {cs : List Construct} (hnodup : cs.Nodup)
    (harrow : [.arrowFunction, .restParam].Sublist cs)
    (hdefault : [.defaultParam, .restParam].Sublist cs) : InOrder cs := by
  rintro done c rest rfl
  have hnew : c ∉ done := by
    rw [List.perm_middle.nodup_iff, List.nodup_cons] at hnodup
    exact fun h => hnodup.1 (List.mem_append_left _ h)
  have hbefore {d : Construct} (hd : [d, .restParam].Sublist (done ++ c :: rest))
      (hrest : .restParam ∈ done) : c ≠ d := by
    rintro rfl
    obtain ⟨xs, ys, rfl⟩ := List.append_of_mem hrest
    rw [List.append_assoc, List.cons_append] at hnodup hd
    exact hnew (List.mem_append_left _ (mem_of_sublist hnodup hd))
  refine ⟨hnew, ?_, fun hrest => ⟨hbefore harrow hrest, hbefore hdefault hrest⟩⟩
  rintro rfl
  exact ⟨mem_of_sublist hnodup harrow, mem_of_sublist hnodup hdefault⟩

end Construct

end Downlevel
