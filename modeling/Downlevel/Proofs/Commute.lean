import Downlevel.Proofs.Lower

/-!
# Steps and the parts they make

What a lowering makes of a node consists of nodes that no lowering touches, over parts of the node. So
rebuilding a tree passes through such parts: it does not matter whether a default is rebuilt in its
parameter or in the check that stands for it (`Tree.rebuild_nullCheck`), nor whether statements are
rebuilt before or after they are put into a function body (`Tree.rebuild_prepend`). A step that takes
parts of a node elsewhere thus gives the same before and after its children are rebuilt
(`Tree.defaultStep_map`, `Tree.restStep_map`).
-/

namespace Downlevel

namespace Kind

variable {α β : Type}

/-- Whether no lowering does anything to nodes of this kind, whatever their children are. -/
@[reducible] def isUntouched : Kind α → Bool
  | declaration .let _ | declaration .const _ | functionDeclaration .. | functionExpression ..
  | arrowFunction .. | property .. | template .. | binary .power _ _ => false
  | _ => true

@[simp] theorem isUntouched_map (f : α → β) (k : Kind α) : (k.map f).isUntouched = k.isUntouched := by
  cases k with
  | declaration keyword _ => cases keyword <;> rfl
  | binary op _ _ => cases op <;> rfl
  | _ => rfl

end Kind

namespace Tree

variable {σ : Type}

/-- A step that leaves untouched nodes alone and never changes where a node may stand. -/
structure Mild (step : Step σ) : Prop where
  untouched : ∀ a bound {k}, k.isUntouched = true → step a bound k = k
  category : ∀ a bound k, (step a bound k).category = k.category
  isBlock : ∀ a bound k, (step a bound k).isBlock = k.isBlock

section Parts

/-! ## Blocks and bodies -/

theorem ensureBlock_of_isBlock {t : Tree σ} (h : t.kind.isBlock = true) : ensureBlock t = t := by
  rw [ensureBlock, if_pos h]

@[simp] theorem isBlock_ensureBlock (t : Tree σ) : (ensureBlock t).kind.isBlock = true := by
  unfold ensureBlock
  split
  · assumption
  · rfl

theorem exists_eq_block {t : Tree σ} (h : t.kind.isBlock = true) : ∃ old, t = node t.ann (.block old) := by
  obtain ⟨a, k⟩ := t
  cases k with
  | block old => exact ⟨old, rfl⟩
  | _ => cases h

@[simp] theorem prepend_nil (body : Tree σ) : prepend [] body = body := rfl

theorem prepend_block {statements : List (Tree σ)} (a : σ) (old : List (Tree σ)) :
    prepend statements (node a (.block old)) = node a (.block (statements ++ old)) := by
  cases statements with
  | nil => rfl
  | cons s statements => rfl

theorem prepend_of_ne_nil {statements : List (Tree σ)} (h : statements ≠ []) (body : Tree σ) :
    prepend statements body = prepend statements (ensureBlock body) := by
  have hempty : ¬ statements.isEmpty = true := by simpa using h
  rw [prepend, prepend, if_neg hempty, if_neg hempty,
    ensureBlock_of_isBlock (isBlock_ensureBlock body)]

theorem prepend_prepend (ss us : List (Tree σ)) (body : Tree σ) :
    prepend ss (prepend us body) = prepend (ss ++ us) body := by
  cases us with
  | nil => simp
  | cons u us =>
    obtain ⟨old, hold⟩ := exists_eq_block (isBlock_ensureBlock body)
    have hne : ss ++ u :: us ≠ [] := by simp
    rw [prepend_of_ne_nil (List.cons_ne_nil u us), prepend_of_ne_nil hne, hold, prepend_block,
      prepend_block, prepend_block, List.append_assoc]

theorem ensureBlock_prepend (statements : List (Tree σ)) (body : Tree σ) :
    ensureBlock (prepend statements body) = prepend statements (ensureBlock body) := by
  cases statements with
  | nil => rfl
  | cons s statements =>
    obtain ⟨old, hold⟩ := exists_eq_block (isBlock_ensureBlock body)
    rw [prepend_of_ne_nil (List.cons_ne_nil s statements), hold, prepend_block,
      ensureBlock_of_isBlock rfl]

theorem isBlock_prepend {statements : List (Tree σ)} {body : Tree σ}
    (h : body.kind.isBlock = true) : (prepend statements body).kind.isBlock = true := by
  obtain ⟨old, hold⟩ := exists_eq_block h
  rw [hold, prepend_block]
  rfl

/-! ## Parameters -/

theorem withoutDefault_of_not_param {t : Tree σ} (h : t.kind.category ≠ .param) :
    withoutDefault t = t := by
  obtain ⟨a, k⟩ := t
  cases k <;> first | rfl | exact absurd rfl h

theorem defaultCheck?_of_not_param {t : Tree σ} (h : t.kind.category ≠ .param) :
    defaultCheck? t = none := by
  obtain ⟨a, k⟩ := t
  cases k <;> first | rfl | exact absurd rfl h

theorem rest?_of_not_param {t : Tree σ} (h : t.kind.category ≠ .param) : rest? t = none := by
  obtain ⟨a, k⟩ := t
  cases k <;> first | rfl | exact absurd rfl h

@[simp] theorem rest?_withoutDefault (t : Tree σ) : rest? (withoutDefault t) = rest? t := by
  obtain ⟨a, k⟩ := t
  cases k with
  | param name fallback rest => cases fallback <;> cases rest <;> rfl
  | _ => rfl

/-- Parameters that are rest parameters in the same places. -/
theorem lastRest?_map {f : Tree σ → Tree σ} (hf : ∀ t, rest? (f t) = rest? t)
    (params : List (Tree σ)) : lastRest? (params.map f) = lastRest? params := by
  rcases List.eq_nil_or_concat params with rfl | ⟨init, last, rfl⟩
  · rfl
  · rw [List.concat_eq_append, List.map_append, List.map_singleton, lastRest?_concat,
      lastRest?_concat, hf]

theorem withoutRest_map {f : Tree σ → Tree σ} (hf : ∀ t, rest? (f t) = rest? t)
    (params : List (Tree σ)) : withoutRest (params.map f) = (withoutRest params).map f := by
  rw [withoutRest, withoutRest, lastRest?_map hf]
  split
  · rw [List.map_dropLast]
  · rfl

theorem restDeclaration_map {f : Tree σ → Tree σ} (hf : ∀ t, rest? (f t) = rest? t)
    (params : List (Tree σ)) : restDeclaration (params.map f) = restDeclaration params := by
  rw [restDeclaration, restDeclaration, lastRest?_map hf, List.length_map]

end Parts

/-! ## Rebuilding parts -/

namespace Mild

variable {step : Step σ} (h : Mild step)

include h

theorem rebuild_untouched (a : σ) {k : Kind (Tree σ)} (hk : k.isUntouched = true) :
    rebuild step (node a k) = node a (k.map (rebuild step)) := by
  rw [rebuild_node, h.untouched a _ (by rwa [Kind.isUntouched_map])]

theorem category_rebuild (t : Tree σ) : (rebuild step t).kind.category = t.kind.category := by
  obtain ⟨a, k⟩ := t
  rw [rebuild_node, kind_node, h.category, Kind.category_map, kind_node]

theorem isBlock_rebuild (t : Tree σ) : (rebuild step t).kind.isBlock = t.kind.isBlock := by
  obtain ⟨a, k⟩ := t
  rw [rebuild_node, kind_node, h.isBlock, Kind.isBlock_map, kind_node]

theorem rebuild_ensureBlock (t : Tree σ) :
    rebuild step (ensureBlock t) = ensureBlock (rebuild step t) := by
  rw [ensureBlock, ensureBlock, h.isBlock_rebuild]
  split
  · rfl
  · rw [h.rebuild_untouched _ rfl, Kind.map, List.map_singleton, h.rebuild_untouched _ rfl,
      ann_rebuild]
    rfl

theorem rebuild_prepend (statements : List (Tree σ)) (body : Tree σ) :
    rebuild step (prepend statements body)
      = prepend (statements.map (rebuild step)) (rebuild step body) := by
  cases statements with
  | nil => rfl
  | cons s statements =>
    obtain ⟨old, hold⟩ := exists_eq_block (isBlock_ensureBlock body)
    rw [prepend_of_ne_nil (List.cons_ne_nil s statements), List.map_cons,
      prepend_of_ne_nil (List.cons_ne_nil _ _) (rebuild step body), ← h.rebuild_ensureBlock, hold,
      prepend_block, h.rebuild_untouched _ rfl, h.rebuild_untouched _ rfl, Kind.map, Kind.map,
      prepend_block, List.map_append, List.map_cons]

theorem rebuild_nullCheck (a : σ) (name : String) (fallback : Tree σ) :
    rebuild step (nullCheck a name fallback) = nullCheck a name (rebuild step fallback) := by
  simp (disch := rfl) only [nullCheck, h.rebuild_untouched, Kind.map, Option.map_none, List.map_cons,
    List.map_nil]

theorem rebuild_sliceArguments (a : σ) (name : String) (index : Nat) :
    rebuild step (sliceArguments a name index) = sliceArguments a name index := by
  simp (disch := rfl) only [sliceArguments, h.rebuild_untouched, Kind.map, Option.map_some,
    List.map_cons, List.map_nil]

theorem rebuild_withoutDefault (t : Tree σ) :
    rebuild step (withoutDefault t) = withoutDefault (rebuild step t) := by
  by_cases hp : t.kind.category = .param
  · obtain ⟨a, k⟩ := t
    cases k with
    | param name fallback rest =>
      cases fallback <;>
        simp (disch := rfl) only [withoutDefault, h.rebuild_untouched, Kind.map, Option.map_none,
          Option.map_some]
    | _ => cases hp
  · rw [withoutDefault_of_not_param hp, withoutDefault_of_not_param (by rwa [h.category_rebuild])]

theorem defaultCheck?_rebuild (t : Tree σ) :
    defaultCheck? (rebuild step t) = (defaultCheck? t).map (rebuild step) := by
  by_cases hp : t.kind.category = .param
  · obtain ⟨a, k⟩ := t
    cases k with
    | param name fallback rest =>
      cases fallback <;>
        simp (disch := rfl) only [defaultCheck?, h.rebuild_untouched, Kind.map, Option.map_none,
          Option.map_some, h.rebuild_nullCheck]
    | _ => cases hp
  · rw [defaultCheck?_of_not_param hp, defaultCheck?_of_not_param (by rwa [h.category_rebuild])]
    rfl

theorem defaultChecks_rebuild (params : List (Tree σ)) :
    defaultChecks (params.map (rebuild step)) = (defaultChecks params).map (rebuild step) := by
  rw [defaultChecks, defaultChecks, List.filterMap_map, List.map_filterMap]
  exact List.filterMap_congr fun t _ => h.defaultCheck?_rebuild t

theorem rest?_rebuild (t : Tree σ) : rest? (rebuild step t) = rest? t := by
  by_cases hp : t.kind.category = .param
  · obtain ⟨a, k⟩ := t
    cases k with
    | param name fallback rest =>
      cases rest <;> simp (disch := rfl) only [rest?, h.rebuild_untouched, Kind.map]
    | _ => cases hp
  · rw [rest?_of_not_param hp, rest?_of_not_param (by rwa [h.category_rebuild])]

theorem rebuild_restDeclaration (params : List (Tree σ)) :
    (restDeclaration params).map (rebuild step) = restDeclaration params := by
  simp [restDeclaration, h.rebuild_sliceArguments]

/-- The defaults of a function are moved the same way before and after they are rebuilt. -/
theorem defaultStep_map (a : σ) (bound : Bool) (k : Kind (Tree σ)) :
    defaultStep a bound (k.map (rebuild step)) = (defaultStep a bound k).map (rebuild step) := by
  cases hk : k.signature? with
  | none =>
    rw [defaultStep_of_none hk, defaultStep_of_none]
    rw [Kind.signature?_map, hk]
    rfl
  | some signature =>
    obtain ⟨params, body⟩ := signature
    have hmap : (k.map (rebuild step)).signature?
        = some (params.map (rebuild step), rebuild step body) := by
      rw [Kind.signature?_map, hk]
      rfl
    rw [defaultStep_of_signature hk, defaultStep_of_signature hmap, Kind.withBody_map,
      Kind.withParams_map, h.rebuild_prepend, h.defaultChecks_rebuild, List.map_map, List.map_map]
    exact congrArg (fun ps => ((k.map (rebuild step)).withParams ps).withBody _)
      (List.map_congr_left fun t _ => (h.rebuild_withoutDefault t).symm)

theorem restStep_map (a : σ) (bound : Bool) (k : Kind (Tree σ)) :
    restStep a bound (k.map (rebuild step)) = (restStep a bound k).map (rebuild step) := by
  cases k with
  | functionDeclaration name params body | functionExpression name params body =>
    simp only [restStep, Kind.map, Kind.signature?, Kind.withParams, Kind.withBody,
      withoutRest_map h.rest?_rebuild, restDeclaration_map h.rest?_rebuild, h.rebuild_prepend,
      h.rebuild_restDeclaration]
  | _ => rfl

end Mild

/-! ## Every step is mild -/

/-- A sum that starts as a string or an addition stays one. -/
theorem sum_cases (a : σ) {total : Kind (Tree σ)}
    (htotal : (∃ s, total = .string s) ∨ ∃ l r, total = .binary .add l r) (es : List (Tree σ))
    (texts : List String) :
    (∃ s, sum a total es texts = .string s) ∨ ∃ l r, sum a total es texts = .binary .add l r := by
  fun_induction sum a total es texts with
  | case1 => exact htotal
  | case2 _ e es ih => exact ih (.inr ⟨_, _, rfl⟩)
  | case3 _ e es text texts _ ih => exact ih (.inr ⟨_, _, rfl⟩)
  | case4 _ e es text texts _ ih => exact ih (.inr ⟨_, _, rfl⟩)

theorem concatenation_cases (a : σ) (quasis : List String) (expressions : List (Tree σ)) :
    (∃ s, concatenation a quasis expressions = .string s) ∨
      ∃ l r, concatenation a quasis expressions = .binary .add l r :=
  sum_cases a (.inl ⟨_, rfl⟩) _ _

end Tree

namespace Construct

open Downlevel.Tree

variable {σ : Type}

theorem step_of_isUntouched (c : Construct) (a : σ) (bound : Bool) {k : Kind (Tree σ)}
    (hk : k.isUntouched = true) : c.step a bound k = k := by
  cases k with
  | declaration keyword _ =>
    cases keyword <;> cases hk
    cases c <;> rfl
  | binary op _ _ => cases op <;> cases hk <;> cases c <;> rfl
  | _ => first | cases hk; done | cases c <;> rfl

theorem category_step (c : Construct) (a : σ) (bound : Bool) (k : Kind (Tree σ)) :
    (c.step a bound k).category = k.category := by
  cases k with
  | arrowFunction _ _ => cases c <;> cases bound <;> rfl
  | binary op _ _ => cases c <;> cases op <;> rfl
  | template quasis expressions =>
    cases c with
    | templateLiteral =>
      rw [step, templateStep]
      rcases concatenation_cases a quasis expressions with ⟨s, h⟩ | ⟨l, r, h⟩ <;> rw [h] <;> rfl
    | _ => rfl
  | _ => cases c <;> rfl

theorem isBlock_step (c : Construct) (a : σ) (bound : Bool) (k : Kind (Tree σ)) :
    (c.step a bound k).isBlock = k.isBlock := by
  cases k with
  | arrowFunction _ _ => cases c <;> cases bound <;> rfl
  | binary op _ _ => cases c <;> cases op <;> rfl
  | template quasis expressions =>
    cases c with
    | templateLiteral =>
      rw [step, templateStep]
      rcases concatenation_cases a quasis expressions with ⟨s, h⟩ | ⟨l, r, h⟩ <;> rw [h] <;> rfl
    | _ => rfl
  | _ => cases c <;> rfl

theorem mild (c : Construct) : Mild (c.step : Step σ) where
  untouched := c.step_of_isUntouched
  category := c.category_step
  isBlock := c.isBlock_step

end Construct

end Downlevel
