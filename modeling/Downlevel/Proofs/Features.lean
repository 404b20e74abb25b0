import Downlevel.Proofs.Shape

/-!
# Constructs of the next dialect in a stored tree

The constructs that a tree uses are those of the nodes that the root leads to, in their order
(`Store.Holds.features_eq`). No lowering brings in a construct that a tree of the grammar's shape did not
use before (`Tree.Shaped.has_of_rebuild`).
-/

namespace Downlevel

/-- The construct is used somewhere in the tree. -/
def Tree.Has {σ : Type} (f : Feature) (t : Tree σ) : Prop :=
  f ∈ t.features.map Prod.snd

/-! ## In a store -/

namespace Store

open Downlevel.Tree

variable {s : Store}

/-- The construct that a node uses by itself, with its place. -/
def featureAt? (s : Store) (id : NodeId) : Option (Span × Feature) :=
  (s.kind id).feature?.map (s.span id, ·)

theorem features_eq_of_owns {t : Tree Label} {depth : Nat} (h : Owns s.nodes t.cells)
    (hdepth : t.height ≤ depth) :
    t.plain.features = (s.preorder depth t.number).filterMap s.featureAt? := by
  induction t using induction_on generalizing depth with
  | node a k ih =>
    obtain ⟨depth, rfl⟩ := Nat.exists_eq_add_of_lt (hdepth.trans_lt' (height_pos _))
    rw [Nat.zero_add] at hdepth ⊢
    have hnode : s.node a.1 = ⟨k.map number, a.2⟩ := by
      rw [cells_node] at h
      exact node_eq h (Multiset.mem_cons_self _ _)
    have hhere : s.featureAt? a.1 = k.feature?.map (a.2, ·) := by
      rw [featureAt?, kind, span, hnode, Kind.feature?_map]
    have hbelow : (k.map plain).children.flatMap features
        = ((s.children a.1).flatMap (s.preorder depth)).filterMap s.featureAt? := by
      rw [children_eq_of_owns h, Kind.children_map, List.filterMap_flatMap, List.flatMap_map,
        List.flatMap_map]
      exact List.flatMap_congr fun c hc =>
        ih c hc (owns_of_mem_children h hc) (height_node_le.mp hdepth c hc)
    rw [plain_node, features_node, Kind.feature?_map, hbelow, ← hhere,
      show (Tree.node a k).number = a.1 from rfl, preorder, List.filterMap_cons]
    cases s.featureAt? a.1 <;> rfl

/-- The constructs of a tree are those of the nodes that the root leads to. -/
theorem Holds.features_eq {t : Tree Label} (h : s.Holds t) :
    t.plain.features = s.reachable.filterMap s.featureAt? := by
  rw [reachable, ← h.1]
  exact features_eq_of_owns h.2 h.height_le

theorem Holds.has_iff {t : Tree Label} (h : s.Holds t) {f : Feature} :
    t.plain.Has f ↔ ∃ id ∈ s.reachable, (s.kind id).feature? = some f := by
  rw [Has, h.features_eq, List.map_filterMap, List.mem_filterMap]
  simp [featureAt?]

end Store

/-! ## In what is read -/

section Read

variable {source : String} {raw : RawTree}

/-- What matches the grammar is still to be looked at for the dialect. -/
theorem parse_of_raw (h : parseRaw source.toList = .ok raw) (dialect : Dialect) :
    parse source dialect = match checkDialect dialect raw with
      | .ok tree => .ok (.ofTree (tree.map (LineIndex.ofText source.toList).span))
      | .error (cause, offset) =>
        .error (.ofPosition cause ((LineIndex.ofText source.toList).position offset)) := by
  unfold parse parseTree
  dsimp only
  rw [h, show (Except.ok raw >>= checkDialect dialect) = checkDialect dialect raw from rfl]
  cases checkDialect dialect raw <;> rfl

theorem parse_next_of_raw (h : parseRaw source.toList = .ok raw) :
    parse source .next = .ok (.ofTree (raw.map (LineIndex.ofText source.toList).span)) := by
  rw [parse_of_raw h, checkDialect_next]

/-- A program of the stable dialect is read as in the next one. -/
theorem parse_stable_of_features (h : parseRaw source.toList = .ok raw) (hfeatures : raw.features = []) :
    parse source .stable = .ok (.ofTree (raw.map (LineIndex.ofText source.toList).span)) := by
  have hcheck : checkDialect .stable raw = .ok raw := by
    unfold checkDialect
    rw [hfeatures]
  rw [parse_of_raw h, hcheck]

/-- Any other program is rejected at the first construct that a reader meets. -/
theorem parse_stable_of_feature (h : parseRaw source.toList = .ok raw) {range : Range} {f : Feature}
    {more : List (Range × Feature)} (hfeatures : raw.features = (range, f) :: more) :
    parse source .stable = .error
      (.ofPosition (.unsupported f) ((LineIndex.ofText source.toList).position range.start)) := by
  have hcheck : checkDialect .stable raw = .error (.unsupported f, range.start) := by
    unfold checkDialect
    rw [hfeatures]
  rw [parse_of_raw h, hcheck]

/-- What is read in the stable dialect has no construct of the next one. -/
theorem features_of_parse_stable {s : Store} (h : parse source .stable = .ok s) :
    ∃ t, s.Holds t ∧ t.plain.features = [] := by
  obtain ⟨raw, hraw, rfl⟩ := exists_raw_of_parse h
  obtain ⟨t, hholds, hplain, -⟩ :=
    Store.exists_holds_ofTree (raw.map (LineIndex.ofText source.toList).span)
  refine ⟨t, hholds, ?_⟩
  rw [hplain, Tree.features_map, List.map_eq_nil_iff]
  cases hfeatures : raw.features with
  | nil => rfl
  | cons first more =>
    rw [parse_stable_of_feature hraw hfeatures] at h
    cases h

end Read

/-! ## In lowered trees -/

namespace Tree

variable {σ : Type}

attribute [local simp] Kind.feature? Kind.children

theorem has_node {f : Feature} {a : σ} {k : Kind (Tree σ)} :
    (node a k).Has f ↔ k.feature? = some f ∨ ∃ d ∈ k.children, d.Has f := by
  rw [Has, features_node, List.map_append, List.mem_append, List.map_flatMap, List.mem_flatMap]
  refine or_congr_left ?_
  cases k.feature? <;> simp [eq_comm]

variable {f : Feature} {a : σ}

@[simp] theorem has_ensureBlock {t : Tree σ} : (ensureBlock t).Has f ↔ t.Has f := by
  unfold ensureBlock
  split
  · rfl
  · simp [has_node]

@[simp] theorem has_prepend {statements : List (Tree σ)} {body : Tree σ} :
    (prepend statements body).Has f ↔ (∃ s ∈ statements, s.Has f) ∨ body.Has f := by
  cases statements with
  | nil => simp [prepend]
  | cons s statements =>
    obtain ⟨old, hold⟩ := exists_eq_block (isBlock_ensureBlock body)
    have hbody : (∃ t ∈ old, t.Has f) ↔ body.Has f := by
      rw [← has_ensureBlock, hold, has_node]
      simp
    rw [prepend_of_ne_nil (List.cons_ne_nil s statements), hold, prepend_block, has_node, ← hbody]
    simp only [Kind.feature?, Kind.children, List.mem_append, or_and_right, exists_or, reduceCtorEq,
      false_or]

@[simp] theorem has_nullCheck {name : String} {fallback : Tree σ} :
    (nullCheck a name fallback).Has f ↔ fallback.Has f := by
  simp [nullCheck, has_node]

@[simp] theorem not_has_sliceArguments {name : String} {index : Nat} :
    ¬ (sliceArguments a name index).Has f := by
  simp [sliceArguments, has_node]

theorem has_of_withoutDefault {t : Tree σ} (h : (withoutDefault t).Has f) : t.Has f := by
  unfold withoutDefault at h
  split at h
  · rename_i a name d rest
    -- A rest parameter counts as one whether it has a default or not.
    cases rest with
    | false => simp [has_node] at h
    | true => exact has_node.mpr (.inl (by simpa [has_node] using h))
  · exact h

theorem has_of_defaultChecks {params : List (Tree σ)} (h : ∃ s ∈ defaultChecks params, s.Has f) :
    ∃ p ∈ params, p.Has f := by
  obtain ⟨s, hs, hf⟩ := h
  obtain ⟨p, hp, hcheck⟩ := List.mem_filterMap.mp hs
  refine ⟨p, hp, ?_⟩
  unfold defaultCheck? at hcheck
  split at hcheck
  · cases hcheck
    exact has_node.mpr (.inr ⟨_, by simp, has_nullCheck.mp hf⟩)
  · cases hcheck

theorem not_has_restDeclaration {params : List (Tree σ)} : ¬ ∃ s ∈ restDeclaration params, s.Has f := by
  rintro ⟨s, hs, hf⟩
  obtain ⟨⟨a, name⟩, -, rfl⟩ := List.mem_map.mp hs
  exact not_has_sliceArguments hf

@[simp] theorem has_sum {total : Kind (Tree σ)} {es : List (Tree σ)} {texts : List String} :
    (node a (sum a total es texts)).Has f ↔ (node a total).Has f ∨ ∃ e ∈ es, e.Has f := by
  fun_induction sum a total es texts with
  | case1 => simp
  | case2 total e es ih | case3 total e es _ _ _ ih | case4 total e es _ _ _ ih =>
    rw [ih]
    simp [has_node (k := .binary ..), has_node (k := .string _), or_assoc]

@[simp] theorem has_bindThis {bound : Bool} {k : Kind (Tree σ)} :
    (node a (bindThis a bound k)).Has f ↔ (node a k).Has f := by
  cases bound with
  | false => rfl
  | true =>
    simp [bindThis, has_node (k := .call ..), has_node (k := .member ..), has_node (k := .this)]

/-- A function with other parameters and another body. -/
theorem has_withSignature {k : Kind (Tree σ)} {params params' : List (Tree σ)} {body body' : Tree σ}
    (hs : k.signature? = some (params, body))
    (hparams : (∃ p ∈ params', p.Has f) → ∃ p ∈ params, p.Has f)
    (hbody : body'.Has f → (∃ p ∈ params, p.Has f) ∨ body.Has f)
    (h : (node a ((k.withParams params').withBody body')).Has f) : (node a k).Has f := by
  have hs' := Kind.signature?_withBody (Kind.signature?_withParams hs params') body'
  have hfeature : ((k.withParams params').withBody body').feature? = k.feature? := by
    cases k <;> rfl
  have hchildren {l : List (Tree σ)} {t : Tree σ} :
      (∃ d ∈ l ++ [t], d.Has f) ↔ (∃ p ∈ l, p.Has f) ∨ t.Has f := by
    simp [or_and_right, exists_or]
  rw [has_node, hfeature, Kind.children_of_signature hs', hchildren] at h
  rw [has_node, Kind.children_of_signature hs, hchildren]
  exact h.imp_right fun h => h.elim (fun h => .inl (hparams h)) hbody

/-- A step uses only constructs that the node it is taken from used. -/
theorem has_of_step (c : Construct) {bound : Bool} {k : Kind (Tree σ)} (hk : (node a k).Shaped)
    (h : (node a (c.step a bound k)).Has f) : (node a k).Has f := by
  cases c with
  | defaultParam =>
    cases hs : k.signature? with
    | none => rwa [Construct.step, defaultStep_of_none hs] at h
    | some signature =>
      obtain ⟨params, body⟩ := signature
      rw [Construct.step, defaultStep_of_signature hs] at h
      refine has_withSignature hs ?_ (fun hbody => ?_) h
      · rintro ⟨p, hp, hf⟩
        obtain ⟨q, hq, rfl⟩ := List.mem_map.mp hp
        exact ⟨q, hq, has_of_withoutDefault hf⟩
      · exact (has_prepend.mp hbody).imp_left has_of_defaultChecks
  | restParam =>
    cases k with
    | functionDeclaration name params body | functionExpression name params body =>
      refine has_withSignature (k := _) rfl ?_ (fun hbody => ?_) h
      · rintro ⟨p, hp, hf⟩
        exact ⟨p, withoutRest_subset params hp, hf⟩
      · exact .inr ((has_prepend.mp hbody).resolve_left not_has_restDeclaration)
    | _ => exact h
  | arrowFunction =>
    cases k with
    | arrowFunction params body =>
      have hfunction := has_node.mp (has_bindThis.mp h)
      refine has_node.mpr (.inr ?_)
      simpa [or_and_right, exists_or] using hfunction
    | _ => exact h
  | conciseMethod =>
    cases k with
    | property key value shorthand method =>
      rw [Construct.step, conciseStep, has_node] at h
      refine has_node.mpr (h.imp_left fun h => ?_)
      cases shorthand with
      | true => exact h
      | false => cases h
    | _ => exact h
  | shorthandProperty =>
    cases k with
    | property key value shorthand method =>
      rw [Construct.step, shorthandStep, has_node] at h
      refine has_node.mpr (h.imp_left fun h => ?_)
      -- A property that was shorthand and a method at once would be a method from now on.
      cases shorthand with
      | false => exact h
      | true =>
        cases method with
        | false => cases h
        | true =>
          have here := (shaped_node.mp hk).1
          simp only [Kind.map, Kind.shaped, Bool.and_eq_true, Bool.or_eq_true, decide_eq_true_eq] at here
          have hname := Kind.isExpression_of_identifierName? (here.1.resolve_left (by simp))
          rw [hname] at here
          cases here.2.resolve_left (by simp)
    | _ => exact h
  | templateLiteral =>
    cases k with
    | template quasis expressions =>
      rw [Construct.step, templateStep, concatenation, has_sum] at h
      refine has_node.mpr (.inr (h.resolve_left ?_))
      simp [has_node]
    | _ => exact h
  | powerOperator =>
    cases k with
    | binary op left right =>
      cases op with
      | power =>
        refine has_node.mpr (.inr ?_)
        simpa [Construct.step, powerStep, mathPow, has_node (k := .call ..), has_node (k := .member ..),
          has_node (k := .identifier _)] using h
      | _ => exact h
    | _ => exact h
  | blockScope =>
    cases k with
    | declaration keyword declarators =>
      exact has_node.mpr (.inr ((has_node.mp h).resolve_left fun hnone => by cases hnone))
    | _ => exact h

/-- No lowering brings in a construct. -/
theorem Shaped.has_of_rebuild {t : Tree σ} (h : t.Shaped) (c : Construct)
    (hf : (rebuild c.step t).Has f) : t.Has f := by
  induction t using Tree.induction_on with
  | node a k ih =>
    obtain ⟨here, below⟩ := shaped_node.mp h
    have hmap : (node a (k.map (rebuild c.step))).Shaped :=
      c.each_map_rebuild Kind.shaped_serves here fun d hd => c.shaped_rebuild (below d hd)
    rw [rebuild_node] at hf
    have hbefore := has_node.mp (has_of_step c hmap hf)
    rw [Kind.feature?_map, Kind.children_map] at hbefore
    refine has_node.mpr (hbefore.imp_right ?_)
    rintro ⟨_, hmem, hf⟩
    obtain ⟨d, hd, rfl⟩ := List.mem_map.mp hmem
    exact ⟨d, hd, ih d hd (below d hd) hf⟩

end Tree

end Downlevel
