import Downlevel.Proofs.Preserve

/-!
# Conditions on nodes, in trees that lowerings make

New trees are put together from nodes that no lowering touches. So a condition on single nodes that
such nodes always meet (`Tree.Lenient`) holds everywhere in a new tree if it holds in its parts.
-/

namespace Downlevel.Tree

variable {σ : Type}

theorem Each.mono {P Q : Kind (Kind (Tree σ)) → Prop} {t : Tree σ} (h : Each P t) (hPQ : ∀ k, P k → Q k) :
    Each Q t := by
  induction h with
  | node here _ ih => exact .node (hPQ _ here) ih

/-- Whether no lowering touches a node, and what it assigns to, if it does, can be assigned to. -/
@[reducible] def isPlain : Kind (Tree σ) → Bool
  | .assign target _ => target.kind.isPlace
  | k => k.isUntouched

/-- A condition that every plain node meets. -/
def Lenient (P : Kind (Kind (Tree σ)) → Prop) : Prop :=
  ∀ k : Kind (Tree σ), isPlain k = true → P (k.map kind)

section Lenient

variable {P : Kind (Kind (Tree σ)) → Prop} (hP : Lenient P) {a : σ}

include hP

/-- A plain node adds nothing to what its parts must be like. -/
theorem each_of_isPlain {k : Kind (Tree σ)} (hk : isPlain k = true) :
    Each P (node a k) ↔ ∀ d ∈ k.children, Each P d :=
  ⟨fun h => (each_node.mp h).2, fun h => each_node.mpr ⟨hP k hk, h⟩⟩

theorem each_ensureBlock {t : Tree σ} (h : Each P t) : Each P (ensureBlock t) := by
  unfold ensureBlock
  split
  · exact h
  · simp (disch := rfl) [each_of_isPlain hP, Kind.children, h]

theorem each_prepend {statements : List (Tree σ)} {body : Tree σ}
    (hs : ∀ s ∈ statements, Each P s) (h : Each P body) : Each P (prepend statements body) := by
  cases statements with
  | nil => exact h
  | cons s statements =>
    obtain ⟨old, hold⟩ := exists_eq_block (isBlock_ensureBlock body)
    have hblock := each_ensureBlock hP h
    rw [prepend_of_ne_nil (List.cons_ne_nil s statements)]
    rw [hold] at hblock ⊢
    rw [prepend_block]
    refine (each_of_isPlain hP rfl).mpr fun t ht => ?_
    rcases List.mem_append.mp ht with ht | ht
    · exact hs t ht
    · exact (each_of_isPlain hP rfl).mp hblock t ht

theorem each_nullCheck {name : String} {fallback : Tree σ} (h : Each P fallback) :
    Each P (nullCheck a name fallback) := by
  have hassign : Each P (node a (.assign (node a (.identifier name)) fallback)) :=
    (each_of_isPlain hP rfl).mpr (by
      simp (disch := rfl) [each_of_isPlain hP, Kind.children, h])
  simp (disch := rfl) [nullCheck, each_of_isPlain hP, Kind.children, hassign]

theorem each_sliceArguments (name : String) (index : Nat) :
    Each P (sliceArguments a name index) := by
  simp (disch := rfl) [sliceArguments, each_of_isPlain hP, Kind.children]

theorem each_withoutDefault {t : Tree σ} (h : Each P t) : Each P (withoutDefault t) := by
  unfold withoutDefault
  split
  · exact (each_of_isPlain hP rfl).mpr (by simp [Kind.children])
  · exact h

theorem each_defaultChecks {params : List (Tree σ)} (h : ∀ p ∈ params, Each P p) :
    ∀ s ∈ defaultChecks params, Each P s := by
  intro s hs
  obtain ⟨p, hp, hcheck⟩ := List.mem_filterMap.mp hs
  have heach := h p hp
  unfold defaultCheck? at hcheck
  split at hcheck
  · cases hcheck
    exact each_nullCheck hP ((each_of_isPlain hP rfl).mp heach _ (by simp [Kind.children]))
  · cases hcheck

theorem each_restDeclaration (params : List (Tree σ)) : ∀ s ∈ restDeclaration params, Each P s := by
  intro s hs
  obtain ⟨⟨a, name⟩, -, rfl⟩ := List.mem_map.mp hs
  exact each_sliceArguments hP name _

theorem each_concatenation {es : List (Tree σ)} (hes : ∀ e ∈ es, Each P e) (quasis : List String) :
    Each P (node a (concatenation a quasis es)) := by
  have hsum {total : Kind (Tree σ)} (htotal : Each P (node a total)) {es : List (Tree σ)}
      (hes : ∀ e ∈ es, Each P e) (texts : List String) : Each P (node a (sum a total es texts)) := by
    fun_induction sum a total es texts with
    | case1 => exact htotal
    | case2 total e es ih | case3 total e es _ _ _ ih | case4 total e es _ _ _ ih =>
      rw [List.forall_mem_cons] at hes
      refine ih ?_ hes.2
      simp (disch := rfl) [each_of_isPlain hP, Kind.children, htotal, hes.1]
  exact hsum ((each_of_isPlain hP rfl).mpr (by simp [Kind.children])) hes _

theorem each_bindThis {k : Kind (Tree σ)} (h : Each P (node a k)) (bound : Bool) :
    Each P (node a (bindThis a bound k)) := by
  cases bound with
  | false => exact h
  | true => simp (disch := rfl) [bindThis, each_of_isPlain hP, Kind.children, h]

theorem each_mathPow {base exponent : Tree σ} (hb : Each P base) (he : Each P exponent) :
    Each P (node a (mathPow a base exponent)) := by
  simp (disch := rfl) [mathPow, each_of_isPlain hP, Kind.children, hb, he]

end Lenient

/-- The parts of a function meet what all of its parts do. -/
theorem each_of_signature {P : Kind (Kind (Tree σ)) → Prop} {k : Kind (Tree σ)}
    {params : List (Tree σ)} {body : Tree σ} (hs : k.signature? = some (params, body))
    (below : ∀ d ∈ k.children, Each P d) : (∀ p ∈ params, Each P p) ∧ Each P body := by
  rw [Kind.children_of_signature hs] at below
  exact ⟨fun p hp => below p (List.mem_append_left _ hp), below body (by simp)⟩

/-- A function with other parameters and another body. -/
theorem each_withSignature {P : Kind (Kind (Tree σ)) → Prop} {a : σ} {k : Kind (Tree σ)}
    {params params' : List (Tree σ)} {body body' : Tree σ}
    (hs : k.signature? = some (params, body))
    (here : P (((k.withParams params').withBody body').map kind))
    (hparams : ∀ p ∈ params', Each P p) (hbody : Each P body') :
    Each P (node a ((k.withParams params').withBody body')) := by
  have hs' := Kind.signature?_withBody (Kind.signature?_withParams hs params') body'
  refine each_node.mpr ⟨here, ?_⟩
  rw [Kind.children_of_signature hs']
  intro d hd
  rcases List.mem_append.mp hd with hd | hd
  · exact hparams d hd
  · rw [List.mem_singleton.mp hd]
    exact hbody

end Downlevel.Tree
