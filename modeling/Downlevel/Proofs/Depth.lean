import Downlevel.Proofs.Cells
import Downlevel.Proofs.Commute

/-!
# How deep a walk goes

Lowerings that move parts of a function into its body do so before the body is walked, so a walk may go
deeper than the tree it started on. `Tree.reach` bounds the levels it goes through: it grows by a
constant for each function (`Tree.reach_le_height`), and the children of what a lowering makes of a node
are within a smaller bound than the node (`Tree.reach_lt_of_mem_defaultStep`,
`Tree.reach_lt_of_mem_restStep`).
-/

namespace Downlevel

namespace Tree

variable {σ τ : Type}

/-- A bound for the levels that a walk of a lowering goes through in a tree: a function counts for the
nodes that can be put between it and what stands in its parameters or its body. -/
def reach : Tree σ → Nat :=
  fold fun _ k => k.children.foldr max 0 + if k.isFunction then 8 else 1

theorem reach_node (a : σ) (k : Kind (Tree σ)) :
    (node a k).reach = (k.children.map reach).foldr max 0 + if k.isFunction then 8 else 1 := by
  have hfun : (k.map reach).isFunction = k.isFunction := by cases k <;> rfl
  rw [reach, fold_node, ← reach, hfun, Kind.children_map]

theorem reach_node_le {a : σ} {k : Kind (Tree σ)} {n : Nat} (h : ∀ c ∈ k.children, c.reach ≤ n) :
    (node a k).reach ≤ n + if k.isFunction then 8 else 1 := by
  rw [reach_node, Nat.add_le_add_iff_right, le_foldr_max]
  simpa using h

theorem le_reach_node (a : σ) {k : Kind (Tree σ)} {c : Tree σ} (h : c ∈ k.children) :
    c.reach + (if k.isFunction then 8 else 1) ≤ (node a k).reach := by
  rw [reach_node, Nat.add_le_add_iff_right]
  exact le_foldr_max.mp le_rfl _ (List.mem_map_of_mem h)

theorem reach_pos : ∀ t : Tree σ, 0 < t.reach
  | node a k => by
    rw [reach_node]
    split <;> omega

theorem reach_lt_of_mem_children (a : σ) {k : Kind (Tree σ)} {c : Tree σ} (h : c ∈ k.children) :
    c.reach < (node a k).reach := by
  have hle := le_reach_node a h
  split at hle <;> omega

@[simp] theorem reach_map (f : σ → τ) (t : Tree σ) : (t.map f).reach = t.reach := by
  induction t using induction_on with
  | node a k ih =>
    have hmap : (node a k).map f = node (f a) (k.map (map f)) := by simp [map]
    have hfun : (k.map (map f)).isFunction = k.isFunction := by cases k <;> rfl
    rw [hmap, reach_node, reach_node, Kind.children_map, List.map_map, hfun]
    exact congrArg (List.foldr max 0 · + _) (List.map_congr_left ih)

theorem reach_le_height (t : Tree σ) : t.reach ≤ 8 * t.height := by
  induction t using induction_on with
  | node a k ih =>
    have hchildren : ∀ c ∈ k.children, c.reach ≤ 8 * (node a k).height - 8 := fun c hc => by
      have hlt := height_lt_of_mem_children (a := a) hc
      have hc := ih c hc
      omega
    have hpos := (node a k).height_pos
    have hle := reach_node_le (a := a) hchildren
    split at hle <;> omega

theorem reach_ensureBlock_le (t : Tree σ) : (ensureBlock t).reach ≤ t.reach + 2 := by
  unfold ensureBlock
  split
  · omega
  · refine reach_node_le (k := .block [_]) fun c hc => ?_
    obtain rfl := List.mem_singleton.mp hc
    exact reach_node_le (k := .returnStatement (some t)) fun c hc => by
      obtain rfl : c = t := by simpa [Kind.children] using hc
      rfl

theorem reach_prepend_le {statements : List (Tree σ)} {body : Tree σ} {n : Nat}
    (hs : ∀ s ∈ statements, s.reach ≤ n) (hbody : body.reach + 1 ≤ n) :
    (prepend statements body).reach ≤ n + 1 := by
  cases statements with
  | nil =>
    rw [prepend_nil]
    omega
  | cons s statements =>
    obtain ⟨old, hold⟩ := exists_eq_block (isBlock_ensureBlock body)
    have hle := reach_ensureBlock_le body
    rw [prepend_of_ne_nil (List.cons_ne_nil s statements)]
    rw [hold] at hle ⊢
    rw [prepend_block]
    refine reach_node_le (k := .block _) fun c hc => ?_
    rcases List.mem_append.mp hc with hc | hc
    · exact hs c hc
    · have hlt := reach_lt_of_mem_children (ensureBlock body).ann (k := .block old) hc
      omega

theorem reach_nullCheck_le (a : σ) (name : String) (fallback : Tree σ) :
    (nullCheck a name fallback).reach ≤ fallback.reach + 4 := by
  have hpos := fallback.reach_pos
  simp [nullCheck, reach_node, Kind.children, Kind.isFunction]
  omega

theorem reach_sliceArguments (a : σ) (name : String) (index : Nat) :
    (sliceArguments a name index).reach = 7 := by
  simp [sliceArguments, reach_node, Kind.children, Kind.isFunction]

theorem reach_withoutDefault_le (t : Tree σ) : (withoutDefault t).reach ≤ t.reach := by
  unfold withoutDefault
  split
  · simp [reach_node, Kind.children, Kind.isFunction]
  · rfl

theorem reach_defaultCheck?_le {t check : Tree σ} (h : defaultCheck? t = some check) :
    check.reach ≤ t.reach + 3 := by
  unfold defaultCheck? at h
  split at h
  · rename_i a name fallback rest
    cases h
    have hcheck := reach_nullCheck_le a name fallback
    have hparam := le_reach_node a (k := .param name (some fallback) rest) (c := fallback)
      (by simp [Kind.children])
    rw [show (Kind.param name (some fallback) rest).isFunction = false from rfl,
      if_neg Bool.false_ne_true] at hparam
    omega
  · cases h

section Function

variable {a : σ} {k : Kind (Tree σ)} {params : List (Tree σ)} {body : Tree σ}

theorem reach_add_le (h : k.signature? = some (params, body)) {c : Tree σ}
    (hc : c ∈ params ++ [body]) : c.reach + 8 ≤ (node a k).reach := by
  have hfun : k.isFunction = true := by cases k <;> first | rfl | cases h
  have hle := le_reach_node a (Kind.children_of_signature h ▸ hc)
  rwa [hfun, if_pos rfl] at hle

/-- Where statements have been put into a body, a walk still goes no deeper than the bound. -/
theorem reach_lt_of_mem_signature (h : k.signature? = some (params, body))
    {params' statements : List (Tree σ)} {k' : Kind (Tree σ)}
    (h' : k'.signature? = some (params', prepend statements body))
    (hparams : ∀ p' ∈ params', ∃ p ∈ params, p'.reach ≤ p.reach)
    (hs : ∀ s ∈ statements, s.reach ≤ 7 ∨ ∃ p ∈ params, s.reach ≤ p.reach + 3) {c : Tree σ}
    (hc : c ∈ k'.children) : c.reach < (node a k).reach := by
  have hbody := reach_add_le (a := a) h (c := body) (by simp)
  have hpos := body.reach_pos
  rw [Kind.children_of_signature h'] at hc
  rcases List.mem_append.mp hc with hc | hc
  · obtain ⟨p, hp, hle⟩ := hparams c hc
    have := reach_add_le (a := a) h (c := p) (by simp [hp])
    omega
  · obtain rfl := List.mem_singleton.mp hc
    have hn : ∀ s ∈ statements, s.reach ≤ (node a k).reach - 2 := by
      intro s hmem
      rcases hs s hmem with hle | ⟨p, hp, hle⟩
      · omega
      · have := reach_add_le (a := a) h (c := p) (by simp [hp])
        omega
    have := reach_prepend_le hn (by omega : body.reach + 1 ≤ _)
    omega

end Function

theorem reach_lt_of_mem_defaultStep (a : σ) (bound : Bool) {k : Kind (Tree σ)} {c : Tree σ}
    (hc : c ∈ (defaultStep a bound k).children) : c.reach < (node a k).reach := by
  cases hk : k.signature? with
  | none =>
    rw [defaultStep_of_none hk] at hc
    exact reach_lt_of_mem_children a hc
  | some signature =>
    obtain ⟨params, body⟩ := signature
    rw [defaultStep_of_signature hk] at hc
    refine reach_lt_of_mem_signature hk
      (Kind.signature?_withBody (Kind.signature?_withParams hk _) _) ?_ ?_ hc
    · intro p' hp'
      obtain ⟨p, hp, rfl⟩ := List.mem_map.mp hp'
      exact ⟨p, hp, reach_withoutDefault_le p⟩
    · intro check hcheck
      obtain ⟨p, hp, hcheck⟩ := List.mem_filterMap.mp hcheck
      exact .inr ⟨p, hp, reach_defaultCheck?_le hcheck⟩

theorem reach_lt_of_mem_restStep (a : σ) (bound : Bool) {k : Kind (Tree σ)} {c : Tree σ}
    (hc : c ∈ (restStep a bound k).children) : c.reach < (node a k).reach := by
  have hfunction : ∀ params body, k.signature? = some (params, body) →
      c ∈ ((k.withParams (withoutRest params)).withBody
        (prepend (restDeclaration params) body)).children → c.reach < (node a k).reach := by
    intro params body hk hc
    refine reach_lt_of_mem_signature hk
      (Kind.signature?_withBody (Kind.signature?_withParams hk _) _) ?_ ?_ hc
    · intro p hp
      refine ⟨p, ?_, le_rfl⟩
      unfold withoutRest at hp
      split at hp
      · exact params.dropLast_subset hp
      · exact hp
    · intro s hs
      obtain ⟨⟨b, name⟩, -, rfl⟩ := List.mem_map.mp hs
      exact .inl (reach_sliceArguments b name _).le
  cases k with
  | functionDeclaration name params body | functionExpression name params body =>
    exact hfunction params body rfl hc
  | _ => exact reach_lt_of_mem_children a hc

end Tree

end Downlevel
