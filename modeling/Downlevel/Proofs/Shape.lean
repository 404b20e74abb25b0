import Downlevel.Proofs.Parts
import Downlevel.Proofs.Passes

/-!
# Stores that hold a tree of the grammar's shape

`Store.Shaped` says that the nodes which the root leads to form a tree, and that the tree has the shape
of the grammar: whatever its texts are, functions, parameters, assignments, templates and properties
consist of what they should. What is read is stored in this way, with every node in its place, and every
pass of the catalog runs to its end on such a store and leaves one (`shaped_parse_and_passes`).
-/

namespace Downlevel

namespace Kind

variable {α β γ : Type}

/-- Whether these are parameters, with a rest parameter only at the end, and without a default. -/
def paramsShaped (params : List (Kind α)) : Bool :=
  paramsFormed params && params.all fun p => !(p.isRest && p.hasDefault)

/-- Whether a node, given with the kinds of its children, has the shape that the grammar gives it. -/
def shaped : Kind (Kind α) → Bool
  | functionDeclaration _ params body | functionExpression _ params body =>
    paramsShaped params && body.isBlock
  | arrowFunction params body => paramsShaped params && (body.isBlock || body.isExpression)
  | assign target _ => target.isPlace
  | template quasis expressions => quasis.length = expressions.length + 1
  | property key value shorthand method =>
    (!shorthand || value.identifierName? = some key.name) && (!method || value.isMethod)
  | _ => true

section Mono

variable {u : γ → Kind α} {v : γ → Kind β}

theorem paramsShaped_serves {l : List γ} (h : ∀ c ∈ l, (u c).Serves (v c))
    (hp : paramsShaped (l.map u) = true) : paramsShaped (l.map v) = true := by
  simp only [paramsShaped, Bool.and_eq_true] at hp ⊢
  refine ⟨paramsFormed_serves h hp.1, all_map_mono (fun c hc hu => ?_) hp.2⟩
  simp only [Bool.not_eq_true', Bool.and_eq_false_iff] at hu ⊢
  refine hu.imp (fun hrest => ?_) fun hdefault => ?_
  · exact Bool.eq_false_iff.mpr fun hv => Bool.eq_false_iff.mp hrest ((h c hc).isRest hv)
  · exact Bool.eq_false_iff.mpr fun hv => Bool.eq_false_iff.mp hdefault ((h c hc).hasDefault hv)

/-- A node keeps its shape when nodes that may stand in their places take those of its children. -/
theorem shaped_serves {k : Kind γ} (h : ∀ c ∈ k.children, (u c).Serves (v c))
    (hk : (k.map u).shaped = true) : (k.map v).shaped = true := by
  cases k with
  | functionDeclaration _ params body | functionExpression _ params body =>
    simp only [map, shaped, Bool.and_eq_true] at hk ⊢
    exact ⟨paramsShaped_serves (fun c hc => h c (by simp [children, hc])) hk.1,
      by rw [(h body (by simp [children])).isBlock, hk.2]⟩
  | arrowFunction params body =>
    have hbody := h body (by simp [children])
    simp only [map, shaped, Bool.and_eq_true, Bool.or_eq_true, isExpression] at hk ⊢
    rw [hbody.isBlock, hbody.category]
    exact ⟨paramsShaped_serves (fun c hc => h c (by simp [children, hc])) hk.1, hk.2⟩
  | assign target value => exact (h target (by simp [children])).isPlace hk
  | template quasis expressions =>
    simpa [map, shaped] using hk
  | property key value shorthand method =>
    have hvalue := h value (by simp [children])
    simp only [map, shaped, Bool.and_eq_true, Bool.or_eq_true, decide_eq_true_eq] at hk ⊢
    exact ⟨hk.1.imp_right (hvalue.identifierName? key.name), hk.2.imp_right hvalue.isMethod⟩
  | _ => rfl

end Mono

end Kind

namespace Tree

variable {σ τ : Type}

/-- Every node has the shape that the grammar gives it. -/
def Shaped : Tree σ → Prop :=
  Each fun k => k.shaped = true

theorem shaped_node {a : σ} {k : Kind (Tree σ)} :
    (node a k).Shaped ↔ (k.map kind).shaped = true ∧ ∀ c ∈ k.children, c.Shaped :=
  each_node

theorem lenient_shaped : Lenient fun k : Kind (Kind (Tree σ)) => k.shaped = true := by
  intro k hk
  cases k <;> first | rfl | exact hk | cases hk

/-- A well-formed parameter is no rest parameter with a default. -/
theorem Formed.not_isRest_hasDefault {t : Tree σ} (h : t.Formed) :
    (!(t.kind.isRest && t.kind.hasDefault)) = true := by
  obtain ⟨a, k⟩ := t
  cases k with
  | param name fallback rest =>
    have here := (formed_node.mp h).1
    simp only [Kind.map, Kind.formed, Bool.and_eq_true, Option.isSome_map] at here
    exact here.2
  | _ => rfl

theorem Formed.shaped {t : Tree σ} (h : t.Formed) : t.Shaped := by
  induction t using Tree.induction_on with
  | node a k ih =>
    obtain ⟨here, below⟩ := formed_node.mp h
    refine shaped_node.mpr ⟨?_, fun c hc => ih c hc (below c hc)⟩
    have hparams {params : List (Tree σ)} (hmem : ∀ p ∈ params, p ∈ k.children)
        (hformed : Kind.paramsFormed (params.map kind) = true) :
        Kind.paramsShaped (params.map kind) = true := by
      rw [Kind.paramsShaped, hformed, Bool.true_and, all_map_kind]
      exact fun p hp => (below p (hmem p hp)).not_isRest_hasDefault
    cases k with
    | functionDeclaration name params body | functionExpression name params body =>
      simp only [Kind.map, Kind.formed, Bool.and_eq_true] at here
      simp only [Kind.map, Kind.shaped, Bool.and_eq_true]
      exact ⟨hparams (fun p hp => List.mem_append_left _ hp) here.1.2, here.2⟩
    | arrowFunction params body =>
      simp only [Kind.map, Kind.formed, Bool.and_eq_true] at here
      simp only [Kind.map, Kind.shaped, Bool.and_eq_true]
      exact ⟨hparams (fun p hp => List.mem_append_left _ hp) here.1, here.2⟩
    | assign target value =>
      simp only [Kind.map, Kind.formed, Bool.and_eq_true] at here
      exact here.1
    | template quasis expressions =>
      simp only [Kind.map, Kind.formed, Bool.and_eq_true] at here
      exact here.1.1
    | property key value shorthand method =>
      simp only [Kind.map, Kind.formed, Bool.and_eq_true] at here
      have hvalue := here.2
      simp only [Kind.map, Kind.shaped, Bool.and_eq_true, Bool.or_eq_true]
      cases shorthand with
      | false =>
        cases method with
        | false => exact ⟨.inl rfl, .inl rfl⟩
        | true => exact ⟨.inl rfl, .inr hvalue⟩
      | true =>
        cases method with
        | false =>
          rw [Kind.valueFormed, Bool.and_eq_true] at hvalue
          exact ⟨.inr hvalue.2, .inl rfl⟩
        | true => cases hvalue
    | _ => rfl

/-! ## Lowered trees -/

/-- What a function must be like to have the shape of the grammar. -/
theorem shaped_signature {a : σ} {k : Kind (Tree σ)} {params : List (Tree σ)} {body : Tree σ}
    (h : (node a k).Shaped) (hs : k.signature? = some (params, body)) :
    ((∀ p ∈ params, p.Shaped) ∧ Kind.paramsShaped (params.map kind) = true) ∧ body.Shaped := by
  obtain ⟨here, below⟩ := shaped_node.mp h
  obtain ⟨hparams, hbody⟩ := each_of_signature hs below
  refine ⟨⟨hparams, ?_⟩, hbody⟩
  cases k with
  | functionDeclaration | functionExpression | arrowFunction =>
    cases hs
    simp only [Kind.map, Kind.shaped, Bool.and_eq_true] at here
    exact here.1
  | _ => cases hs

/-- A function with other parameters, and with another body that is a block or the old one. -/
theorem shaped_withSignature {a : σ} {k : Kind (Tree σ)} (h : (node a k).Shaped)
    {params params' : List (Tree σ)} {body body' : Tree σ}
    (hs : k.signature? = some (params, body)) (hparams' : ∀ p ∈ params', p.Shaped)
    (hshaped : Kind.paramsShaped (params'.map kind) = true) (hbody : body'.Shaped)
    (hblock : body'.kind.isBlock = true ∨ body' = body) :
    (node a ((k.withParams params').withBody body')).Shaped := by
  have here := (shaped_node.mp h).1
  refine each_withSignature hs ?_ hparams' hbody
  cases k with
  | functionDeclaration | functionExpression =>
    cases hs
    simp only [Kind.withParams, Kind.withBody, Kind.map, Kind.shaped, Bool.and_eq_true] at here ⊢
    exact ⟨hshaped, hblock.elim id fun h => h ▸ here.2⟩
  | arrowFunction =>
    cases hs
    simp only [Kind.withParams, Kind.withBody, Kind.map, Kind.shaped, Bool.and_eq_true,
      Bool.or_eq_true] at here ⊢
    exact ⟨hshaped, hblock.elim Or.inl fun h => h ▸ here.2⟩
  | _ => cases hs

theorem paramsShaped_map_withoutDefault {params : List (Tree σ)}
    (h : Kind.paramsShaped (params.map kind) = true) :
    Kind.paramsShaped ((params.map withoutDefault).map kind) = true := by
  rw [List.map_map]
  exact Kind.paramsShaped_serves (fun t _ => serves_withoutDefault t) h

theorem paramsShaped_withoutRest {params : List (Tree σ)}
    (h : Kind.paramsShaped (params.map kind) = true) :
    Kind.paramsShaped ((withoutRest params).map kind) = true := by
  simp only [Kind.paramsShaped, Bool.and_eq_true, all_map_kind] at h ⊢
  exact ⟨paramsFormed_withoutRest h.1, fun p hp => h.2 p (withoutRest_subset params hp)⟩

end Tree

namespace Construct

variable {σ : Type}

open Downlevel.Tree

theorem shaped_step (c : Construct) (a : σ) (bound : Bool) (k : Kind (Tree σ))
    (h : (node a k).Shaped) : (node a (c.step a bound k)).Shaped := by
  have below := (shaped_node.mp h).2
  cases c with
  | defaultParam =>
    cases hs : k.signature? with
    | none => rwa [step, defaultStep_of_none hs]
    | some signature =>
      obtain ⟨params, body⟩ := signature
      obtain ⟨⟨hparams, hshaped⟩, hbody⟩ := shaped_signature h hs
      rw [step, defaultStep_of_signature hs]
      refine shaped_withSignature h hs ?_ (paramsShaped_map_withoutDefault hshaped)
        (each_prepend lenient_shaped (each_defaultChecks lenient_shaped hparams) hbody)
        (isBlock_prepend_or _ body)
      intro p hp
      obtain ⟨q, hq, rfl⟩ := List.mem_map.mp hp
      exact each_withoutDefault lenient_shaped (hparams q hq)
  | restParam =>
    cases k with
    | functionDeclaration name params body | functionExpression name params body =>
      obtain ⟨⟨hparams, hshaped⟩, hbody⟩ := shaped_signature h rfl
      exact shaped_withSignature h rfl (fun p hp => hparams p (withoutRest_subset params hp))
        (paramsShaped_withoutRest hshaped)
        (each_prepend lenient_shaped (each_restDeclaration lenient_shaped params) hbody)
        (isBlock_prepend_or _ body)
    | _ => exact h
  | arrowFunction =>
    cases k with
    | arrowFunction params body =>
      obtain ⟨⟨hparams, hshaped⟩, hbody⟩ := shaped_signature h rfl
      have hfunction : (node a (.functionExpression none params (ensureBlock body))).Shaped := by
        refine each_withSignature (k := .functionExpression none params body) rfl ?_ hparams
          (each_ensureBlock lenient_shaped hbody)
        simp only [Kind.withParams, Kind.withBody, Kind.map, Kind.shaped, Bool.and_eq_true]
        exact ⟨hshaped, isBlock_ensureBlock body⟩
      exact each_bindThis lenient_shaped hfunction bound
    | _ => exact h
  | conciseMethod =>
    cases k with
    | property key value shorthand method =>
      have here := Bool.and_eq_true_iff.mp (shaped_node.mp h).1
      exact shaped_node.mpr ⟨Bool.and_eq_true_iff.mpr ⟨here.1, rfl⟩, below⟩
    | _ => exact h
  | shorthandProperty =>
    cases k with
    | property key value shorthand method =>
      have here := Bool.and_eq_true_iff.mp (shaped_node.mp h).1
      exact shaped_node.mpr ⟨Bool.and_eq_true_iff.mpr ⟨rfl, here.2⟩, below⟩
    | _ => exact h
  | templateLiteral =>
    cases k with
    | template quasis expressions => exact each_concatenation lenient_shaped below quasis
    | _ => exact h
  | powerOperator =>
    cases k with
    | binary op left right =>
      cases op with
      | power =>
        exact each_mathPow lenient_shaped (below left (by simp [Kind.children]))
          (below right (by simp [Kind.children]))
      | _ => exact h
    | _ => exact h
  | blockScope =>
    cases k with
    | declaration keyword declarators => exact (each_of_isPlain lenient_shaped rfl).mpr below
    | _ => exact h

theorem shaped_rebuild (c : Construct) {t : Tree σ} (h : t.Shaped) : (rebuild c.step t).Shaped :=
  c.each_rebuild Kind.shaped_serves c.shaped_step h

theorem shaped_lowerAll (cs : List Construct) {t : Tree σ} (h : t.Shaped) :
    (lowerAll cs t).Shaped := by
  induction cs generalizing t with
  | nil => exact h
  | cons c cs ih => exact ih (shaped_rebuild c h)

end Construct

namespace Store

open Downlevel.Tree

variable {s : Store}

/-- The nodes that the root leads to form a tree, and every one of them has the shape that the grammar
gives it. A store with a cycle would have a way down longer than itself. -/
structure Shaped (s : Store) : Prop where
  distinct : (s.preorder (s.size + 1) s.root).Nodup
  inside : ∀ id ∈ s.preorder (s.size + 1) s.root, id < s.size
  shaped : ∀ id ∈ s.preorder (s.size + 1) s.root, ((s.kind id).map s.kind).shaped = true

/-- A condition that looks at children only for what they serve as holds everywhere in a tree if it
holds of the nodes in the store. -/
theorem each_plain_iff_of_serves {P : {α : Type} → Kind (Kind α) → Prop}
    (hP : ∀ {α β γ : Type} {u : γ → Kind α} {v : γ → Kind β} {k : Kind γ},
      (∀ c ∈ k.children, (u c).Serves (v c)) → P (k.map u) → P (k.map v))
    {t : Tree Label} (h : Owns s.nodes t.cells) :
    t.plain.Each P ↔ ∀ c ∈ t.cells, P (c.2.kind.map s.kind) := by
  refine each_plain_iff (fun k hkind => ?_) h
  have hplain : ∀ c : Tree Label, c.plain.kind = c.kind.map plain := kind_map _
  rw [Kind.map_map, Kind.map_map]
  constructor
  · refine hP fun c hc => ?_
    rw [hplain, hkind c hc]
    exact Kind.serves_map_map _ _ _
  · refine hP fun c hc => ?_
    rw [hplain, hkind c hc]
    exact Kind.serves_map_map _ _ _

/-- A tree has the shape of the grammar if each of its nodes has, seen with the kinds of its
children. -/
theorem shaped_iff_of_owns {t : Tree Label} (h : Owns s.nodes t.cells) :
    t.plain.Shaped ↔ ∀ c ∈ t.cells, (c.2.kind.map s.kind).shaped = true :=
  each_plain_iff_of_serves (P := fun k => k.shaped = true) Kind.shaped_serves h

theorem Shaped.exists_holds (h : s.Shaped) : ∃ t, s.Holds t ∧ t.plain.Shaped := by
  obtain ⟨t, ht, hcells⟩ := exists_holds_of_nodup h.distinct h.inside
  refine ⟨t, ht, (shaped_iff_of_owns ht.2).mpr fun c hc => ?_⟩
  rw [hcells] at hc
  obtain ⟨id, hid, rfl⟩ := List.mem_map.mp (Multiset.mem_coe.mp hc)
  exact h.shaped id hid

theorem Holds.shaped {t : Tree Label} (h : s.Holds t) (ht : t.plain.Shaped) : s.Shaped := by
  have hids : (s.preorder (s.size + 1) s.root : Multiset NodeId) = t.cells.map Prod.fst := by
    rw [← h.1]
    exact coe_preorder h.2 (h.height_le.trans (Nat.le_succ _))
  have hcell : ∀ id ∈ s.preorder (s.size + 1) s.root, ∃ c ∈ t.cells, c.1 = id := fun id hid =>
    Multiset.mem_map.mp (hids ▸ Multiset.mem_coe.mpr hid)
  refine ⟨?_, fun id hid => ?_, fun id hid => ?_⟩
  · rw [← Multiset.coe_nodup, hids]
    exact h.2.nodup
  · obtain ⟨c, hc, rfl⟩ := hcell id hid
    exact h.2.lt_size hc
  · obtain ⟨c, hc, rfl⟩ := hcell id hid
    rw [show s.kind c.1 = c.2.kind from congrArg Node.kind (node_eq h.2 hc)]
    exact (shaped_iff_of_owns h.2).mp ht c hc

/-- If all nodes of a store are those of a tree, the root leads to each of them once. -/
theorem Holds.reachable_perm {t : Tree Label} (h : s.Holds t) (hcard : t.cells.card = s.size) :
    s.reachable.Perm (List.range s.size) := by
  have hids := h.coe_reachable
  have hnodup : s.reachable.Nodup := by
    rw [← Multiset.coe_nodup, hids]
    exact h.2.nodup
  have hsubset : s.reachable ⊆ List.range s.size := by
    intro id hid
    obtain ⟨c, hc, rfl⟩ := Multiset.mem_map.mp (hids ▸ Multiset.mem_coe.mpr hid)
    exact List.mem_range.mpr (h.2.lt_size hc)
  refine (List.subperm_of_subset hnodup hsubset).perm_of_length_le ?_
  rw [List.length_range, ← Multiset.coe_card, hids, Multiset.card_map, hcard]

theorem Holds.children_lt {t : Tree Label} (h : s.Holds t) (hcard : t.cells.card = s.size) :
    ∀ id < s.size, ∀ c ∈ s.children id, c < s.size := by
  intro id hid d hd
  have hmem : id ∈ t.cells.map Prod.fst := by
    have hreach : id ∈ s.reachable := (h.reachable_perm hcard).mem_iff.mpr (List.mem_range.mpr hid)
    rwa [← Multiset.mem_coe, h.coe_reachable] at hreach
  obtain ⟨c, hc, rfl⟩ := Multiset.mem_map.mp hmem
  rw [children, show s.kind c.1 = c.2.kind from congrArg Node.kind (node_eq h.2 hc)] at hd
  obtain ⟨c', hc', rfl⟩ := Multiset.mem_map.mp (mem_cells_of_mem_children hc hd)
  exact h.2.lt_size hc'

end Store

open Construct

/-- What is read is a tree of the grammar's shape that takes up its whole store. From such a tree on,
in whatever store, every pass of the catalog, and every sequence of them, runs to its end and leaves
one. -/
theorem shaped_parse_and_passes :
    (∀ source dialect s, parse source dialect = .ok s →
      (∀ id < s.size, ∀ c ∈ s.children id, c < s.size) ∧
        s.reachable.Perm (List.range s.size) ∧ s.Shaped) ∧
    ∀ m : Module, m.tree.Shaped →
      (∀ p ∈ lowerings, ∃ walked m', p.run m = (.ok walked, m') ∧ m'.tree.Shaped) ∧
      ∀ passes : List Pass, (∀ p ∈ passes, p ∈ catalog) →
        ∃ m', m.runAll passes = (.ok (), m') ∧ m'.tree.Shaped := by
  refine ⟨fun source dialect s h => ?_, fun m h => ⟨fun p hp => ?_, fun passes hpasses => ?_⟩⟩
  · obtain ⟨t, hholds, hformed, -, hcard⟩ := exists_holds_of_parse h
    exact ⟨hholds.children_lt hcard, hholds.reachable_perm hcard, hholds.shaped hformed.shaped⟩
  · obtain ⟨t, hholds, hshaped⟩ := h.exists_holds
    obtain ⟨c, -, rfl⟩ := List.mem_map.mp (show p ∈ all.map plugin from hp)
    obtain ⟨walked, m', t', hrun, hholds', hplain, -⟩ := c.lowers m t hholds
    exact ⟨walked, m', hrun, hholds'.shaped (hplain ▸ shaped_rebuild c hshaped)⟩
  · obtain ⟨t, hholds, hshaped⟩ := h.exists_holds
    obtain ⟨cs, rfl⟩ := exists_map_pass hpasses
    obtain ⟨m', t', hrun, hholds', hplain, -⟩ := runAll_passes hholds cs
    exact ⟨m', hrun, hholds'.shaped (hplain ▸ shaped_lowerAll cs hshaped)⟩

theorem shaped_parse_and_passes_everyConstruct :
    ∃ s, parse everyConstruct .next = .ok s ∧ s.reachable.Perm (List.range s.size) ∧ s.Shaped ∧
      ∃ m', (Module.ofTree everyConstruct s).runAll catalog = (.ok (), m') ∧ m'.tree.Shaped := by
  obtain ⟨s, hs⟩ := parse_everyConstruct
  obtain ⟨-, hperm, hshaped⟩ := shaped_parse_and_passes.1 everyConstruct .next s hs
  exact ⟨s, hs, hperm, hshaped, (shaped_parse_and_passes.2 (.ofTree everyConstruct s) hshaped).2 catalog
    fun _ hp => hp⟩

end Downlevel
