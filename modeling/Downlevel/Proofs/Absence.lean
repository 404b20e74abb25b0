import Downlevel.Proofs.Fusion
import Downlevel.Proofs.Parts

/-!
# Constructs that are gone

`Tree.Lacks c t` says that a construct no longer occurs in a tree. Lowering a construct makes it go
(`Construct.lacks_rebuild`), with the exception of rest parameters of arrow functions, and lowering
another one does not bring it back (`Construct.Lacks.rebuild`). A tree without any of the constructs is
one of the stable dialect (`Tree.Formed.features_eq_nil`), and no lowering changes it
(`Tree.Lacks.rebuild_eq`).
-/

namespace Downlevel

namespace Construct

variable {α β γ : Type}

/-- Whether a node, seen with the kinds of its children, is free of a construct. Parameters are looked
at from their function. -/
def absent : Construct → Kind (Kind α) → Bool
  | arrowFunction, .arrowFunction .. => false
  | conciseMethod, .property _ _ _ method => !method
  | defaultParam, k => k.signature?.all fun signature => signature.1.all (!·.hasDefault)
  | restParam, k => k.signature?.all fun signature => signature.1.all (!·.isRest)
  | shorthandProperty, .property _ _ shorthand _ => !shorthand
  | templateLiteral, .template .. => false
  | powerOperator, .binary .power .. => false
  | blockScope, .declaration keyword _ => keyword = .var
  | _, _ => true

theorem absent_of_isUntouched (c : Construct) {k : Kind (Kind α)} (h : k.isUntouched = true) :
    c.absent k = true := by
  cases k with
  | declaration keyword =>
    cases keyword <;> cases h
    cases c <;> rfl
  | binary op => cases op <;> cases h <;> cases c <;> rfl
  | _ => first | cases h; done | cases c <;> rfl

/-- A node stays free of a construct when others that may stand in their places take those of its
children. -/
theorem absent_serves (c : Construct) {k : Kind γ} {u : γ → Kind α} {v : γ → Kind β}
    (h : ∀ d ∈ k.children, (u d).Serves (v d)) (hk : c.absent (k.map u) = true) :
    c.absent (k.map v) = true := by
  cases c with
  | defaultParam =>
    cases k with
    | functionDeclaration | functionExpression | arrowFunction =>
      refine Kind.all_map_mono (fun d hd hp => ?_) hk
      have hdefault := (h d (by simp [Kind.children, hd])).hasDefault
      cases hv : (v d).hasDefault <;> simp_all
    | _ => rfl
  | restParam =>
    cases k with
    | functionDeclaration | functionExpression | arrowFunction =>
      exact Kind.all_map_mono (fun d hd => (h d (by simp [Kind.children, hd])).not_isRest) hk
    | _ => rfl
  | powerOperator =>
    cases k with
    | binary op => cases op <;> exact hk
    | _ => exact hk
  | _ => cases k <;> exact hk

end Construct

namespace Tree

variable {σ : Type}

/-- The construct does not occur in the tree. -/
def Lacks (c : Construct) : Tree σ → Prop :=
  Each fun k => c.absent k = true

section Lacks

variable {c : Construct} {a : σ}

theorem lacks_node {k : Kind (Tree σ)} :
    Lacks c (node a k) ↔ c.absent (k.map kind) = true ∧ ∀ d ∈ k.children, Lacks c d :=
  each_node

theorem lenient_absent (c : Construct) :
    Lenient fun k : Kind (Kind (Tree σ)) => c.absent k = true := by
  intro k hk
  refine c.absent_of_isUntouched ?_
  rw [Kind.isUntouched_map]
  cases k <;> first | exact hk | rfl

end Lacks

/-! ## Parameters -/

theorem hasDefault_withoutDefault (t : Tree σ) : (withoutDefault t).kind.hasDefault = false := by
  obtain ⟨a, k⟩ := t
  cases k with
  | param name fallback rest => cases fallback <;> rfl
  | _ => rfl

theorem isRest_withoutDefault (t : Tree σ) : (withoutDefault t).kind.isRest = t.kind.isRest := by
  obtain ⟨a, k⟩ := t
  cases k with
  | param name fallback rest => cases fallback <;> rfl
  | _ => rfl

end Tree

namespace Construct

variable {σ : Type}

open Downlevel.Tree

/-! ## Steps -/

section Step

variable {c : Construct} {a : σ} {k : Kind (Tree σ)}

/-- What a function must be like to be free of a construct, as far as its parameters go. -/
theorem absent_params {params : List (Tree σ)} {body : Tree σ}
    (hs : k.signature? = some (params, body)) (h : c.absent (k.map kind) = true) :
    (c = .defaultParam → ∀ p ∈ params, p.kind.hasDefault = false) ∧
      (c = .restParam → ∀ p ∈ params, p.kind.isRest = false) := by
  have hmap : (k.map kind).signature? = some (params.map kind, body.kind) := by
    rw [Kind.signature?_map, hs]
    rfl
  constructor <;> rintro rfl p hp <;> rw [absent, hmap] at h <;> simp at h <;> exact h p hp

/-- What a function with other parameters and another body is free of. -/
theorem absent_withSignature {params params' : List (Tree σ)} {body body' : Tree σ}
    (hs : k.signature? = some (params, body))
    (harrow : c = .arrowFunction → c.absent (k.map kind) = true)
    (hdefault : c = .defaultParam → ∀ p ∈ params', p.kind.hasDefault = false)
    (hrest : c = .restParam → ∀ p ∈ params', p.kind.isRest = false) :
    c.absent (((k.withParams params').withBody body').map kind) = true := by
  have hmap : (((k.withParams params').withBody body').map kind).signature?
      = some (params'.map kind, body'.kind) := by
    rw [Kind.signature?_map, Kind.signature?_withBody (Kind.signature?_withParams hs params') body']
    rfl
  cases c with
  | defaultParam =>
    rw [absent, hmap]
    simpa using hdefault rfl
  | restParam =>
    rw [absent, hmap]
    simpa using hrest rfl
  | arrowFunction =>
    have harrow := harrow rfl
    cases k with
    | arrowFunction => cases harrow
    | functionDeclaration | functionExpression => rfl
    | _ => cases hs
  | _ =>
    cases k with
    | functionDeclaration | functionExpression | arrowFunction => rfl
    | _ => cases hs

theorem lacks_defaultStep (bound : Bool) (below : ∀ d ∈ k.children, Lacks c d)
    (here : c.absent (k.map kind) = true ∨ c = .defaultParam) :
    Lacks c (node a (defaultStep a bound k)) := by
  cases hs : k.signature? with
  | none =>
    rw [defaultStep_of_none hs]
    refine lacks_node.mpr ⟨here.elim id ?_, below⟩
    rintro rfl
    rw [absent, Kind.signature?_map, hs]
    rfl
  | some signature =>
    obtain ⟨params, body⟩ := signature
    obtain ⟨hparams, hbody⟩ := each_of_signature hs below
    rw [defaultStep_of_signature hs]
    refine each_withSignature hs (absent_withSignature hs ?_ ?_ ?_) ?_
      (each_prepend (lenient_absent c) (each_defaultChecks (lenient_absent c) hparams) hbody)
    · rintro rfl
      exact here.resolve_right nofun
    · rintro - p hp
      obtain ⟨q, -, rfl⟩ := List.mem_map.mp hp
      exact hasDefault_withoutDefault q
    · rintro rfl p hp
      obtain ⟨q, hq, rfl⟩ := List.mem_map.mp hp
      rw [isRest_withoutDefault]
      exact (absent_params hs (here.resolve_right nofun)).2 rfl q hq
    · intro p hp
      obtain ⟨q, hq, rfl⟩ := List.mem_map.mp hp
      exact each_withoutDefault (lenient_absent c) (hparams q hq)

/-- If the node is a function, its parameters are well-formed. -/
def FormedParams (k : Kind (Tree σ)) : Prop :=
  ∀ params body, k.signature? = some (params, body) → Kind.paramsFormed (params.map kind) = true

theorem isSome_rest? (t : Tree σ) : (rest? t).isSome = t.kind.isRest := by
  obtain ⟨a, k⟩ := t
  cases k with
  | param name fallback rest => cases rest <;> rfl
  | _ => rfl

/-- Without the rest parameter that they end with, well-formed parameters have none. -/
theorem isRest_of_mem_withoutRest {params : List (Tree σ)}
    (h : Kind.paramsFormed (params.map kind) = true) :
    ∀ p ∈ withoutRest params, p.kind.isRest = false := by
  rcases List.eq_nil_or_concat params with rfl | ⟨init, last, rfl⟩
  · nofun
  · rw [List.concat_eq_append] at h ⊢
    have hinit : ∀ p ∈ init, p.kind.isRest = false := by
      simp only [Kind.paramsFormed, Bool.and_eq_true, ← List.map_dropLast] at h
      simpa using h.2
    rw [withoutRest, lastRest?_concat, isSome_rest?]
    split
    · simpa using hinit
    · rename_i hlast
      intro p hp
      rcases List.mem_append.mp hp with hp | hp
      · exact hinit p hp
      · rw [List.mem_singleton.mp hp]
        simpa using hlast

theorem lacks_restStep (bound : Bool) (below : ∀ d ∈ k.children, Lacks c d)
    (here : c.absent (k.map kind) = true ∨ c = .restParam ∧ FormedParams k ∧
      arrowFunction.absent (k.map kind) = true) :
    Lacks c (node a (restStep a bound k)) := by
  by_cases harrow : arrowFunction.absent (k.map kind) = true
  · cases hs : k.signature? with
    | none =>
      rw [restStep_of_none hs]
      refine lacks_node.mpr ⟨here.elim id ?_, below⟩
      rintro ⟨rfl, -⟩
      rw [absent, Kind.signature?_map, hs]
      rfl
    | some signature =>
      obtain ⟨params, body⟩ := signature
      obtain ⟨hparams, hbody⟩ := each_of_signature hs below
      have hsub := withoutRest_subset params
      rw [restStep_of_signature (by rintro ps b rfl; cases harrow) hs]
      refine each_withSignature hs (absent_withSignature hs (· ▸ harrow) ?_ ?_)
        (fun p hp => hparams p (hsub hp))
        (each_prepend (lenient_absent c) (each_restDeclaration (lenient_absent c) params) hbody)
      · rintro rfl p hp
        exact (absent_params hs (here.resolve_right nofun)).1 rfl p (hsub hp)
      · rintro rfl p hp
        rcases here with here | ⟨-, hformed, -⟩
        · exact (absent_params hs here).2 rfl p (hsub hp)
        · exact isRest_of_mem_withoutRest (hformed params body hs) p hp
  · have here := here.resolve_right fun h => harrow h.2.2
    cases k with
    | arrowFunction => exact lacks_node.mpr ⟨here, below⟩
    | _ => exact absurd rfl harrow

theorem lacks_arrowStep (bound : Bool) (below : ∀ d ∈ k.children, Lacks c d)
    (here : c.absent (k.map kind) = true ∨ c = .arrowFunction) :
    Lacks c (node a (arrowStep a bound k)) := by
  cases k with
  | arrowFunction params body =>
    obtain ⟨hparams, hbody⟩ := each_of_signature rfl below
    refine each_bindThis (lenient_absent c) (each_withSignature
      (k := .functionExpression none params body) rfl (absent_withSignature rfl (fun _ => by subst c; rfl)
        ?_ ?_) hparams (each_ensureBlock (lenient_absent c) hbody)) bound
    · rintro rfl
      exact (absent_params rfl (here.resolve_right nofun)).1 rfl
    · rintro rfl
      exact (absent_params rfl (here.resolve_right nofun)).2 rfl
  | _ =>
    refine lacks_node.mpr ⟨here.elim id ?_, below⟩
    rintro rfl
    rfl

/-- A property whose marks have gone. -/
theorem lacks_property {key : PropertyKey} {value : Tree σ} {shorthand method : Bool}
    (below : Lacks c value) (hs : c = .shorthandProperty → shorthand = false)
    (hm : c = .conciseMethod → method = false) :
    Lacks c (node a (.property key value shorthand method)) := by
  refine lacks_node.mpr ⟨?_, by simpa [Kind.children] using below⟩
  cases c <;> first | rfl | exact congrArg (!·) (hs rfl) | exact congrArg (!·) (hm rfl)

/-- A step keeps a construct away, and its own construct goes, but for rest parameters of arrow
functions. -/
theorem lacks_step (c' : Construct) (bound : Bool) (below : ∀ d ∈ k.children, Lacks c d)
    (here : c.absent (k.map kind) = true ∨ c' = c ∧ FormedParams k ∧
      (c = .restParam → arrowFunction.absent (k.map kind) = true)) :
    Lacks c (node a (c'.step a bound k)) := by
  have hsame : (c' = c → c.absent (k.map kind) = true) → Lacks c (node a k) :=
    fun h => lacks_node.mpr ⟨here.elim id fun here => h here.1, below⟩
  cases c' with
  | defaultParam => exact lacks_defaultStep bound below (here.imp_right fun h => h.1.symm)
  | restParam =>
    exact lacks_restStep bound below (here.imp_right fun h => ⟨h.1.symm, h.2.1, h.2.2 h.1.symm⟩)
  | arrowFunction => exact lacks_arrowStep bound below (here.imp_right fun h => h.1.symm)
  | conciseMethod =>
    cases k with
    | property key value shorthand method =>
      refine lacks_property (below value (by simp [Kind.children])) ?_ fun _ => rfl
      rintro rfl
      simpa [absent, Kind.map] using here
    | _ => exact hsame (by rintro rfl; rfl)
  | shorthandProperty =>
    cases k with
    | property key value shorthand method =>
      refine lacks_property (below value (by simp [Kind.children])) (fun _ => rfl) ?_
      rintro rfl
      simpa [absent, Kind.map] using here
    | _ => exact hsame (by rintro rfl; rfl)
  | templateLiteral =>
    cases k with
    | template quasis expressions =>
      exact each_concatenation (lenient_absent c) below _
    | _ => exact hsame (by rintro rfl; rfl)
  | powerOperator =>
    cases k with
    | binary op left right =>
      cases op with
      | power =>
        exact each_mathPow (lenient_absent c) (below left (by simp [Kind.children]))
          (below right (by simp [Kind.children]))
      | _ => exact hsame (by rintro rfl; rfl)
    | _ => exact hsame (by rintro rfl; rfl)
  | blockScope =>
    cases k with
    | declaration keyword declarators => exact (each_of_isPlain (lenient_absent c) rfl).mpr below
    | _ => exact hsame (by rintro rfl; rfl)

end Step

end Construct

namespace Tree

variable {σ : Type} {c : Construct}

/-! ## Rebuilt trees -/

/-- What is gone stays away. -/
theorem Lacks.rebuilt {t : Tree σ} (h : Lacks c t) (c' : Construct) : Lacks c (rebuild c'.step t) :=
  c'.each_rebuild c.absent_serves
    (fun _ bound _ h => Construct.lacks_step c' bound (lacks_node.mp h).2 (.inl (lacks_node.mp h).1)) h

/-- Lowering a construct makes it go. -/
theorem Formed.lacks_rebuild {t : Tree σ} (h : t.Formed)
    (harrow : c = .restParam → Lacks .arrowFunction t) : Lacks c (rebuild c.step t) := by
  induction t using Tree.induction_on with
  | node a k ih =>
    rw [rebuild_node]
    refine Construct.lacks_step c _ ?_ (.inr ⟨rfl, fun params body hs =>
      (formed_of_signature (c.formed_map_rebuild h) hs).1.2, fun hc => ?_⟩)
    · rw [Kind.children_map]
      intro d hd
      obtain ⟨e, he, rfl⟩ := List.mem_map.mp hd
      exact ih e he ((formed_node.mp h).2 e he) fun hc => (lacks_node.mp (harrow hc)).2 e he
    · rw [Kind.map_map]
      exact Construct.absent_serves _ (fun d _ => c.serves_rebuild d) (lacks_node.mp (harrow hc)).1

/-! ## Nothing left to lower -/

theorem withoutDefault_of_hasDefault {t : Tree σ} (h : t.kind.hasDefault = false) :
    withoutDefault t = t ∧ defaultCheck? t = none := by
  obtain ⟨a, k⟩ := t
  cases k with
  | param name fallback rest =>
    cases fallback with
    | none => exact ⟨rfl, rfl⟩
    | some d => cases h
  | _ => exact ⟨rfl, rfl⟩

/-- A step does nothing where its construct does not occur. -/
theorem step_of_absent {a : σ} (bound : Bool) {k : Kind (Tree σ)} (h : c.absent (k.map kind) = true) :
    c.step a bound k = k := by
  cases c with
  | defaultParam =>
    cases hs : k.signature? with
    | none => rw [Construct.step, defaultStep_of_none hs]
    | some signature =>
      obtain ⟨params, body⟩ := signature
      have hparams := (Construct.absent_params hs h).1 rfl
      have hmap : params.map withoutDefault = params :=
        (List.map_congr_left fun p hp => (withoutDefault_of_hasDefault (hparams p hp)).1).trans
          (List.map_id' params)
      have hchecks : defaultChecks params = [] :=
        List.filterMap_eq_nil_iff.mpr fun p hp => (withoutDefault_of_hasDefault (hparams p hp)).2
      rw [Construct.step, defaultStep_of_signature hs, hmap, hchecks, prepend_nil,
        Kind.withParams_self hs, Kind.withBody_self hs]
  | restParam =>
    cases hs : k.signature? with
    | none => exact restStep_of_none hs
    | some signature =>
      obtain ⟨params, body⟩ := signature
      have hparams := (Construct.absent_params hs h).2 rfl
      have hlast : lastRest? params = none := by
        rw [lastRest?, Option.bind_eq_none_iff]
        intro p hp
        rw [← Option.not_isSome_iff_eq_none, Construct.isSome_rest?,
          hparams p (List.mem_of_getLast? hp)]
        exact Bool.false_ne_true
      by_cases hk : ∃ ps b, k = .arrowFunction ps b
      · obtain ⟨ps, b, rfl⟩ := hk
        rfl
      · rw [Construct.step, restStep_of_signature (fun ps b h => hk ⟨ps, b, h⟩) hs, withoutRest,
          restDeclaration, hlast]
        simp [Kind.withParams_self hs, Kind.withBody_self hs]
  | powerOperator =>
    cases k with
    | binary op => cases op <;> first | rfl | cases h
    | _ => rfl
  | conciseMethod =>
    cases k with
    | property key value shorthand method => cases method <;> first | rfl | cases h
    | _ => rfl
  | shorthandProperty =>
    cases k with
    | property key value shorthand method => cases shorthand <;> first | rfl | cases h
    | _ => rfl
  | blockScope =>
    cases k with
    | declaration keyword => cases keyword <;> first | rfl | cases h
    | _ => rfl
  | arrowFunction =>
    cases k with
    | arrowFunction => cases h
    | _ => rfl
  | templateLiteral =>
    cases k with
    | template => cases h
    | _ => rfl

/-- Where a construct does not occur, lowering it does nothing. -/
theorem Lacks.rebuild_eq {t : Tree σ} (h : Lacks c t) : rebuild c.step t = t := by
  induction t using Tree.induction_on with
  | node a k ih =>
    obtain ⟨here, below⟩ := lacks_node.mp h
    rw [rebuild_node, Kind.map_congr fun d hd => ih d hd (below d hd), Kind.map_id,
      step_of_absent _ here]

/-! ## The stable dialect -/

theorem features_node (a : σ) (k : Kind (Tree σ)) :
    (node a k).features = (k.feature?.map (a, ·)).toList ++ k.children.flatMap features := by
  rw [features, fold_node, ← features, Kind.children_map, Kind.feature?_map]
  rfl

theorem features_map {τ : Type} (f : σ → τ) (t : Tree σ) :
    (t.map f).features = t.features.map (Prod.map f id) := by
  induction t using induction_on with
  | node a k ih =>
    rw [map_node, features_node, features_node, Kind.feature?_map, Kind.children_map,
      List.flatMap_map, List.map_append, List.map_flatMap, List.flatMap_congr ih]
    cases k.feature? <;> rfl

theorem features_eq_nil_iff {a : σ} {k : Kind (Tree σ)} :
    (node a k).features = [] ↔ k.feature? = none ∧ ∀ d ∈ k.children, d.features = [] := by
  rw [features_node, List.append_eq_nil_iff, List.flatMap_eq_nil_iff]
  cases k.feature? <;> simp

theorem feature?_of_features {t : Tree σ} (h : t.features = []) : t.kind.feature? = none := by
  obtain ⟨a, k⟩ := t
  exact (features_eq_nil_iff.mp h).1

theorem hasDefault_of_feature? {α : Type} {k : Kind α} (h : k.feature? = none) :
    k.hasDefault = false ∧ k.isRest = false := by
  cases k with
  | param name fallback rest => cases fallback <;> cases rest <;> first | exact ⟨rfl, rfl⟩ | cases h
  | _ => exact ⟨rfl, rfl⟩

/-- A tree of the stable dialect has none of the constructs. -/
theorem lacks_of_features {t : Tree σ} (h : t.features = []) (c : Construct) : Lacks c t := by
  induction t using induction_on with
  | node a k ih =>
    obtain ⟨here, below⟩ := features_eq_nil_iff.mp h
    refine lacks_node.mpr ⟨?_, fun d hd => ih d hd (below d hd)⟩
    have hparam : ∀ d ∈ k.children, d.kind.hasDefault = false ∧ d.kind.isRest = false :=
      fun d hd => hasDefault_of_feature? (feature?_of_features (below d hd))
    cases k with
    | functionDeclaration name params body | functionExpression name params body =>
      have hparams : ∀ p ∈ params, p.kind.hasDefault = false ∧ p.kind.isRest = false :=
        fun p hp => hparam p (by simp [Kind.children, hp])
      cases c <;> first | rfl | exact all_map_kind.mpr fun p hp => by simp [hparams p hp]
    | arrowFunction | template => cases here
    | declaration keyword => cases keyword <;> first | cases here; done | cases c <;> rfl
    | property key value shorthand method =>
      cases shorthand <;> cases method <;> first | cases here; done | cases c <;> rfl
    | binary op => cases op <;> first | cases here; done | cases c <;> rfl
    | _ => cases c <;> rfl

theorem feature?_of_absent {k : Kind (Tree σ)} (h : ∀ c : Construct, c.absent (k.map kind) = true)
    (hk : k.hasDefault = false ∧ k.isRest = false) : k.feature? = none := by
  cases k with
  | arrowFunction => cases h .arrowFunction
  | template => cases h .templateLiteral
  | declaration keyword => cases keyword <;> first | rfl | cases h .blockScope
  | property key value shorthand method =>
    cases shorthand <;> cases method <;>
      first | rfl | cases h .shorthandProperty; done | cases h .conciseMethod
  | binary op => cases op <;> first | rfl | cases h .powerOperator
  | param name fallback rest =>
    cases fallback <;> cases rest <;> first | rfl | cases hk.1; done | cases hk.2
  | _ => rfl

/-- Parameters stand in functions only. -/
theorem Formed.mem_params {a : σ} {k : Kind (Tree σ)} (h : (node a k).Formed) {d : Tree σ}
    (hd : d ∈ k.children) (hparam : d.kind.category = .param) :
    ∃ params body, k.signature? = some (params, body) ∧ d ∈ params := by
  have hadmits := category_mem_admits (formed_node.mp h).1 d hd
  rw [hparam] at hadmits
  obtain ⟨params, body, hs⟩ : ∃ params body, k.signature? = some (params, body) := by
    cases k <;> first | exact ⟨_, _, rfl⟩ | simp [Kind.admits] at hadmits
  refine ⟨params, body, hs, ?_⟩
  rw [Kind.children_of_signature hs] at hd
  rcases List.mem_append.mp hd with hd | hd
  · exact hd
  · obtain rfl := List.mem_singleton.mp hd
    rcases (formed_of_signature h hs).2.2 with hblock | hexpression
    · have hstatement := Kind.isStatement_of_isBlock hblock
      simp [Kind.isStatement, hparam] at hstatement
    · simp [Kind.isExpression, hparam] at hexpression

/-- A well-formed program with none of the constructs is one of the stable dialect. -/
theorem Formed.features_eq_nil {t : Tree σ} (h : t.Formed)
    (hk : t.kind.hasDefault = false ∧ t.kind.isRest = false) (hlacks : ∀ c, Lacks c t) :
    t.features = [] := by
  induction t using Tree.induction_on with
  | node a k ih =>
    have below := (formed_node.mp h).2
    refine features_eq_nil_iff.mpr ⟨feature?_of_absent (fun c => (lacks_node.mp (hlacks c)).1) hk,
      fun d hd => ih d hd (below d hd) ?_ fun c => (lacks_node.mp (hlacks c)).2 d hd⟩
    by_cases hd' : d.kind.category = .param
    · -- Its function has no parameter that is left to lower.
      obtain ⟨params, body, hs, hmem⟩ := h.mem_params hd hd'
      exact ⟨(Construct.absent_params hs (lacks_node.mp (hlacks .defaultParam)).1).1 rfl d hmem,
        (Construct.absent_params hs (lacks_node.mp (hlacks .restParam)).1).2 rfl d hmem⟩
    · exact ⟨Kind.hasDefault_eq_false hd', Kind.isRest_eq_false hd'⟩

end Tree

end Downlevel
