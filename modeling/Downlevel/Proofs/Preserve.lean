import Mathlib.Data.List.TakeWhile
import Downlevel.Proofs.Commute
import Downlevel.Proofs.Formed
import Downlevel.Proofs.Lexeme

/-!
# Lowered trees are well-formed

What a step makes of a node may stand wherever the node may (`Construct.serves_step`). So a condition
on single nodes that is kept by a step is kept where a whole tree is rebuilt with it
(`Tree.each_rebuild`). Being well-formed is one (`Construct.formed_rebuild`).
-/

namespace Downlevel

namespace Kind

variable {α β γ : Type}

def hasDefault : Kind α → Bool
  | param _ fallback _ => fallback.isSome
  | _ => false

/-- The second kind of node may stand wherever the first may. -/
structure Serves (k : Kind α) (l : Kind β) : Prop where
  category : l.category = k.category
  isBlock : l.isBlock = k.isBlock
  isPlace : k.isPlace = true → l.isPlace = true
  isRest : l.isRest = true → k.isRest = true
  hasDefault : l.hasDefault = true → k.hasDefault = true
  isMethod : k.isMethod = true → l.isMethod = true
  identifierName? : ∀ name, k.identifierName? = some name → l.identifierName? = some name

theorem Serves.refl (k : Kind α) : k.Serves k :=
  ⟨rfl, rfl, id, id, id, id, fun _ => id⟩

theorem Serves.trans {k : Kind α} {l : Kind β} {m : Kind γ} (h : k.Serves l) (h' : l.Serves m) :
    k.Serves m where
  category := h'.category.trans h.category
  isBlock := h'.isBlock.trans h.isBlock
  isPlace := h'.isPlace ∘ h.isPlace
  isRest := h.isRest ∘ h'.isRest
  hasDefault := h.hasDefault ∘ h'.hasDefault
  isMethod := h'.isMethod ∘ h.isMethod
  identifierName? name := h'.identifierName? name ∘ h.identifierName? name

theorem hasDefault_map (f : α → β) (k : Kind α) : (k.map f).hasDefault = k.hasDefault := by
  cases k <;> simp [map, hasDefault]

theorem serves_map (f : α → β) (k : Kind α) : k.Serves (k.map f) :=
  have h := alike_map f k
  ⟨h.category, h.isBlock, fun hk => h.isPlace.trans hk, fun hk => h.isRest.symm.trans hk,
    fun hk => (hasDefault_map f k).symm.trans hk, fun hk => h.isMethod.trans hk,
    fun _ hk => h.identifierName?.trans hk⟩

theorem serves_of_map (f : α → β) (k : Kind α) : (k.map f).Serves k :=
  have h := alike_map f k
  ⟨h.category.symm, h.isBlock.symm, fun hk => h.isPlace.symm.trans hk, fun hk => h.isRest.trans hk,
    fun hk => (hasDefault_map f k).trans hk, fun hk => h.isMethod.symm.trans hk,
    fun _ hk => h.identifierName?.symm.trans hk⟩

theorem serves_map_map (f : α → β) (g : α → γ) (k : Kind α) : (k.map f).Serves (k.map g) :=
  (serves_of_map f k).trans (serves_map g k)

theorem isRest_eq_false {k : Kind α} (h : k.category ≠ .param) : k.isRest = false := by
  cases k <;> first | rfl | exact absurd rfl h

theorem hasDefault_eq_false {k : Kind α} (h : k.category ≠ .param) : k.hasDefault = false := by
  cases k <;> first | rfl | exact absurd rfl h

/-- For a node that no other node refers to by what it is, only its class counts. -/
theorem serves_of_category {k : Kind α} {l : Kind β} (hcategory : l.category = k.category)
    (hisBlock : l.isBlock = k.isBlock) (hparam : k.category ≠ .param) (hisPlace : k.isPlace = false)
    (hisMethod : k.isMethod = true → l.isMethod = true) (hname : k.identifierName? = none) :
    k.Serves l where
  category := hcategory
  isBlock := hisBlock
  isPlace h := by simp [hisPlace] at h
  isRest h := by simp [isRest_eq_false (hcategory ▸ hparam)] at h
  hasDefault h := by simp [hasDefault_eq_false (hcategory ▸ hparam)] at h
  isMethod := hisMethod
  identifierName? name h := by simp [hname] at h

section Mono

variable {u : γ → Kind α} {v : γ → Kind β}

theorem all_map_mono {p : Kind α → Bool} {q : Kind β → Bool} {l : List γ}
    (h : ∀ c ∈ l, p (u c) = true → q (v c) = true) (hp : (l.map u).all p = true) :
    (l.map v).all q = true := by
  simp only [List.all_map, List.all_eq_true, Function.comp_apply] at hp ⊢
  exact fun c hc => h c hc (hp c hc)

theorem option_all_map_mono {p : Kind α → Bool} {q : Kind β → Bool} {l : Option γ}
    (h : ∀ c ∈ l.toList, p (u c) = true → q (v c) = true) (hp : (l.map u).all p = true) :
    (l.map v).all q = true := by
  cases l with
  | none => rfl
  | some c => exact h c (by simp) hp

theorem Serves.not_isRest {k : Kind α} {l : Kind β} (h : k.Serves l) (hk : (!k.isRest) = true) :
    (!l.isRest) = true := by
  have hrest := h.isRest
  cases hl : l.isRest <;> simp_all

theorem paramsFormed_serves {l : List γ} (h : ∀ c ∈ l, (u c).Serves (v c))
    (hp : paramsFormed (l.map u) = true) : paramsFormed (l.map v) = true := by
  simp only [paramsFormed, Bool.and_eq_true, ← List.map_dropLast] at hp ⊢
  refine ⟨all_map_mono (fun c hc hk => ?_) hp.1,
    all_map_mono (fun c hc => (h c (l.dropLast_subset hc)).not_isRest) hp.2⟩
  rw [isParam, (h c hc).category]
  exact hk

theorem valueFormed_serves {k : Kind α} {l : Kind β} (h : k.Serves l) {key : PropertyKey}
    {shorthand method : Bool} (hk : valueFormed key k shorthand method = true) :
    valueFormed key l shorthand method = true := by
  cases shorthand <;> cases method <;>
    simp only [valueFormed, isExpression, Bool.and_eq_true, decide_eq_true_eq] at hk ⊢
  · exact h.category.trans hk
  · exact h.isMethod hk
  · exact ⟨hk.1, h.identifierName? _ hk.2⟩
  · cases hk

/-- A node stays well-formed when nodes that may stand in their places take those of its children. -/
theorem formed_serves {k : Kind γ} (h : ∀ c ∈ k.children, (u c).Serves (v c))
    (hk : (k.map u).formed = true) : (k.map v).formed = true := by
  have hs : ∀ c ∈ k.children, (u c).isStatement = true → (v c).isStatement = true :=
    fun c hc hk => by rwa [isStatement, (h c hc).category]
  have he : ∀ c ∈ k.children, (u c).isExpression = true → (v c).isExpression = true :=
    fun c hc hk => by rwa [isExpression, (h c hc).category]
  have hb : ∀ c ∈ k.children, (u c).isBlock = true → (v c).isBlock = true :=
    fun c hc hk => by rwa [(h c hc).isBlock]
  cases k with
  | program body | block body => exact all_map_mono hs hk
  | declaration _ declarators =>
    simp only [map, formed, List.isEmpty_map, Bool.and_eq_true] at hk ⊢
    refine ⟨hk.1, all_map_mono (fun c hc hk => ?_) hk.2⟩
    rw [isDeclarator, (h c hc).category]
    exact hk
  | declarator _ init =>
    simp only [map, formed, Bool.and_eq_true] at hk ⊢
    exact ⟨hk.1, option_all_map_mono he hk.2⟩
  | returnStatement argument => exact option_all_map_mono he hk
  | param _ fallback _ =>
    simp only [map, formed, Option.isSome_map, Bool.and_eq_true] at hk ⊢
    exact ⟨⟨hk.1.1, option_all_map_mono he hk.1.2⟩, hk.2⟩
  | functionDeclaration _ params body | functionExpression _ params body =>
    simp only [map, formed, Bool.and_eq_true] at hk ⊢
    exact ⟨⟨hk.1.1, paramsFormed_serves (fun c hc => h c (by simp [children, hc])) hk.1.2⟩,
      hb body (by simp [children]) hk.2⟩
  | arrowFunction params body =>
    simp only [map, formed, Bool.and_eq_true, Bool.or_eq_true] at hk ⊢
    exact ⟨paramsFormed_serves (fun c hc => h c (by simp [children, hc])) hk.1,
      hk.2.imp (hb body (by simp [children])) (he body (by simp [children]))⟩
  | ifStatement test consequent alternate =>
    simp only [map, formed, Bool.and_eq_true] at hk ⊢
    exact ⟨⟨he test (by simp [children]) hk.1.1, hs consequent (by simp [children]) hk.1.2⟩,
      option_all_map_mono (fun c hc => hs c (by simp [children, hc])) hk.2⟩
  | template quasis expressions =>
    simp only [map, formed, List.length_map, Bool.and_eq_true] at hk ⊢
    exact ⟨hk.1, all_map_mono he hk.2⟩
  | array elements => exact all_map_mono he hk
  | object properties =>
    refine all_map_mono (fun c hc hk => ?_) hk
    rw [isProperty, (h c hc).category]
    exact hk
  | property key value shorthand method =>
    simp only [map, formed, Bool.and_eq_true] at hk ⊢
    exact ⟨hk.1, valueFormed_serves (h value (by simp [children])) hk.2⟩
  | member base name =>
    simp only [map, formed, Bool.and_eq_true] at hk ⊢
    exact ⟨he base (by simp [children]) hk.1, hk.2⟩
  | call callee arguments =>
    simp only [map, formed, Bool.and_eq_true] at hk ⊢
    exact ⟨he callee (by simp [children]) hk.1,
      all_map_mono (fun c hc => he c (by simp [children, hc])) hk.2⟩
  | assign target value =>
    simp only [map, formed, Bool.and_eq_true] at hk ⊢
    exact ⟨(h target (by simp [children])).isPlace hk.1, he value (by simp [children]) hk.2⟩
  | whileStatement test body =>
    simp only [map, formed, Bool.and_eq_true] at hk ⊢
    exact ⟨he test (by simp [children]) hk.1, hs body (by simp [children]) hk.2⟩
  | index left right | binary _ left right =>
    simp only [map, formed, Bool.and_eq_true] at hk ⊢
    exact ⟨he left (by simp [children]) hk.1, he right (by simp [children]) hk.2⟩
  | expressionStatement e | unary _ e => exact he e (by simp [children]) hk
  | empty | number _ | string _ | boolean _ | null | identifier _ | this => exact hk

end Mono

end Kind

namespace Construct

variable {σ : Type}

open Downlevel.Tree

/-- What becomes of a node may stand wherever the node may. -/
theorem serves_step (c : Construct) (a : σ) (bound : Bool) (k : Kind (Tree σ)) :
    k.Serves (c.step a bound k) := by
  by_cases hk : k.isUntouched = true
  · rw [c.step_of_isUntouched a bound hk]
    exact .refl k
  · refine Kind.serves_of_category (c.category_step a bound k) (c.isBlock_step a bound k) ?_ ?_ ?_ ?_
    · cases k <;> first | exact absurd rfl hk | nofun
    · cases k <;> first | exact absurd rfl hk | rfl
    · cases k with
      | functionExpression name _ _ => cases name <;> cases c <;> exact id
      | _ => nofun
    · cases k <;> first | exact absurd rfl hk | rfl

theorem serves_rebuild (c : Construct) (t : Tree σ) : t.kind.Serves (rebuild c.step t).kind := by
  obtain ⟨a, k⟩ := t
  rw [rebuild_node]
  exact (Kind.serves_map _ k).trans (c.serves_step a _ _)

section Each

variable (c : Construct) {P : Kind (Kind (Tree σ)) → Prop}
  (hserves : ∀ {k : Kind (Tree σ)} {u v : Tree σ → Kind (Tree σ)},
    (∀ d ∈ k.children, (u d).Serves (v d)) → P (k.map u) → P (k.map v))

include hserves

theorem each_map_rebuild {a : σ} {k : Kind (Tree σ)} (here : P (k.map kind))
    (below : ∀ d ∈ k.children, Each P (rebuild c.step d)) :
    Each P (node a (k.map (rebuild c.step))) := by
  refine each_node.mpr ⟨?_, ?_⟩
  · rw [Kind.map_map]
    exact hserves (fun d _ => c.serves_rebuild d) here
  · rw [Kind.children_map]
    intro d hd
    obtain ⟨e, he, rfl⟩ := List.mem_map.mp hd
    exact below e he

/-- A condition on single nodes that a step keeps holds wherever a tree is rebuilt with it. -/
theorem each_rebuild (hstep : ∀ a bound k, Each P (node a k) → Each P (node a (c.step a bound k)))
    {t : Tree σ} (h : Each P t) : Each P (rebuild c.step t) := by
  induction t using induction_on with
  | node a k ih =>
    obtain ⟨here, below⟩ := each_node.mp h
    rw [rebuild_node]
    exact hstep a _ _ (c.each_map_rebuild hserves here fun d hd => ih d hd (below d hd))

end Each

end Construct

/-! ## Texts that lowerings write -/

namespace Lexeme

theorem stringContents_cons {c : Char} (hc : c ≠ '"' ∧ c ≠ '\\' ∧ c ≠ '\n' ∧ c ≠ '\r')
    (cs : List Char) : stringContents (c :: cs) = stringContents cs + 1 := by
  rw [stringContents.eq_3 _ _ fun _ _ h => absurd h hc.2.1, if_neg (by simp [hc])]

/-- The text of a template, quoted, may stand between the quotes of a string. -/
theorem stringContents_quoted (raw : List Char) :
    stringContents (Lowering.quoted raw) = (Lowering.quoted raw).length := by
  fun_induction Lowering.quoted raw with
  | case1 | case2 | case5 => rfl
  -- An escaped line end is left out.
  | case4 _ _ _ _ ih | case6 _ _ _ ih | case7 _ _ _ _ _ ih => exact ih
  -- Characters that only a template has to escape.
  | case3 d ds hd ih =>
    have hplain : d ≠ '"' ∧ d ≠ '\\' ∧ d ≠ '\n' ∧ d ≠ '\r' := by
      simp only [Bool.or_eq_true, decide_eq_true_eq] at hd
      rcases hd with rfl | rfl <;> decide
    rw [stringContents_cons hplain, ih, List.length_cons]
  | case8 _ _ _ _ _ ih | case9 _ _ ih | case10 _ _ _ ih | case11 _ _ _ _ ih =>
    simp [stringContents, ih]
  | case12 c cs h₁ h₂ h₃ h₄ ih =>
    rw [stringContents_cons ⟨h₂, h₁, h₃, h₄⟩, ih, List.length_cons]

theorem isStringContents_quotedString (raw : String) :
    isStringContents (Lowering.quotedString raw) = true := by
  simp [isStringContents, Lowering.quotedString, stringContents_quoted]

theorem isNumber_repr (n : Nat) : isNumber n.repr = true := by
  have hdigits : digits (Nat.toDigits 10 n) = Nat.toDigits 10 n :=
    List.takeWhile_eq_self_iff.mpr fun c hc =>
      Nat.isDigit_of_mem_toDigits (by omega) (by omega) hc
  have hnumber : number (Nat.toDigits 10 n ++ []) = some (Nat.toDigits 10 n).length :=
    number_digits Nat.toDigits_ne_nil hdigits rfl nofun
  rw [List.append_nil] at hnumber
  simp [isNumber, hnumber]

end Lexeme

namespace Tree

variable {σ : Type} {a : σ}

/-! ## Well-formed parts -/

theorem formed_ensureBlock {body : Tree σ} (h : body.Formed)
    (hbody : body.kind.isBlock = true ∨ body.kind.isExpression = true) :
    (ensureBlock body).Formed := by
  unfold ensureBlock
  split
  · exact h
  · rename_i hb
    have he : body.kind.isExpression = true := hbody.resolve_left hb
    have hreturn : (node body.ann (.returnStatement (some body))).Formed :=
      formed_node.mpr ⟨he, by simpa [Kind.children] using h⟩
    exact formed_node.mpr ⟨rfl, by simpa [Kind.children] using hreturn⟩

theorem formed_prepend {statements : List (Tree σ)} {body : Tree σ}
    (hs : ∀ s ∈ statements, s.Formed ∧ s.kind.isStatement = true) (h : body.Formed)
    (hbody : body.kind.isBlock = true ∨ body.kind.isExpression = true) :
    (prepend statements body).Formed := by
  cases statements with
  | nil => exact h
  | cons s statements =>
    obtain ⟨old, hold⟩ := exists_eq_block (isBlock_ensureBlock body)
    have hblock := formed_ensureBlock h hbody
    rw [prepend_of_ne_nil (List.cons_ne_nil s statements)]
    rw [hold] at hblock ⊢
    rw [prepend_block]
    obtain ⟨here, below⟩ := formed_node.mp hblock
    have here : ∀ t ∈ old, t.kind.isStatement = true := all_map_kind.mp here
    refine formed_node.mpr ⟨all_map_kind.mpr fun t ht => ?_, fun t ht => ?_⟩
    · rcases List.mem_append.mp ht with ht | ht
      · exact (hs t ht).2
      · exact here t ht
    · rcases List.mem_append.mp ht with ht | ht
      · exact (hs t ht).1
      · exact below t ht

theorem formed_nullCheck {name : String} {fallback : Tree σ} (h : fallback.Formed)
    (hname : Lexeme.isIdentifier name = true) (hfallback : fallback.kind.isExpression = true) :
    (nullCheck a name fallback).Formed := by
  simp [nullCheck, formed_node, Kind.map, Kind.formed, Kind.children, hname, hfallback, h]
  exact ⟨⟨rfl, rfl⟩, ⟨rfl, rfl⟩, rfl, rfl, rfl⟩

theorem formed_sliceArguments {name : String} (hname : Lexeme.isIdentifier name = true)
    (index : Nat) : (sliceArguments a name index).Formed := by
  simp [sliceArguments, formed_node, Kind.map, Kind.formed, Kind.children, hname, Lexeme.isNumber_repr]
  refine ⟨rfl, rfl, ⟨rfl, rfl, rfl⟩, ⟨⟨rfl, ?_⟩, ⟨rfl, ?_⟩, ⟨rfl, ?_⟩, ?_⟩, ?_⟩ <;> decide

theorem serves_withoutDefault (t : Tree σ) : t.kind.Serves (withoutDefault t).kind := by
  obtain ⟨a, k⟩ := t
  cases k with
  | param name fallback rest =>
    cases fallback with
    | none => exact .refl _
    | some d => exact ⟨rfl, rfl, nofun, id, nofun, nofun, nofun⟩
  | _ => exact .refl _

theorem formed_withoutDefault {t : Tree σ} (h : t.Formed) : (withoutDefault t).Formed := by
  obtain ⟨a, k⟩ := t
  cases k with
  | param name fallback rest =>
    cases fallback with
    | none => exact h
    | some d =>
      have here := (formed_node.mp h).1
      simp only [Kind.map, Kind.formed, Bool.and_eq_true] at here
      refine formed_node.mpr ⟨?_, by simp [Kind.children]⟩
      simp [Kind.map, Kind.formed, here.1.1]
  | _ => exact h

theorem paramsFormed_map_withoutDefault {params : List (Tree σ)}
    (h : Kind.paramsFormed (params.map kind) = true) :
    Kind.paramsFormed ((params.map withoutDefault).map kind) = true := by
  rw [List.map_map]
  exact Kind.paramsFormed_serves (fun t _ => serves_withoutDefault t) h

theorem withoutRest_subset (params : List (Tree σ)) : withoutRest params ⊆ params := by
  unfold withoutRest
  split
  · exact List.dropLast_subset params
  · exact List.Subset.refl params

theorem paramsFormed_withoutRest {params : List (Tree σ)}
    (h : Kind.paramsFormed (params.map kind) = true) :
    Kind.paramsFormed ((withoutRest params).map kind) = true := by
  unfold withoutRest
  split
  · simp only [Kind.paramsFormed, Bool.and_eq_true, List.all_eq_true, List.map_dropLast] at h ⊢
    exact ⟨fun k hk => h.1 k (List.dropLast_subset _ hk),
      fun k hk => h.2 k (List.dropLast_subset _ hk)⟩
  · exact h

theorem formed_defaultChecks {params : List (Tree σ)} (h : ∀ t ∈ params, t.Formed) :
    ∀ s ∈ defaultChecks params, s.Formed ∧ s.kind.isStatement = true := by
  intro s hs
  obtain ⟨t, ht, hcheck⟩ := List.mem_filterMap.mp hs
  obtain ⟨a, k⟩ := t
  cases k with
  | param name fallback rest =>
    cases fallback with
    | none => cases hcheck
    | some d =>
      cases hcheck
      obtain ⟨here, below⟩ := formed_node.mp (h _ ht)
      simp only [Kind.map, Kind.formed, Bool.and_eq_true] at here
      exact ⟨formed_nullCheck (below d (by simp [Kind.children])) here.1.1 here.1.2, rfl⟩
  | _ => cases hcheck

theorem formed_restDeclaration {params : List (Tree σ)} (h : ∀ t ∈ params, t.Formed) :
    ∀ s ∈ restDeclaration params, s.Formed ∧ s.kind.isStatement = true := by
  rcases List.eq_nil_or_concat params with rfl | ⟨init, last, rfl⟩
  · intro s hs
    cases hs
  · rw [List.concat_eq_append] at h ⊢
    rw [restDeclaration, lastRest?_concat]
    have hlast : last.Formed := h last (by simp)
    obtain ⟨a, k⟩ := last
    cases k with
    | param name fallback rest =>
      cases rest with
      | false =>
        intro s hs
        cases hs
      | true =>
        have here := (formed_node.mp hlast).1
        simp only [Kind.map, Kind.formed, Bool.and_eq_true] at here
        intro s hs
        obtain rfl := List.mem_singleton.mp hs
        exact ⟨formed_sliceArguments here.1.1 _, rfl⟩
    | _ =>
      intro s hs
      cases hs

/-- A function with other parameters, and with another body that is a block or the old one. -/
theorem formed_withSignature {k : Kind (Tree σ)} (h : (node a k).Formed)
    {params params' : List (Tree σ)} {body body' : Tree σ}
    (hk : k.signature? = some (params, body)) (hparams' : ∀ t ∈ params', t.Formed)
    (hformed : Kind.paramsFormed (params'.map kind) = true) (hbody : body'.Formed)
    (hblock : body'.kind.isBlock = true ∨ body' = body) :
    (node a ((k.withParams params').withBody body')).Formed := by
  obtain ⟨here, -⟩ := formed_node.mp h
  have hbelow : ∀ t ∈ params' ++ [body'], t.Formed := by
    intro t ht
    rcases List.mem_append.mp ht with ht | ht
    · exact hparams' t ht
    · rw [List.mem_singleton.mp ht]
      exact hbody
  refine formed_node.mpr ⟨?_, ?_⟩
  · cases k with
    | functionDeclaration | functionExpression =>
      cases hk
      simp only [Kind.withParams, Kind.withBody, Kind.map, Kind.formed, Bool.and_eq_true] at here ⊢
      exact ⟨⟨here.1.1, hformed⟩, hblock.elim id fun h => h ▸ here.2⟩
    | arrowFunction =>
      cases hk
      simp only [Kind.withParams, Kind.withBody, Kind.map, Kind.formed, Bool.and_eq_true,
        Bool.or_eq_true] at here ⊢
      exact ⟨hformed, hblock.elim Or.inl fun h => h ▸ here.2⟩
    | _ => cases hk
  · cases k with
    | functionDeclaration | functionExpression | arrowFunction => exact hbelow
    | _ => cases hk

/-- The parts of a well-formed function. -/
theorem formed_of_signature {k : Kind (Tree σ)} (h : (node a k).Formed) {params : List (Tree σ)}
    {body : Tree σ} (hk : k.signature? = some (params, body)) :
    ((∀ t ∈ params, t.Formed) ∧ Kind.paramsFormed (params.map kind) = true) ∧ body.Formed ∧
      (body.kind.isBlock = true ∨ body.kind.isExpression = true) := by
  obtain ⟨here, below⟩ := formed_node.mp h
  rw [Kind.children_of_signature hk] at below
  have hparams : ∀ t ∈ params, t.Formed := fun t ht => below t (List.mem_append_left _ ht)
  have hbody : body.Formed := below body (by simp)
  cases k with
  | functionDeclaration | functionExpression =>
    cases hk
    simp only [Kind.map, Kind.formed, Bool.and_eq_true] at here
    exact ⟨⟨hparams, here.1.2⟩, hbody, .inl here.2⟩
  | arrowFunction =>
    cases hk
    simp only [Kind.map, Kind.formed, Bool.and_eq_true, Bool.or_eq_true] at here
    exact ⟨⟨hparams, here.1⟩, hbody, here.2⟩
  | _ => cases hk

theorem isBlock_prepend_or (statements : List (Tree σ)) (body : Tree σ) :
    (prepend statements body).kind.isBlock = true ∨ prepend statements body = body := by
  cases statements with
  | nil => exact .inr rfl
  | cons s statements =>
    rw [prepend_of_ne_nil (List.cons_ne_nil s statements)]
    exact .inl (isBlock_prepend (isBlock_ensureBlock body))

/-- A sum of well-formed parts. -/
theorem formed_sum {total : Kind (Tree σ)} (htotal : (node a total).Formed)
    (hexpression : total.isExpression = true) {es : List (Tree σ)} {texts : List String}
    (hes : ∀ e ∈ es, e.Formed ∧ e.kind.isExpression = true)
    (htexts : ∀ text ∈ texts, Lexeme.isStringContents text = true) :
    (node a (sum a total es texts)).Formed := by
  have hadd : ∀ {l r : Tree σ}, l.Formed ∧ l.kind.isExpression = true →
      r.Formed ∧ r.kind.isExpression = true → (node a (.binary .add l r)).Formed := by
    intro l r hl hr
    refine formed_node.mpr ⟨?_, by simp [Kind.children, hl.1, hr.1]⟩
    simp [Kind.map, Kind.formed, hl.2, hr.2]
  fun_induction sum a total es texts with
  | case1 => exact htotal
  | case2 total e es ih =>
    rw [List.forall_mem_cons] at hes
    exact ih (hadd ⟨htotal, hexpression⟩ hes.1) rfl hes.2 htexts
  | case3 total e es text texts _ ih =>
    rw [List.forall_mem_cons] at hes htexts
    exact ih (hadd ⟨htotal, hexpression⟩ hes.1) rfl hes.2 htexts.2
  | case4 total e es text texts _ ih =>
    rw [List.forall_mem_cons] at hes htexts
    have htext : (node a (.string text)).Formed :=
      formed_node.mpr ⟨htexts.1, by simp [Kind.children]⟩
    exact ih (hadd ⟨hadd ⟨htotal, hexpression⟩ hes.1, rfl⟩ ⟨htext, rfl⟩) rfl hes.2 htexts.2

theorem formed_concatenation {quasis : List String} {expressions : List (Tree σ)}
    (h : ∀ e ∈ expressions, e.Formed ∧ e.kind.isExpression = true) :
    (node a (concatenation a quasis expressions)).Formed := by
  have hquoted : ∀ text ∈ quasis.map Lowering.quotedString,
      Lexeme.isStringContents text = true := by
    intro text ht
    obtain ⟨raw, -, rfl⟩ := List.mem_map.mp ht
    exact Lexeme.isStringContents_quotedString raw
  refine formed_sum (formed_node.mpr ⟨?_, by simp [Kind.children]⟩) rfl h
    fun text ht => hquoted text (List.mem_of_mem_tail ht)
  cases hq : quasis.map Lowering.quotedString with
  | nil => rfl
  | cons text texts => exact hquoted text (by simp [hq])

theorem formed_bindThis {k : Kind (Tree σ)} (h : (node a k).Formed) (hk : k.isExpression = true)
    (bound : Bool) : (node a (bindThis a bound k)).Formed := by
  cases bound with
  | false => exact h
  | true =>
    have hbind : Lexeme.isName "bind" = true := by decide
    have hmember : (node a (.member (node a k) "bind")).Formed := by
      refine formed_node.mpr ⟨?_, by simpa [Kind.children] using h⟩
      simp [Kind.map, Kind.formed, hk, hbind]
    have hthis : (node a .this).Formed := formed_node.mpr ⟨rfl, by simp [Kind.children]⟩
    exact formed_node.mpr ⟨rfl, by simp [bindThis, Kind.children, hmember, hthis]⟩

theorem formed_mathPow {base exponent : Tree σ} (hb : base.Formed ∧ base.kind.isExpression = true)
    (he : exponent.Formed ∧ exponent.kind.isExpression = true) :
    (node a (mathPow a base exponent)).Formed := by
  have hpow : Lexeme.isName "pow" = true := by decide
  have hmath : Lexeme.isIdentifier "Math" = true := by decide
  simp [mathPow, formed_node, Kind.map, Kind.formed, Kind.children, hb, he, hpow, hmath]
  exact ⟨rfl, rfl⟩

end Tree

namespace Construct

variable {σ : Type}

open Downlevel.Tree

/-! ## Well-formed steps -/

theorem formed_arrowStep {a : σ} {params : List (Tree σ)} {body : Tree σ} (bound : Bool)
    (h : (node a (.arrowFunction params body)).Formed) :
    (node a (arrowStep a bound (.arrowFunction params body))).Formed := by
  obtain ⟨⟨hparams, hformed⟩, hbody, hkind⟩ := formed_of_signature h rfl
  refine formed_bindThis (formed_node.mpr ⟨?_, ?_⟩) rfl bound
  · simp [Kind.map, Kind.formed, hformed]
  · intro t ht
    rcases List.mem_append.mp ht with ht | ht
    · exact hparams t ht
    · rw [List.mem_singleton.mp ht]
      exact formed_ensureBlock hbody hkind

theorem formed_defaultStep {a : σ} {k : Kind (Tree σ)} (bound : Bool) (h : (node a k).Formed) :
    (node a (defaultStep a bound k)).Formed := by
  cases hk : k.signature? with
  | none => rwa [defaultStep_of_none hk]
  | some signature =>
    obtain ⟨params, body⟩ := signature
    obtain ⟨⟨hparams, hformed⟩, hbody, hkind⟩ := formed_of_signature h hk
    rw [defaultStep_of_signature hk]
    refine formed_withSignature h hk ?_ (paramsFormed_map_withoutDefault hformed)
      (formed_prepend (formed_defaultChecks hparams) hbody hkind) (isBlock_prepend_or _ body)
    intro t ht
    obtain ⟨p, hp, rfl⟩ := List.mem_map.mp ht
    exact formed_withoutDefault (hparams p hp)

theorem formed_restStep {a : σ} {k : Kind (Tree σ)} (bound : Bool) (h : (node a k).Formed) :
    (node a (restStep a bound k)).Formed := by
  cases k with
  | functionDeclaration name params body | functionExpression name params body =>
    obtain ⟨⟨hparams, hformed⟩, hbody, hkind⟩ := formed_of_signature h rfl
    exact formed_withSignature h rfl (fun t ht => hparams t (withoutRest_subset params ht))
      (paramsFormed_withoutRest hformed)
      (formed_prepend (formed_restDeclaration hparams) hbody hkind) (isBlock_prepend_or _ body)
  | _ => exact h

theorem formed_property {a : σ} {key : PropertyKey} {value : Tree σ} {shorthand method : Bool}
    (h : (node a (.property key value shorthand method)).Formed) {shorthand' method' : Bool}
    (hs : shorthand' = true → shorthand = true) (hm : method' = true → method = true) :
    (node a (.property key value shorthand' method')).Formed := by
  obtain ⟨here, below⟩ := formed_node.mp h
  refine formed_node.mpr ⟨?_, below⟩
  simp only [Kind.map, Kind.formed, Bool.and_eq_true] at here ⊢
  refine ⟨here.1, ?_⟩
  have hvalue := here.2
  cases shorthand' with
  | true =>
    obtain rfl := hs rfl
    cases method with
    | true => cases hvalue
    | false => cases method' <;> simp_all
  | false =>
    cases method' with
    | true =>
      obtain rfl := hm rfl
      cases shorthand with
      | true => cases hvalue
      | false => exact hvalue
    | false =>
      exact Kind.isExpression_of_valueFormed hvalue

theorem formed_step (c : Construct) (a : σ) (bound : Bool) (k : Kind (Tree σ))
    (h : (node a k).Formed) : (node a (c.step a bound k)).Formed := by
  by_cases hk : k.isUntouched = true
  · rwa [c.step_of_isUntouched a bound hk]
  · cases c with
    | defaultParam => exact formed_defaultStep bound h
    | restParam => exact formed_restStep bound h
    | arrowFunction =>
      cases k with
      | arrowFunction params body => exact formed_arrowStep bound h
      | _ => exact h
    | conciseMethod =>
      cases k with
      | property key value shorthand method => exact formed_property h id nofun
      | _ => exact h
    | shorthandProperty =>
      cases k with
      | property key value shorthand method => exact formed_property h nofun id
      | _ => exact h
    | templateLiteral =>
      cases k with
      | template quasis expressions =>
        obtain ⟨here, below⟩ := formed_node.mp h
        simp only [Kind.map, Kind.formed, Bool.and_eq_true] at here
        exact formed_concatenation fun e he => ⟨below e he, all_map_kind.mp here.2 e he⟩
      | _ => exact h
    | powerOperator =>
      cases k with
      | binary op left right =>
        cases op with
        | power =>
          obtain ⟨here, below⟩ := formed_node.mp h
          simp only [Kind.map, Kind.formed, Bool.and_eq_true] at here
          exact formed_mathPow ⟨below left (by simp [Kind.children]), here.1⟩
            ⟨below right (by simp [Kind.children]), here.2⟩
        | _ => exact h
      | _ => exact h
    | blockScope =>
      cases k with
      | declaration keyword declarators =>
        exact formed_node.mpr ⟨(formed_node.mp h).1, (formed_node.mp h).2⟩
      | _ => exact h

theorem formed_rebuild (c : Construct) {t : Tree σ} (h : t.Formed) : (rebuild c.step t).Formed :=
  c.each_rebuild Kind.formed_serves c.formed_step h

theorem formed_map_rebuild (c : Construct) {a : σ} {k : Kind (Tree σ)} (h : (node a k).Formed) :
    (node a (k.map (rebuild c.step))).Formed := by
  obtain ⟨here, below⟩ := formed_node.mp h
  exact c.each_map_rebuild Kind.formed_serves here fun d hd => c.formed_rebuild (below d hd)

end Construct

end Downlevel
