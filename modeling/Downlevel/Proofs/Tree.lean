import Mathlib.Data.List.Basic
import Downlevel.Syntax.Tree

/-!
# Kinds as functors, trees by induction

`Kind.map` obeys the laws of a functor and acts on `children` as a list map does, so a fact about
all kinds at once is one about their children. A tree is then opened one node at a time:
`Tree.induction_on` gives a hypothesis for each child, and `Tree.fold_node` says a fold combines the
values of the children.
-/

namespace Downlevel

namespace Kind

variable {α β γ : Type}

attribute [local simp] map children

@[simp] theorem children_map (f : α → β) (k : Kind α) :
    (k.map f).children = k.children.map f := by
  cases k <;> simp [Option.toList_map]

@[simp] theorem map_map (f : α → β) (g : β → γ) (k : Kind α) :
    (k.map f).map g = k.map fun a => g (f a) := by
  cases k <;> simp [Function.comp_def]

@[simp] theorem map_id (k : Kind α) : k.map (fun a => a) = k := by
  cases k <;> simp

theorem map_congr {f g : α → β} {k : Kind α} (h : ∀ a ∈ k.children, f a = g a) :
    k.map f = k.map g := by
  cases k with
  | declarator _ a | returnStatement a | ifStatement _ _ a | param _ a _ =>
    cases a <;> simp_all
  | _ => simp_all

@[simp] theorem category_map (f : α → β) (k : Kind α) : (k.map f).category = k.category := by
  cases k <;> rfl

@[simp] theorem isBlock_map (f : α → β) (k : Kind α) : (k.map f).isBlock = k.isBlock := by
  cases k <;> rfl

@[simp] theorem isPlace_map (f : α → β) (k : Kind α) : (k.map f).isPlace = k.isPlace := by
  cases k <;> rfl

@[simp] theorem identifierName?_map (f : α → β) (k : Kind α) :
    (k.map f).identifierName? = k.identifierName? := by
  cases k <;> rfl

@[simp] theorem feature?_map (f : α → β) (k : Kind α) : (k.map f).feature? = k.feature? := by
  cases k with
  | declaration keyword _ => cases keyword <;> rfl
  | param _ fallback rest => cases fallback <;> cases rest <;> rfl
  | property _ _ shorthand method => cases shorthand <;> cases method <;> rfl
  | binary op _ _ => cases op <;> rfl
  | _ => rfl

/-! ### Functions -/

theorem signature?_map (f : α → β) (k : Kind α) :
    (k.map f).signature? = k.signature?.map fun (params, body) => (params.map f, f body) := by
  cases k <;> rfl

theorem withParams_map (f : α → β) (k : Kind α) (params : List α) :
    (k.withParams params).map f = (k.map f).withParams (params.map f) := by
  cases k <;> rfl

theorem withBody_map (f : α → β) (k : Kind α) (body : α) :
    (k.withBody body).map f = (k.map f).withBody (f body) := by
  cases k <;> rfl

section Signature

variable {k : Kind α} {params : List α} {body : α}

theorem children_of_signature (h : k.signature? = some (params, body)) :
    k.children = params ++ [body] := by
  cases k <;> simp_all [signature?]

theorem signature?_withParams (h : k.signature? = some (params, body)) (params' : List α) :
    (k.withParams params').signature? = some (params', body) := by
  cases k <;> simp_all [signature?, withParams]

theorem signature?_withBody (h : k.signature? = some (params, body)) (body' : α) :
    (k.withBody body').signature? = some (params, body') := by
  cases k <;> simp_all [signature?, withBody]

theorem withParams_self (h : k.signature? = some (params, body)) : k.withParams params = k := by
  cases k <;> simp_all [signature?, withParams]

theorem withBody_self (h : k.signature? = some (params, body)) : k.withBody body = k := by
  cases k <;> simp_all [signature?, withBody]

theorem withBody_withBody (k : Kind α) (body body' : α) :
    (k.withBody body).withBody body' = k.withBody body' := by
  cases k <;> rfl

end Signature

end Kind

namespace Tree

variable {σ τ β : Type}

@[simp] theorem ann_node (a : σ) (k : Kind (Tree σ)) : (node a k).ann = a := rfl

@[simp] theorem kind_node (a : σ) (k : Kind (Tree σ)) : (node a k).kind = k := rfl

@[simp] theorem node_ann_kind : ∀ t : Tree σ, node t.ann t.kind = t
  | node _ _ => rfl

theorem foldList_eq_map (f : σ → Kind β → β) : ∀ ts, foldList f ts = ts.map (fold f)
  | [] => by simp [foldList]
  | t :: ts => by simp [foldList, foldList_eq_map f ts]

theorem foldOption_eq_map (f : σ → Kind β → β) : ∀ t?, foldOption f t? = t?.map (fold f)
  | none => by simp [foldOption]
  | some t => by simp [foldOption]

theorem foldKind_eq_map (f : σ → Kind β → β) (k : Kind (Tree σ)) :
    foldKind f k = k.map (fold f) := by
  cases k <;> simp [foldKind, Kind.map, foldList_eq_map, foldOption_eq_map]

@[simp] theorem fold_node (f : σ → Kind β → β) (a : σ) (k : Kind (Tree σ)) :
    fold f (node a k) = f a (k.map (fold f)) := by
  rw [fold, foldKind_eq_map]

theorem sizeOf_lt_of_mem_children {k : Kind (Tree σ)} {c : Tree σ} (h : c ∈ k.children) :
    sizeOf c < sizeOf k := by
  cases k with
  | declarator _ d | returnStatement d | param _ d _ =>
    cases d <;> simp only [Kind.children, Option.toList_none, Option.toList_some, List.mem_singleton,
      List.not_mem_nil] at h
    subst h
    simp +arith
  | ifStatement test consequent alternate =>
    cases alternate <;> simp only [Kind.children, Option.toList_none, Option.toList_some,
      List.mem_cons, List.not_mem_nil, or_false] at h
    · rcases h with rfl | rfl <;> simp +arith
    · rcases h with rfl | rfl | rfl <;> simp +arith
  | functionDeclaration _ params body | functionExpression _ params body
  | arrowFunction params body =>
    simp only [Kind.children, List.mem_append, List.mem_singleton] at h
    rcases h with h | rfl
    · have := List.sizeOf_lt_of_mem h
      simp +arith
      omega
    · simp +arith
  | program ts | declaration _ ts | block ts | template _ ts | array ts | object ts =>
    have : sizeOf c < sizeOf ts := List.sizeOf_lt_of_mem h
    simp +arith
    omega
  | call callee ts =>
    simp only [Kind.children, List.mem_cons] at h
    rcases h with rfl | h
    · simp +arith
    · have := List.sizeOf_lt_of_mem h
      simp +arith
      omega
  | whileStatement _ _ | index _ _ | binary _ _ _ | assign _ _ =>
    simp only [Kind.children, List.mem_cons, List.not_mem_nil, or_false] at h
    rcases h with rfl | rfl <;> simp +arith
  | expressionStatement _ | property _ _ _ _ | member _ _ | unary _ _ =>
    simp only [Kind.children, List.mem_singleton] at h
    subst h
    simp +arith
  | empty | number _ | string _ | boolean _ | null | identifier _ | this =>
    simp [Kind.children] at h

/-- A property of trees holds of all if it holds of a node whenever it does of its children. -/
@[elab_as_elim]
theorem induction_on {P : Tree σ → Prop} (node : ∀ a k, (∀ c ∈ k.children, P c) → P (node a k)) :
    ∀ t, P t
  | .node a k => node a k fun c _ => induction_on node c
termination_by t => sizeOf t
decreasing_by
  rename_i h
  have := sizeOf_lt_of_mem_children h
  simp +arith
  omega

end Tree

end Downlevel
