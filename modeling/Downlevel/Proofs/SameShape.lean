import Mathlib.Data.List.Forall2
import Downlevel.Proofs.Rebuild

/-!
# Trees put together from parts of the same shape

`Both R v v'` says that two values are both faults, or both there and related by `R`. Values that are
put together from parts of the same shape are both faults or have the same shape, whatever the places
are that they name.
-/

namespace Downlevel

open Downlevel.Tree (node shape)

/-- Both values are faults, or both are there and related. -/
inductive Both {α : Type} (R : α → α → Prop) : Except Fault α → Except Fault α → Prop
  | ok {a a' : α} (h : R a a') : Both R (.ok a) (.ok a')
  | error (e e' : Fault) : Both R (.error e) (.error e')

/-- Trees that are equal but for the places they name. -/
abbrev SameShape (t t' : RawTree) : Prop :=
  t.shape = t'.shape

abbrev SameShapes (ts ts' : List RawTree) : Prop :=
  ts.map shape = ts'.map shape

theorem SameShapes.cons {t t' : RawTree} {ts ts' : List RawTree} (h : SameShape t t')
    (hs : SameShapes ts ts') : SameShapes (t :: ts) (t' :: ts') :=
  congrArg₂ List.cons h hs

theorem sameShape_node {range range' : Range} {k k' : Kind RawTree}
    (h : k.map shape = k'.map shape) : SameShape (node range k) (node range' k') := by
  rw [SameShape, Tree.shape_node, Tree.shape_node, h]

namespace Both

variable {α β : Type} {R : α → α → Prop} {S : β → β → Prop}

theorem bind {v v' : Except Fault α} {f f' : α → Except Fault β} (h : Both R v v')
    (hf : ∀ a a', R a a' → Both S (f a) (f' a')) : Both S (v >>= f) (v' >>= f') := by
  cases h with
  | ok h => exact hf _ _ h
  | error e e' => exact .error e e'

/-- A check that both fail or both pass. -/
theorem check {b b' : Bool} {e e' : Fault} {v v' : Except Fault α} (hb : b = b')
    (h : Both R v v') :
    Both R (if b = true then throw e >>= fun _ : Unit => v else v)
      (if b' = true then throw e' >>= fun _ : Unit => v' else v') := by
  subst hb
  cases b with
  | true => exact .error e e'
  | false => exact h

theorem node {range range' : Range} {k k' : Kind RawTree} (h : k.map shape = k'.map shape) :
    Both SameShape (pure (node range k)) (pure (Tree.node range' k')) :=
  .ok (sameShape_node h)

theorem all {vs vs' : List Built} (h : List.Forall₂ (Both SameShape) vs vs') :
    Both SameShapes (Build.all vs) (Build.all vs') := by
  induction h with
  | nil => exact .ok rfl
  | cons hv _ ih =>
    simp only [Build.all, List.mapM_cons]
    exact hv.bind fun _ _ ht => ih.bind fun _ _ hts => .ok (.cons ht hts)

theorem maybe {v? v?' : Option Built} (h : Option.Rel (Both SameShape) v? v?') :
    Both (fun t? t?' => t?.map shape = t?'.map shape) (Build.maybe v?) (Build.maybe v?') := by
  cases h with
  | none => exact .ok rfl
  | some h => exact h.bind fun _ _ ht => .ok (by simp [ht])

end Both

/-- Parameters written alike. -/
structure ParamText.Alike (p p' : ParamText) : Prop where
  rest : p.rest = p'.rest
  name : p.name = p'.name
  fallback : Option.Rel (Both SameShape) p.fallback p'.fallback

inductive Suffix.Alike : Suffix → Suffix → Prop
  | call {range range' : Range} {arguments arguments' : List Built}
    (h : List.Forall₂ (Both SameShape) arguments arguments') :
    Suffix.Alike (.call range arguments) (.call range' arguments')
  | member {range range' : Range} {name name' : String} (h : name = name') :
    Suffix.Alike (.member range name) (.member range' name')
  | index {range range' : Range} {key key' : Built} (h : Both SameShape key key') :
    Suffix.Alike (.index range key) (.index range' key')

inductive TemplatePart.Alike : TemplatePart → TemplatePart → Prop
  | chars (text : String) : TemplatePart.Alike (.chars text) (.chars text)
  | substitution {value value' : Built} (h : Both SameShape value value') :
    TemplatePart.Alike (.substitution value) (.substitution value')

/-- Texts that are taken for the same operator, or both for none. -/
def OperatorText.Alike (o o' : OperatorText) : Prop :=
  Both (· = ·) (Build.operator o) (Build.operator o')

namespace Build

variable {range range' : Range} {vs vs' : List Built} {v v' w w' : Built} {v? v?' : Option Built}
  {ps ps' : Except Fault (List RawTree)} {name name' : Token}

/-! ## Statements -/

theorem both_program (h : List.Forall₂ (Both SameShape) vs vs') :
    Both SameShape (program vs range) (program vs' range') :=
  (Both.all h).bind fun _ _ hts => .node (congrArg Kind.program hts)

theorem both_declaration (keyword : DeclKind) (h : List.Forall₂ (Both SameShape) vs vs') :
    Both SameShape (declaration keyword vs range) (declaration keyword vs' range') :=
  (Both.all h).bind fun _ _ hts => .node (congrArg (Kind.declaration keyword) hts)

theorem both_declarator (hname : name.text = name'.text)
    (h : Option.Rel (Both SameShape) v? v?') :
    Both SameShape (declarator name v? range) (declarator name' v?' range') :=
  (Both.maybe h).bind fun _ _ ht => .node (by simp only [Kind.map, hname, ht])

theorem both_params {ps ps' : List ParamText} (h : List.Forall₂ ParamText.Alike ps ps') :
    Both SameShapes (params ps) (params ps') := by
  induction h with
  | nil => exact .ok rfl
  | @cons p p' ps ps' hp hps ih =>
    have hempty : ps.isEmpty = ps'.isEmpty := by cases hps <;> rfl
    simp only [params]
    refine (Both.maybe hp.fallback).bind fun t? t?' ht => ?_
    have hsome : t?.isSome = t?'.isSome := by
      simpa using congrArg Option.isSome ht
    refine .check (by rw [hp.rest, hempty]) (.check (by rw [hp.rest, hsome]) ?_)
    refine ih.bind fun _ _ hts => .ok (.cons (sameShape_node ?_) hts)
    simp only [Kind.map, hp.name, hp.rest, ht]

theorem both_functionDeclaration (hname : name.text = name'.text) (hps : Both SameShapes ps ps')
    (h : Both SameShape v v') :
    Both SameShape (functionDeclaration name ps v range) (functionDeclaration name' ps' v' range') :=
  hps.bind fun _ _ hts => h.bind fun _ _ ht => .node (by simp only [Kind.map, hname, hts, ht])

theorem both_returnStatement (h : Option.Rel (Both SameShape) v? v?') :
    Both SameShape (returnStatement v? range) (returnStatement v?' range') :=
  (Both.maybe h).bind fun _ _ ht => .node (congrArg Kind.returnStatement ht)

theorem both_ifStatement (hv : Both SameShape v v') (hw : Both SameShape w w')
    (h : Option.Rel (Both SameShape) v? v?') :
    Both SameShape (ifStatement v w v? range) (ifStatement v' w' v?' range') :=
  hv.bind fun _ _ hv => hw.bind fun _ _ hw => (Both.maybe h).bind fun _ _ ht =>
    .node (by simp only [Kind.map, hv, hw, ht])

theorem both_whileStatement (hv : Both SameShape v v') (hw : Both SameShape w w') :
    Both SameShape (whileStatement v w range) (whileStatement v' w' range') :=
  hv.bind fun _ _ hv => hw.bind fun _ _ hw => .node (by simp only [Kind.map, hv, hw])

theorem both_block (h : List.Forall₂ (Both SameShape) vs vs') :
    Both SameShape (block vs range) (block vs' range') :=
  (Both.all h).bind fun _ _ hts => .node (congrArg Kind.block hts)

theorem both_expressionStatement (h : Both SameShape v v') :
    Both SameShape (expressionStatement v range) (expressionStatement v' range') :=
  h.bind fun _ _ ht => .node (congrArg Kind.expressionStatement ht)

/-! ## Expressions -/

theorem both_assignment (hv : Both SameShape v v') (h : Option.Rel (Both SameShape) v? v?') :
    Both SameShape (assignment v v? range) (assignment v' v?' range') := by
  cases h with
  | none => exact hv
  | some hw =>
    refine hv.bind fun t t' ht => ?_
    have hplace : t.kind.isPlace = t'.kind.isPlace := by
      have h := congrArg (fun t : Tree Unit => t.kind.isPlace) ht
      simpa using h
    exact .check (by rw [hplace])
      (hw.bind fun _ _ hw => .node (by simp only [Kind.map, ht, hw]))

theorem both_bareParam (hname : name.text = name'.text) :
    Both SameShapes (bareParam name) (bareParam name') :=
  .ok (.cons (sameShape_node (by simp only [Kind.map, hname])) rfl)

theorem both_arrowFunction (hps : Both SameShapes ps ps') (h : Both SameShape v v') :
    Both SameShape (arrowFunction ps v range) (arrowFunction ps' v' range') :=
  hps.bind fun _ _ hts => h.bind fun _ _ ht => .node (by simp only [Kind.map, hts, ht])

theorem both_binary {o o' : OperatorText} (hv : Both SameShape v v') (ho : o.Alike o')
    (hw : Both SameShape w w') : Both SameShape (binary v (o, w)) (binary v' (o', w')) :=
  hv.bind fun _ _ hv => Both.bind ho fun _ _ ho => hw.bind fun _ _ hw =>
    .node (by simp only [Kind.map, hv, ho, hw])

theorem both_binaryChain {steps steps' : List (OperatorText × Built)} (hv : Both SameShape v v')
    (h : List.Forall₂ (fun s s' => s.1.Alike s'.1 ∧ Both SameShape s.2 s'.2) steps steps') :
    Both SameShape (binaryChain v steps) (binaryChain v' steps') := by
  unfold binaryChain
  induction h generalizing v v' with
  | nil => exact hv
  | cons hs _ ih => exact ih (both_binary hv hs.1 hs.2)

theorem both_exponent (hv : Both SameShape v v') (h : Option.Rel (Both SameShape) v? v?') :
    Both SameShape (exponent v v? range) (exponent v' v?' range') := by
  cases h with
  | none => exact hv
  | some hw =>
    exact hv.bind fun _ _ hv => hw.bind fun _ _ hw => .node (by simp only [Kind.map, hv, hw])

theorem both_unary (op : UnaryOp) (h : Both SameShape v v') :
    Both SameShape (unary op v range) (unary op v' range') :=
  h.bind fun _ _ ht => .node (congrArg (Kind.unary op) ht)

theorem both_suffixed {s s' : Suffix} (hv : Both SameShape v v') (h : s.Alike s') :
    Both SameShape (suffixed v s) (suffixed v' s') := by
  refine hv.bind fun _ _ ht => ?_
  cases h with
  | call h => exact (Both.all h).bind fun _ _ hts => .node (by simp only [Kind.map, ht, hts])
  | member hname => exact .node (by simp only [Kind.map, ht, hname])
  | index h => exact h.bind fun _ _ hk => .node (by simp only [Kind.map, ht, hk])

theorem both_postfixChain {ss ss' : List Suffix} (hv : Both SameShape v v')
    (h : List.Forall₂ Suffix.Alike ss ss') :
    Both SameShape (postfixChain v ss) (postfixChain v' ss') := by
  unfold postfixChain
  induction h generalizing v v' with
  | nil => exact hv
  | cons hs _ ih => exact ih (both_suffixed hv hs)

theorem both_functionExpression {name? name?' : Option Token}
    (hname : name?.map Token.text = name?'.map Token.text) (hps : Both SameShapes ps ps')
    (h : Both SameShape v v') :
    Both SameShape (functionExpression name? ps v range) (functionExpression name?' ps' v' range') :=
  hps.bind fun _ _ hts => h.bind fun _ _ ht => .node (by simp only [Kind.map, hname, hts, ht])

theorem both_array (h : List.Forall₂ (Both SameShape) vs vs') :
    Both SameShape (array vs range) (array vs' range') :=
  (Both.all h).bind fun _ _ hts => .node (congrArg Kind.array hts)

theorem both_object (h : List.Forall₂ (Both SameShape) vs vs') :
    Both SameShape (object vs range) (object vs' range') :=
  (Both.all h).bind fun _ _ hts => .node (congrArg Kind.object hts)

theorem both_methodProperty (key : PropertyKey) (hps : Both SameShapes ps ps')
    (h : Both SameShape v v') :
    Both SameShape (methodProperty key ps v range) (methodProperty key ps' v' range') :=
  hps.bind fun _ _ hts => h.bind fun _ _ ht =>
    .node (by simp only [Kind.map, Tree.shape_node, hts, ht])

theorem both_keyedProperty (key : PropertyKey) (h : Both SameShape v v') :
    Both SameShape (keyedProperty key v range) (keyedProperty key v' range') :=
  h.bind fun _ _ ht => .node (by simp only [Kind.map, ht])

theorem both_shorthandProperty (hname : name.text = name'.text) :
    Both SameShape (shorthandProperty name range) (shorthandProperty name' range') :=
  .node (by simp only [Kind.map, Tree.shape_node, hname])

theorem both_templateParts {parts parts' : List TemplatePart}
    (h : List.Forall₂ TemplatePart.Alike parts parts') (text : String) :
    Both (fun r r' => r.1 = r'.1 ∧ SameShapes r.2 r'.2) (templateParts text parts)
      (templateParts text parts') := by
  induction h generalizing text with
  | nil => exact .ok ⟨rfl, rfl⟩
  | cons hpart _ ih =>
    cases hpart with
    | chars more => exact ih (text ++ more)
    | substitution h =>
      refine h.bind fun _ _ ht => (ih "").bind ?_
      rintro ⟨texts, values⟩ ⟨texts', values'⟩ ⟨rfl, hvalues⟩
      exact .ok ⟨rfl, .cons ht hvalues⟩

theorem both_template {parts parts' : List TemplatePart}
    (h : List.Forall₂ TemplatePart.Alike parts parts') :
    Both SameShape (template parts range) (template parts' range') := by
  refine (both_templateParts h "").bind ?_
  rintro ⟨texts, values⟩ ⟨texts', values'⟩ ⟨rfl, hvalues⟩
  exact .node (by simp only [Kind.map, hvalues])

end Build

end Downlevel
