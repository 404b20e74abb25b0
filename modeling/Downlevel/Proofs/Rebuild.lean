import Downlevel.Grammar.Build
import Downlevel.Proofs.Formed

/-!
# Trees put together from parts

`Builds t v` says that the value `v` of a rule is a tree, and that this tree is `t` but for the
places it names. Parts that build the children of a node are put together into a value that builds
the node.
-/

namespace Downlevel

namespace Tree

variable {σ τ : Type}

/-- What is left of a tree without its annotations. -/
def shape : Tree σ → Tree Unit :=
  map fun _ => ()

@[simp] theorem shape_node (a : σ) (k : Kind (Tree σ)) :
    (node a k).shape = node () (k.map shape) := by
  simp [shape, map]

@[simp] theorem shape_map (f : σ → τ) (t : Tree σ) : (t.map f).shape = t.shape := by
  induction t using induction_on with
  | node a k ih =>
    have hmap : (node a k).map f = node (f a) (k.map (map f)) := by simp [map]
    rw [hmap, shape_node, shape_node, Kind.map_map]
    exact congrArg (node ()) (Kind.map_congr ih)

@[simp] theorem kind_shape (t : Tree σ) : t.shape.kind = t.kind.map shape := by
  cases t
  simp

end Tree

open Downlevel.Tree (node shape)

/-- A tree was read, and it has the shape `t`. -/
def Builds (t : Tree Unit) (v : Built) : Prop :=
  ∃ r, v = .ok r ∧ r.shape = t

/-- Trees were read, and they have these shapes. -/
def BuildsAll (ts : List (Tree Unit)) (v : Except Fault (List RawTree)) : Prop :=
  ∃ rs, v = .ok rs ∧ rs.map shape = ts

def BuildsMaybe (t? : Option (Tree Unit)) (v : Except Fault (Option RawTree)) : Prop :=
  ∃ r, v = .ok r ∧ r.map shape = t?

/-- What is read of a parameter of shape `t`. -/
def BuildsParam (t : Tree Unit) (p : ParamText) : Prop :=
  ∃ fallback, t = node () (.param p.name fallback p.rest) ∧
    BuildsMaybe fallback (Build.maybe p.fallback)

theorem builds_node {range : Range} {k : Kind RawTree} {l : Kind (Tree Unit)}
    (h : k.map shape = l) : Builds (node () l) (Build.node range k) :=
  ⟨_, rfl, by rw [Tree.shape_node, h]⟩

theorem buildsAll_all {ts : List (Tree Unit)} {vs : List Built} (h : List.Forall₂ Builds ts vs) :
    BuildsAll ts (Build.all vs) := by
  induction h with
  | nil => exact ⟨[], rfl, rfl⟩
  | cons hv _ ih =>
    obtain ⟨r, rfl, rfl⟩ := hv
    obtain ⟨rs, hrs, rfl⟩ := ih
    refine ⟨r :: rs, ?_, rfl⟩
    simp only [Build.all] at hrs ⊢
    rw [List.mapM_cons, hrs]
    rfl

theorem buildsMaybe_none : BuildsMaybe none (Build.maybe none) :=
  ⟨none, rfl, rfl⟩

theorem buildsMaybe_some {t : Tree Unit} {v : Built} (h : Builds t v) :
    BuildsMaybe (some t) (Build.maybe (some v)) := by
  obtain ⟨r, rfl, rfl⟩ := h
  exact ⟨some r, rfl, rfl⟩

section Nodes

variable {ts : List (Tree Unit)} {t u : Tree Unit} {t? : Option (Tree Unit)} {vs : List Built}
  {v w : Built} {v? : Option Built} {ps : Except Fault (List RawTree)}

/-! ## Statements -/

theorem builds_program (h : List.Forall₂ Builds ts vs) (range : Range) :
    Builds (node () (.program ts)) (Build.program vs range) := by
  obtain ⟨rs, hrs, rfl⟩ := buildsAll_all h
  exact ⟨node range (.program rs), by rw [Build.program, hrs]; rfl, Tree.shape_node _ _⟩

theorem builds_declaration (keyword : DeclKind) (h : List.Forall₂ Builds ts vs) (range : Range) :
    Builds (node () (.declaration keyword ts)) (Build.declaration keyword vs range) := by
  obtain ⟨rs, hrs, rfl⟩ := buildsAll_all h
  exact ⟨node range (.declaration keyword rs), by rw [Build.declaration, hrs]; rfl,
    Tree.shape_node _ _⟩

theorem builds_declarator {name : Token} (h : BuildsMaybe t? (Build.maybe v?)) (range : Range) :
    Builds (node () (.declarator name.text t?)) (Build.declarator name v? range) := by
  obtain ⟨r, hr, rfl⟩ := h
  exact ⟨node range (.declarator name.text r), by rw [Build.declarator, hr]; rfl,
    Tree.shape_node _ _⟩

theorem builds_functionDeclaration {name : Token} (hps : BuildsAll ts ps) (h : Builds t v)
    (range : Range) : Builds (node () (.functionDeclaration name.text ts t))
      (Build.functionDeclaration name ps v range) := by
  obtain ⟨rs, rfl, rfl⟩ := hps
  obtain ⟨r, rfl, rfl⟩ := h
  exact ⟨_, rfl, Tree.shape_node _ _⟩

theorem builds_returnStatement (h : BuildsMaybe t? (Build.maybe v?)) (range : Range) :
    Builds (node () (.returnStatement t?)) (Build.returnStatement v? range) := by
  obtain ⟨r, hr, rfl⟩ := h
  exact ⟨node range (.returnStatement r), by rw [Build.returnStatement, hr]; rfl,
    Tree.shape_node _ _⟩

theorem builds_ifStatement (ht : Builds t v) (hu : Builds u w)
    (h : BuildsMaybe t? (Build.maybe v?)) (range : Range) :
    Builds (node () (.ifStatement t u t?)) (Build.ifStatement v w v? range) := by
  obtain ⟨r₁, rfl, rfl⟩ := ht
  obtain ⟨r₂, rfl, rfl⟩ := hu
  obtain ⟨r, hr, rfl⟩ := h
  exact ⟨node range (.ifStatement r₁ r₂ r), by simp only [Build.ifStatement, hr]; rfl,
    Tree.shape_node _ _⟩

theorem builds_whileStatement (ht : Builds t v) (hu : Builds u w) (range : Range) :
    Builds (node () (.whileStatement t u)) (Build.whileStatement v w range) := by
  obtain ⟨r₁, rfl, rfl⟩ := ht
  obtain ⟨r₂, rfl, rfl⟩ := hu
  exact ⟨_, rfl, Tree.shape_node _ _⟩

theorem builds_block (h : List.Forall₂ Builds ts vs) (range : Range) :
    Builds (node () (.block ts)) (Build.block vs range) := by
  obtain ⟨rs, hrs, rfl⟩ := buildsAll_all h
  exact ⟨node range (.block rs), by rw [Build.block, hrs]; rfl, Tree.shape_node _ _⟩

theorem builds_expressionStatement (h : Builds t v) (range : Range) :
    Builds (node () (.expressionStatement t)) (Build.expressionStatement v range) := by
  obtain ⟨r, rfl, rfl⟩ := h
  exact ⟨_, rfl, Tree.shape_node _ _⟩

/-! ## Expressions -/

theorem builds_assignment (hplace : t.kind.isPlace = true) (ht : Builds t v) (hu : Builds u w)
    (range : Range) : Builds (node () (.assign t u)) (Build.assignment v (some w) range) := by
  obtain ⟨r₁, rfl, rfl⟩ := ht
  obtain ⟨r₂, rfl, rfl⟩ := hu
  have hplace : r₁.kind.isPlace = true := by simpa using hplace
  refine ⟨node range (.assign r₁ r₂), ?_, Tree.shape_node _ _⟩
  simp only [Build.assignment, bind, Except.bind, hplace]
  rfl

theorem builds_arrowFunction (hps : BuildsAll ts ps) (h : Builds t v) (range : Range) :
    Builds (node () (.arrowFunction ts t)) (Build.arrowFunction ps v range) := by
  obtain ⟨rs, rfl, rfl⟩ := hps
  obtain ⟨r, rfl, rfl⟩ := h
  exact ⟨_, rfl, Tree.shape_node _ _⟩

theorem builds_binary {op : BinaryOp} {sign : OperatorText} (hop : Build.operator sign = .ok op)
    (ht : Builds t v) (hu : Builds u w) :
    Builds (node () (.binary op t u)) (Build.binary v (sign, w)) := by
  obtain ⟨r₁, rfl, rfl⟩ := ht
  obtain ⟨r₂, rfl, rfl⟩ := hu
  refine ⟨node (r₁.ann.to r₂.ann) (.binary op r₁ r₂), ?_, Tree.shape_node _ _⟩
  simp only [Build.binary, bind, Except.bind, hop]
  rfl

theorem builds_exponent (ht : Builds t v) (hu : Builds u w) (range : Range) :
    Builds (node () (.binary .power t u)) (Build.exponent v (some w) range) := by
  obtain ⟨r₁, rfl, rfl⟩ := ht
  obtain ⟨r₂, rfl, rfl⟩ := hu
  exact ⟨_, rfl, Tree.shape_node _ _⟩

theorem builds_unary (op : UnaryOp) (h : Builds t v) (range : Range) :
    Builds (node () (.unary op t)) (Build.unary op v range) := by
  obtain ⟨r, rfl, rfl⟩ := h
  exact ⟨_, rfl, Tree.shape_node _ _⟩

theorem builds_call (ht : Builds t v) (h : List.Forall₂ Builds ts vs) (range : Range) :
    Builds (node () (.call t ts)) (Build.suffixed v (.call range vs)) := by
  obtain ⟨r, rfl, rfl⟩ := ht
  obtain ⟨rs, hrs, rfl⟩ := buildsAll_all h
  refine ⟨node (r.ann.to range) (.call r rs), ?_, Tree.shape_node _ _⟩
  simp only [Build.suffixed, bind, Except.bind, hrs]
  rfl

theorem builds_member (ht : Builds t v) (name : String) (range : Range) :
    Builds (node () (.member t name)) (Build.suffixed v (.member range name)) := by
  obtain ⟨r, rfl, rfl⟩ := ht
  exact ⟨_, rfl, Tree.shape_node _ _⟩

theorem builds_index (ht : Builds t v) (hu : Builds u w) (range : Range) :
    Builds (node () (.index t u)) (Build.suffixed v (.index range w)) := by
  obtain ⟨r₁, rfl, rfl⟩ := ht
  obtain ⟨r₂, rfl, rfl⟩ := hu
  exact ⟨_, rfl, Tree.shape_node _ _⟩

theorem builds_functionExpression (name : Option Token) (hps : BuildsAll ts ps) (h : Builds t v)
    (range : Range) : Builds (node () (.functionExpression (name.map Token.text) ts t))
      (Build.functionExpression name ps v range) := by
  obtain ⟨rs, rfl, rfl⟩ := hps
  obtain ⟨r, rfl, rfl⟩ := h
  exact ⟨_, rfl, Tree.shape_node _ _⟩

theorem builds_array (h : List.Forall₂ Builds ts vs) (range : Range) :
    Builds (node () (.array ts)) (Build.array vs range) := by
  obtain ⟨rs, hrs, rfl⟩ := buildsAll_all h
  exact ⟨node range (.array rs), by rw [Build.array, hrs]; rfl, Tree.shape_node _ _⟩

theorem builds_object (h : List.Forall₂ Builds ts vs) (range : Range) :
    Builds (node () (.object ts)) (Build.object vs range) := by
  obtain ⟨rs, hrs, rfl⟩ := buildsAll_all h
  exact ⟨node range (.object rs), by rw [Build.object, hrs]; rfl, Tree.shape_node _ _⟩

theorem builds_methodProperty (key : PropertyKey) (hps : BuildsAll ts ps) (h : Builds t v)
    (range : Range) :
    Builds (node () (.property key (node () (.functionExpression none ts t)) false true))
      (Build.methodProperty key ps v range) := by
  obtain ⟨rs, rfl, rfl⟩ := hps
  obtain ⟨r, rfl, rfl⟩ := h
  refine ⟨_, rfl, ?_⟩
  simp [Kind.map]

theorem builds_keyedProperty (key : PropertyKey) (h : Builds t v) (range : Range) :
    Builds (node () (.property key t false false)) (Build.keyedProperty key v range) := by
  obtain ⟨r, rfl, rfl⟩ := h
  exact ⟨_, rfl, Tree.shape_node _ _⟩

theorem builds_shorthandProperty (name : Token) (range : Range) :
    Builds (node () (.property (.identifier name.text) (node () (.identifier name.text)) true false))
      (Build.shorthandProperty name range) :=
  builds_node (by simp [Kind.map])

end Nodes

/-! ## Parameters and templates -/

theorem exists_buildsParam {t : Tree Unit} {p : ParamText} (h : BuildsParam t p) :
    ∃ fallback, Build.maybe p.fallback = .ok fallback ∧
      (node p.range (.param p.name fallback p.rest)).shape = t := by
  obtain ⟨fallback, rfl, r, hr, rfl⟩ := h
  exact ⟨r, hr, Tree.shape_node _ _⟩

theorem params_cons {p : ParamText} {ps : List ParamText} {fallback : Option RawTree}
    {later : List RawTree} (hfallback : Build.maybe p.fallback = .ok fallback)
    (hlater : Build.params ps = .ok later) (hlast : p.rest = true → ps = [])
    (hdefault : p.rest = true → fallback = none) :
    Build.params (p :: ps) = .ok (node p.range (.param p.name fallback p.rest) :: later) := by
  have hlast : (p.rest && !ps.isEmpty) = false := by simpa using hlast
  have hdefault : (p.rest && fallback.isSome) = false := by simpa using hdefault
  rw [Build.params, hfallback, hlater]
  simp only [bind, Except.bind, hlast, hdefault]
  rfl

/-- Parameters that may stand in a tree are accepted. -/
theorem buildsAll_params {ts : List (Tree Unit)} {ps : List ParamText}
    (h : List.Forall₂ BuildsParam ts ps) (hformed : ∀ t ∈ ts, t.Formed)
    (hlast : Kind.paramsFormed (ts.map Tree.kind) = true) : BuildsAll ts (Build.params ps) := by
  induction h with
  | nil => exact ⟨[], rfl, rfl⟩
  | @cons t p ts ps hp hps ih =>
    have hlater : Kind.paramsFormed (ts.map Tree.kind) = true := by
      cases ts with
      | nil => rfl
      | cons u us => simp_all [Kind.paramsFormed]
    obtain ⟨rs, hrs, hshape⟩ := ih (fun t ht => hformed t (List.mem_cons_of_mem _ ht)) hlater
    obtain ⟨fallback, hfallback, rfl⟩ := exists_buildsParam hp
    refine ⟨_, params_cons hfallback hrs (fun hrest => ?_) (fun hrest => ?_), by
      rw [List.map_cons, hshape]⟩
    · cases hps with
      | nil => rfl
      | cons _ _ => simp [Kind.paramsFormed, Kind.isRest, Kind.map, hrest] at hlast
    · have hformed := hformed _ List.mem_cons_self
      rw [Tree.shape_node] at hformed
      have hkind := (Tree.formed_node.mp hformed).1
      simp only [Kind.map, Kind.formed, Bool.and_eq_true] at hkind
      simpa [hrest] using hkind.2

/-- The parts of a template that has these texts and substitutions, the first text without what has
been read of it. -/
inductive BuildsParts : List String → List (Tree Unit) → List TemplatePart → Prop
  | last {text : String} : text = "" → BuildsParts [text] [] []
  | lastChars {text : String} : BuildsParts [text] [] [.chars text]
  | value {text : String} {texts : List String} {t : Tree Unit} {ts : List (Tree Unit)} {v : Built}
    {parts : List TemplatePart} : text = "" → Builds t v → BuildsParts texts ts parts →
    BuildsParts (text :: texts) (t :: ts) (.substitution v :: parts)
  | charsValue {text : String} {texts : List String} {t : Tree Unit} {ts : List (Tree Unit)}
    {v : Built} {parts : List TemplatePart} : Builds t v → BuildsParts texts ts parts →
    BuildsParts (text :: texts) (t :: ts) (.chars text :: .substitution v :: parts)

theorem builds_templateParts {texts : List String} {ts : List (Tree Unit)}
    {parts : List TemplatePart} (h : BuildsParts texts ts parts) :
    ∃ rs, Build.templateParts "" parts = .ok (texts, rs) ∧ rs.map shape = ts := by
  have hempty : ∀ s : String, "" ++ s = s := fun s => by simp
  induction h with
  | last h => exact ⟨[], by rw [Build.templateParts, h]; rfl, rfl⟩
  | lastChars => exact ⟨[], by rw [Build.templateParts, Build.templateParts, hempty]; rfl, rfl⟩
  | value h hv _ ih =>
    obtain ⟨r, rfl, rfl⟩ := hv
    obtain ⟨rs, hrs, rfl⟩ := ih
    refine ⟨r :: rs, ?_, rfl⟩
    rw [Build.templateParts, hrs, h]
    rfl
  | charsValue hv _ ih =>
    obtain ⟨r, rfl, rfl⟩ := hv
    obtain ⟨rs, hrs, rfl⟩ := ih
    refine ⟨r :: rs, ?_, rfl⟩
    rw [Build.templateParts, Build.templateParts, hrs, hempty]
    rfl

theorem builds_template {texts : List String} {ts : List (Tree Unit)} {parts : List TemplatePart}
    (h : BuildsParts texts ts parts) (range : Range) :
    Builds (node () (.template texts ts)) (Build.template parts range) := by
  obtain ⟨rs, hrs, rfl⟩ := builds_templateParts h
  exact ⟨node range (.template texts rs), by rw [Build.template, hrs]; rfl, Tree.shape_node _ _⟩

end Downlevel
