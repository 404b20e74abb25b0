import Downlevel.Lowering.Template
import Downlevel.Proofs.Tree

/-!
# Lowering a tree in one recursion

`Tree.lower` is what the lowerings do to a program, written as a single recursion over its tree: what
becomes of a node is said in terms of its lowered children. Each lowering by itself is also one
recursion, with a step of its own (`arrowStep` and so on), and all of them are instances of
`Tree.rebuild`, which tells a step whether the surrounding `this` is used below a node.

A step keeps the annotation of a node, and new nodes take the annotation of the node they stand for.
-/

namespace Downlevel

namespace Tree

variable {σ : Type}

/-! ## Rebuilding a tree -/

/-- Whether a node uses the surrounding `this`, given whether its children do. -/
def thisUsed : Kind Bool → Bool
  | .this => true
  | .functionDeclaration .. | .functionExpression .. => false
  | k => k.children.any id

/-- Whether a tree uses the surrounding `this`. In a function that is no arrow function, `this` is
another one. -/
def usesThis : Tree σ → Bool :=
  fold fun _ => thisUsed

/-- What becomes of a node, given its annotation, whether the surrounding `this` is used below it, and
its kind over the new children. -/
abbrev Step (σ : Type) := σ → Bool → Kind (Tree σ) → Kind (Tree σ)

/-- Builds a tree anew from its leaves upwards. -/
def rebuild (step : Step σ) (t : Tree σ) : Tree σ :=
  (t.fold fun a k =>
    (thisUsed (k.map Prod.fst), node a (step a (k.children.any Prod.fst) (k.map Prod.snd)))).2

@[simp] theorem usesThis_node (a : σ) (k : Kind (Tree σ)) :
    (node a k).usesThis = thisUsed (k.map usesThis) := by
  simp [usesThis]

theorem rebuild_node (step : Step σ) (a : σ) (k : Kind (Tree σ)) :
    rebuild step (node a k)
      = node a (step a (k.children.any usesThis) (k.map (rebuild step))) := by
  have hfst : ∀ t : Tree σ, (t.fold fun a k =>
      (thisUsed (k.map Prod.fst), node a (step a (k.children.any Prod.fst) (k.map Prod.snd)))).1
        = t.usesThis := by
    intro t
    induction t using induction_on with
    | node a k ih =>
      rw [fold_node, usesThis_node, Kind.map_map]
      exact congrArg thisUsed (Kind.map_congr ih)
  simp only [rebuild, fold_node, Kind.children_map, Kind.map_map, List.any_map]
  congr 3
  funext t
  exact hfst t

@[simp] theorem ann_rebuild (step : Step σ) (t : Tree σ) : (rebuild step t).ann = t.ann := by
  obtain ⟨a, k⟩ := t
  rw [rebuild_node]
  rfl

/-! ## Parts of lowered trees -/

/-- A block for a function body: the body itself, or one that returns its value. -/
def ensureBlock (body : Tree σ) : Tree σ :=
  if body.kind.isBlock then body
  else node body.ann (.block [node body.ann (.returnStatement (some body))])

/-- A function body with statements before its own. Without any, it stays as it is. -/
def prepend (statements : List (Tree σ)) (body : Tree σ) : Tree σ :=
  if statements.isEmpty then body
  else match ensureBlock body with
    | node a (.block old) => node a (.block (statements ++ old))
    | body => body

/-- `if (name == null) { name = fallback; }` -/
def nullCheck (a : σ) (name : String) (fallback : Tree σ) : Tree σ :=
  node a (.ifStatement
    (node a (.binary .equal (node a (.identifier name)) (node a .null)))
    (node a (.block [node a (.expressionStatement
      (node a (.assign (node a (.identifier name)) fallback)))]))
    none)

/-- `var name = Array.prototype.slice.call(arguments, index);` -/
def sliceArguments (a : σ) (name : String) (index : Nat) : Tree σ :=
  let slice := node a (.member (node a (.member (node a (.identifier "Array")) "prototype")) "slice")
  node a (.declaration .var [node a (.declarator name (some
    (node a (.call (node a (.member slice "call"))
      [node a (.identifier "arguments"), node a (.number (toString index))]))))])

/-- A parameter without its default. -/
def withoutDefault : Tree σ → Tree σ
  | node a (.param name (some _) rest) => node a (.param name none rest)
  | t => t

/-- The check that stands for the default of a parameter. -/
def defaultCheck? : Tree σ → Option (Tree σ)
  | node a (.param name (some fallback) _) => some (nullCheck a name fallback)
  | _ => none

/-- The checks that stand for the defaults of parameters. -/
def defaultChecks (params : List (Tree σ)) : List (Tree σ) :=
  params.filterMap defaultCheck?

/-- The place and the name of a rest parameter. -/
def rest? : Tree σ → Option (σ × String)
  | node a (.param name _ true) => some (a, name)
  | _ => none

/-- The place and the name of the rest parameter that parameters end with. -/
def lastRest? (params : List (Tree σ)) : Option (σ × String) :=
  params.getLast?.bind rest?

/-- Parameters without the rest parameter that they end with. -/
def withoutRest (params : List (Tree σ)) : List (Tree σ) :=
  if (lastRest? params).isSome then params.dropLast else params

/-- The declaration that stands for the rest parameter. -/
def restDeclaration (params : List (Tree σ)) : List (Tree σ) :=
  (lastRest? params).toList.map fun (a, name) => sliceArguments a name (params.length - 1)

/-- A sum of a template's texts and substitutions, of which `total` is the sum so far. -/
def sum (a : σ) (total : Kind (Tree σ)) : List (Tree σ) → List String → Kind (Tree σ)
  | [], _ => total
  | e :: es, [] => sum a (.binary .add (node a total) e) es []
  | e :: es, text :: texts =>
    if text.isEmpty then sum a (.binary .add (node a total) e) es texts
    else
      sum a (.binary .add (node a (.binary .add (node a total) e)) (node a (.string text))) es texts

/-- The sum that stands for a template. -/
def concatenation (a : σ) (quasis : List String) (expressions : List (Tree σ)) : Kind (Tree σ) :=
  let texts := quasis.map Lowering.quotedString
  sum a (.string (texts.headD "")) expressions texts.tail

/-- `Math.pow(base, exponent)` -/
def mathPow (a : σ) (base exponent : Tree σ) : Kind (Tree σ) :=
  .call (node a (.member (node a (.identifier "Math")) "pow")) [base, exponent]

/-- A function, or the function bound to the surrounding `this`. -/
def bindThis (a : σ) (bound : Bool) (function : Kind (Tree σ)) : Kind (Tree σ) :=
  if bound then .call (node a (.member (node a function) "bind")) [node a .this] else function

/-! ## Lowering everything -/

/-- The parameters of a lowered function: neither defaults nor a rest parameter. -/
def lowerParams (params : List (Tree σ)) : List (Tree σ) :=
  (withoutRest params).map withoutDefault

/-- What a lowered function does about its parameters before anything else. -/
def prologue (params : List (Tree σ)) : List (Tree σ) :=
  restDeclaration params ++ defaultChecks params

/-- What becomes of a node whose children have been lowered. -/
def lowerStep : Step σ
  | _, _, .declaration _ declarators => .declaration .var declarators
  | _, _, .functionDeclaration name params body =>
    .functionDeclaration name (lowerParams params) (prepend (prologue params) body)
  | _, _, .functionExpression name params body =>
    .functionExpression name (lowerParams params) (prepend (prologue params) body)
  | a, bound, .arrowFunction params body =>
    bindThis a bound
      (.functionExpression none (lowerParams params) (ensureBlock (prepend (prologue params) body)))
  | _, _, .property key value _ _ => .property key value false false
  | a, _, .template quasis expressions => concatenation a quasis expressions
  | a, _, .binary .power left right => mathPow a left right
  | _, _, k => k

/-- The tree of a program with every construct of the next dialect expressed in the stable one. -/
def lower : Tree σ → Tree σ :=
  rebuild lowerStep

/-! ## Lowering one construct -/

def arrowStep : Step σ
  | a, bound, .arrowFunction params body =>
    bindThis a bound (.functionExpression none params (ensureBlock body))
  | _, _, k => k

def conciseStep : Step σ
  | _, _, .property key value shorthand _ => .property key value shorthand false
  | _, _, k => k

def defaultStep : Step σ
  | _, _, k =>
    match k.signature? with
    | none => k
    | some (params, body) =>
      (k.withParams (params.map withoutDefault)).withBody (prepend (defaultChecks params) body)

def restStep : Step σ
  | _, _, .arrowFunction params body => .arrowFunction params body
  | _, _, k =>
    match k.signature? with
    | none => k
    | some (params, body) =>
      (k.withParams (withoutRest params)).withBody (prepend (restDeclaration params) body)

def shorthandStep : Step σ
  | _, _, .property key value _ method => .property key value false method
  | _, _, k => k

def templateStep : Step σ
  | a, _, .template quasis expressions => concatenation a quasis expressions
  | _, _, k => k

def powerStep : Step σ
  | a, _, .binary .power left right => mathPow a left right
  | _, _, k => k

def scopeStep : Step σ
  | _, _, .declaration _ declarators => .declaration .var declarators
  | _, _, k => k

section Signature

variable {a : σ} {bound : Bool} {k : Kind (Tree σ)} {params : List (Tree σ)} {body : Tree σ}

theorem defaultStep_of_none (h : k.signature? = none) : defaultStep a bound k = k := by
  rw [defaultStep, h]

theorem defaultStep_of_signature (h : k.signature? = some (params, body)) :
    defaultStep a bound k
      = (k.withParams (params.map withoutDefault)).withBody (prepend (defaultChecks params) body) := by
  rw [defaultStep, h]

theorem restStep_of_none (h : k.signature? = none) : restStep a bound k = k := by
  cases k <;> first | rfl | cases h

theorem restStep_of_signature (hk : ∀ ps b, k ≠ .arrowFunction ps b)
    (h : k.signature? = some (params, body)) :
    restStep a bound k
      = (k.withParams (withoutRest params)).withBody (prepend (restDeclaration params) body) := by
  cases k with
  | arrowFunction ps b => exact (hk ps b rfl).elim
  | functionDeclaration | functionExpression =>
    cases h
    rfl
  | _ => cases h

theorem lastRest?_concat (params : List (Tree σ)) (last : Tree σ) :
    lastRest? (params ++ [last]) = rest? last := by
  simp [lastRest?]

end Signature

end Tree

/-- The constructs that the catalog lowers, in its order. -/
inductive Construct where
  | arrowFunction
  | conciseMethod
  | defaultParam
  | restParam
  | shorthandProperty
  | templateLiteral
  | powerOperator
  | blockScope
deriving DecidableEq

/-- What becomes of a node where one construct is lowered. -/
def Construct.step {σ : Type} : Construct → Tree.Step σ
  | arrowFunction => Tree.arrowStep
  | conciseMethod => Tree.conciseStep
  | defaultParam => Tree.defaultStep
  | restParam => Tree.restStep
  | shorthandProperty => Tree.shorthandStep
  | templateLiteral => Tree.templateStep
  | powerOperator => Tree.powerStep
  | blockScope => Tree.scopeStep

end Downlevel
