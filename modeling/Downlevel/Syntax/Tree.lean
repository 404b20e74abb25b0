import Downlevel.Syntax.Kind

/-!
# Syntax trees

A tree is a kind over subtrees with an annotation at every node: offsets when it comes from the
reader, positions when it is printed, nothing where only its shape matters.
-/

namespace Downlevel

inductive Tree (σ : Type) where
  | node (ann : σ) (kind : Kind (Tree σ))

namespace Tree

variable {σ τ β : Type}

def ann : Tree σ → σ
  | node a _ => a

def kind : Tree σ → Kind (Tree σ)
  | node _ k => k

mutual

/-- Combines a tree from its leaves upwards. -/
def fold (f : σ → Kind β → β) : Tree σ → β
  | node a k => f a (foldKind f k)

def foldKind (f : σ → Kind β → β) : Kind (Tree σ) → Kind β
  | .program body => .program (foldList f body)
  | .declaration keyword declarators => .declaration keyword (foldList f declarators)
  | .declarator name init => .declarator name (foldOption f init)
  | .functionDeclaration name params body =>
    .functionDeclaration name (foldList f params) (fold f body)
  | .returnStatement argument => .returnStatement (foldOption f argument)
  | .ifStatement test consequent alternate =>
    .ifStatement (fold f test) (fold f consequent) (foldOption f alternate)
  | .whileStatement test body => .whileStatement (fold f test) (fold f body)
  | .block body => .block (foldList f body)
  | .expressionStatement expression => .expressionStatement (fold f expression)
  | .empty => .empty
  | .param name fallback rest => .param name (foldOption f fallback) rest
  | .number raw => .number raw
  | .string raw => .string raw
  | .boolean value => .boolean value
  | .null => .null
  | .template quasis expressions => .template quasis (foldList f expressions)
  | .identifier name => .identifier name
  | .this => .this
  | .array elements => .array (foldList f elements)
  | .object properties => .object (foldList f properties)
  | .property key value shorthand method => .property key (fold f value) shorthand method
  | .functionExpression name params body =>
    .functionExpression name (foldList f params) (fold f body)
  | .arrowFunction params body => .arrowFunction (foldList f params) (fold f body)
  | .member base name => .member (fold f base) name
  | .index base key => .index (fold f base) (fold f key)
  | .call callee arguments => .call (fold f callee) (foldList f arguments)
  | .binary op left right => .binary op (fold f left) (fold f right)
  | .unary op argument => .unary op (fold f argument)
  | .assign target value => .assign (fold f target) (fold f value)

def foldList (f : σ → Kind β → β) : List (Tree σ) → List β
  | [] => []
  | t :: ts => fold f t :: foldList f ts

def foldOption (f : σ → Kind β → β) : Option (Tree σ) → Option β
  | none => none
  | some t => some (fold f t)

end

/-- The same tree with other annotations. -/
def map (f : σ → τ) : Tree σ → Tree τ :=
  fold fun a k => node (f a) k

/-- The constructs of the next dialect in a tree, each with its node's annotation, in the order in
which a reader of the source meets them. -/
def features : Tree σ → List (σ × Feature) :=
  fold fun a k => (k.feature?.map (a, ·)).toList ++ k.children.flatten

end Tree

end Downlevel
