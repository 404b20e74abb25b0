import Downlevel.Pass.Plugin

/-!
# Building blocks of lowerings

New nodes take the span of the node they stand for, so that warnings about them point at the source.
-/

namespace Downlevel.Lowering

open Store (alloc)

def identifier (name : String) (span : Span) : StateM Store NodeId :=
  alloc (.identifier name) span

def member (base : NodeId) (name : String) (span : Span) : StateM Store NodeId :=
  alloc (.member base name) span

/-- Makes a node something else. -/
def replace (id : NodeId) (kind : Kind NodeId) : StateM Store Unit :=
  modify (·.replace id kind)

/-- A block for a function body: the body itself, or one that returns its value. -/
def ensureBlock (body : NodeId) : StateM Store NodeId := do
  let s ← get
  if (s.kind body).isBlock then return body
  let span := s.span body
  let result ← alloc (.returnStatement (some body)) span
  alloc (.block [result]) span

/-- Inserts statements at the top of a function's body. A body that is an expression becomes a block
first. -/
def prependToBody (function : NodeId) (statements : List NodeId) : StateM Store Unit := do
  match ((← get).kind function).signature? with
  | none => return
  | some (_, body) =>
    let block ← ensureBlock body
    if block ≠ body then
      replace function (((← get).kind function).withBody block)
    match (← get).kind block with
    | .block old => replace block (.block (statements ++ old))
    | _ => return

/-- A hook that changes the tree by an action on its store. -/
def hook {C : Type} (action : NodeId → StateM Store Unit) : Hook C :=
  Hook.edit fun id s => ((action id).run s).2

end Downlevel.Lowering
