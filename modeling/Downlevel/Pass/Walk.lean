import Downlevel.Pass.Plugin

/-!
# Walking a module

One pass of a plugin: start, a depth-first walk from the root, finish. The children of a node are
read after the plugin has entered it, so the walk follows what the plugin has made of the node. The
parent index is built as nodes are entered.

A plugin may grow the tree under the walk without end, so the walk is given a depth it may not
exceed.
-/

namespace Downlevel

/-- What a walk did: how many nodes it entered, and whether a hook stopped it. -/
structure Walked where
  entered : Nat
  stopped : Bool
deriving DecidableEq

/-- Where a walk stands. -/
structure WalkState (C : Type) where
  module : Module
  context : C
  entered : Nat := 0

namespace WalkState

variable {C : Type}

/-- Notes that a node is entered, and from where. -/
def arrive (s : WalkState C) (id : NodeId) (parent : Option NodeId) : WalkState C :=
  let parents := match parent with
    | none => s.module.parents
    | some parent => s.module.parents.insert id parent
  { s with module := { s.module with parents }, entered := s.entered + 1 }

/-- Calls a hook for a node. -/
def call (s : WalkState C) (hook : Hook C) (id : NodeId) :
    Except Failure Signal × WalkState C :=
  let (result, draft, context) := hook id s.module s.context
  (result.mapError .hook, { s with module := { s.module with toDraft := draft }, context })

/-- Visits nodes in order until a visit fails or stops. -/
def visitAll (visit : NodeId → WalkState C → Except Failure Signal × WalkState C) :
    List NodeId → WalkState C → Except Failure Signal × WalkState C
  | [], s => (.ok .proceed, s)
  | id :: ids, s =>
    match visit id s with
    | (.error e, s) => (.error e, s)
    | (.ok .stop, s) => (.ok .stop, s)
    | (.ok _, s) => visitAll visit ids s

/-- What a walk gives after the visit to its root. -/
def outcome (r : Except Failure Signal × WalkState C) : Except Failure Walked × Module × C :=
  (r.1.map fun signal => ⟨r.2.entered, signal = .stop⟩, r.2.module, r.2.context)

end WalkState

namespace Plugin

/-- Comes back to a node after its children. The signal is to stop or to proceed. -/
def leaveNode (p : Plugin) (id : NodeId) (s : WalkState p.Context) :
    Except Failure Signal × WalkState p.Context :=
  match s.call p.leave id with
  | (.ok .skip, s) => (.ok .proceed, s)
  | reply => reply

/-- Visits a node and what lies below it, at most `depth` levels deep. The signal is to stop or to
proceed. -/
def visit (p : Plugin) : Nat → Option NodeId → NodeId → WalkState p.Context →
    Except Failure Signal × WalkState p.Context
  | 0, _, _, s => (.error .tooDeep, s)
  | depth + 1, parent, id, s =>
    match (s.arrive id parent).call p.enter id with
    | (.error e, s) => (.error e, s)
    | (.ok .stop, s) => (.ok .stop, s)
    | (.ok .skip, s) => p.leaveNode id s
    | (.ok .proceed, s) =>
      match s.visitAll (p.visit depth (some id)) (s.module.tree.children id) with
      | (.error e, s) => (.error e, s)
      | (.ok .stop, s) => (.ok .stop, s)
      | (.ok _, s) => p.leaveNode id s

/-- Walks the module from its current root with a fresh parent index, at most `depth` levels deep. -/
def walkWithin (p : Plugin) (depth : Nat) (m : Module) (context : p.Context) :
    Except Failure Walked × Module × p.Context :=
  WalkState.outcome (p.visit depth none m.tree.root ⟨{ m with parents := {} }, context, 0⟩)

/-- Finishes a pass after its walk. -/
def finished (p : Plugin) :
    Except Failure Walked × Module × p.Context → Except Failure Walked × Module
  | (.error e, m, _) => (.error e, m)
  | (.ok walked, m, context) =>
    match p.finish m context with
    | (.error e, draft) => (.error (.hook e), { m with toDraft := draft })
    | (.ok (), draft) => (.ok walked, { m with toDraft := draft })

/-- One whole pass: start, walk, finish. How deep the walk may go depends on the tree it starts
with. -/
def runWithin (p : Plugin) (limit : Store → Nat) (m : Module) : Except Failure Walked × Module :=
  match p.start m with
  | (.error e, draft) => (.error (.hook e), { m with toDraft := draft })
  | (.ok context, draft) =>
    p.finished (p.walkWithin (limit draft.tree) { m with toDraft := draft } context)

/-- How deep a walk may go in a tree: deep enough for every lowering, with room for a plugin that
grows the tree. -/
def depthLimit (tree : Store) : Nat :=
  8 * tree.size + 65536

def walk (p : Plugin) (m : Module) (context : p.Context) :
    Except Failure Walked × Module × p.Context :=
  p.walkWithin (depthLimit m.tree) m context

def run (p : Plugin) (m : Module) : Except Failure Walked × Module :=
  p.runWithin depthLimit m

end Plugin

end Downlevel
