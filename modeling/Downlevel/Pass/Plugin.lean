import Downlevel.Module

/-!
# Plugins

A plugin is a pass over a module: it starts, is called before and after the children of every node,
and finishes. A hook sees the whole module and may change its draft; it can fail, and then its
changes so far stay.
-/

namespace Downlevel

/-- What a hook asks of the walk. -/
inductive Signal where
  /-- Go on. -/
  | proceed
  /-- Before a node's children: leave them out, but still come back to the node. -/
  | skip
  /-- End this pass at once. -/
  | stop
deriving DecidableEq

/-- A hook for one node, with the plugin's own context. -/
abbrev Hook (C : Type) := NodeId → Module → C → Except String Signal × Draft × C

namespace Hook

variable {C : Type}

/-- Does nothing. -/
def pass : Hook C := fun _ m cx => (.ok .proceed, m.toDraft, cx)

/-- Changes the tree. -/
def edit (f : NodeId → Store → Store) : Hook C := fun id m cx =>
  (.ok .proceed, m.toDraft.edit (f id), cx)

end Hook

structure Plugin where
  name : String
  description : String := ""
  /-- What the plugin keeps during one pass. -/
  Context : Type
  initial : Context
  start : Module → Except String Context × Draft := fun m => (.ok initial, m.toDraft)
  enter : Hook Context := Hook.pass
  leave : Hook Context := Hook.pass
  finish : Module → Context → Except String Unit × Draft := fun m _ => (.ok (), m.toDraft)

/-- Why a pass ended early. -/
inductive Failure where
  /-- A hook failed. -/
  | hook (message : String)
  /-- The walk went deeper than it may. -/
  | tooDeep
deriving DecidableEq

def Failure.message : Failure → String
  | hook message => message
  | tooDeep => "the tree is nested too deeply"

end Downlevel
