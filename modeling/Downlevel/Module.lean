import Downlevel.Log
import Downlevel.Parse
import Downlevel.Printer.Write

/-!
# Modules

A module is a source text on its way through the passes: its tree, what has been reported about it,
and which node was entered from which. Passes change the `Draft` part only; the parent index belongs
to the walk.
-/

namespace Downlevel

/-! ## Parents -/

/-- For every node a walk has entered, the node it was entered from. The latest entry counts. -/
structure ParentIndex where
  entries : List (NodeId × NodeId) := []
deriving DecidableEq

namespace ParentIndex

def parent? (p : ParentIndex) (id : NodeId) : Option NodeId :=
  p.entries.lookup id

def insert (p : ParentIndex) (child parent : NodeId) : ParentIndex :=
  ⟨(child, parent) :: p.entries⟩

/-- The nearest `n` ancestors of a node, nearest first. -/
def ancestorsWithin (p : ParentIndex) : Nat → NodeId → List NodeId
  | 0, _ => []
  | n + 1, id =>
    match p.parent? id with
    | none => []
    | some parent => parent :: p.ancestorsWithin n parent

/-- The ancestors of a node, nearest first. No node has more of them than there are entries. -/
def ancestors (p : ParentIndex) (id : NodeId) : List NodeId :=
  p.ancestorsWithin p.entries.length id

end ParentIndex

/-! ## Drafts -/

/-- The part of a module that passes change. -/
structure Draft where
  tree : Store
  diagnostics : List Diagnostic := []
  log : List Log.Entry := []

namespace Draft

def edit (d : Draft) (f : Store → Store) : Draft :=
  { d with tree := f d.tree }

def push (d : Draft) (diagnostic : Diagnostic) : Draft :=
  { d with diagnostics := d.diagnostics ++ [diagnostic] }

/-- Reports a problem at the start of a node. -/
def warn (d : Draft) (id : NodeId) (kind message : String) : Draft :=
  let start := (d.tree.span id).start
  d.push ⟨kind, message, start.line, start.column⟩

def logEvent (d : Draft) (event : Log.Event) : Draft :=
  { d with log := d.log ++ [{ event }] }

end Draft

/-! ## Modules -/

structure Module extends Draft where
  source : String
  parents : ParentIndex := {}

namespace Module

def ofTree (source : String) (tree : Store) : Module where
  tree
  source

/-- Reads a source text in the next dialect. -/
def ofSource (source : String) : Except ParseError Module :=
  (parse source .next).map (ofTree source)

/-- The node that `id` was entered from. The root, and nodes not entered yet, have none. -/
def parent? (m : Module) (id : NodeId) : Option NodeId :=
  m.parents.parent? id

def ancestors (m : Module) (id : NodeId) : List NodeId :=
  m.parents.ancestors id

/-- The current text, and all that has been reported, with what printing adds at the end. -/
def render (m : Module) : Rendered :=
  let r := m.tree.render
  ⟨r.code, m.diagnostics ++ r.warnings⟩

end Module

end Downlevel
