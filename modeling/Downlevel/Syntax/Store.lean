import Downlevel.Source.Position
import Downlevel.Syntax.Tree

/-!
# Stored syntax trees

A store holds nodes by number, and nodes refer to their children by number, so that a pass can
change a tree in place. Nodes are never removed: taking a number out of its parent's children only
makes the node unreachable. `Store.unfold` reads the tree below a node, and `Store.ofTree` numbers
a tree: its root is node zero, and every other node follows its children.
-/

namespace Downlevel

abbrev NodeId := Nat

structure Node where
  kind : Kind NodeId
  span : Span
deriving DecidableEq, Inhabited

structure Store where
  nodes : Array Node
  root : NodeId
deriving DecidableEq, Inhabited

namespace Store

/-- The number of nodes ever stored, reachable or not. -/
def size (s : Store) : Nat :=
  s.nodes.size

def node (s : Store) (id : NodeId) : Node :=
  s.nodes.getD id default

def kind (s : Store) (id : NodeId) : Kind NodeId :=
  (s.node id).kind

def span (s : Store) (id : NodeId) : Span :=
  (s.node id).span

def children (s : Store) (id : NodeId) : List NodeId :=
  (s.kind id).children

/-- Makes a node something else. It keeps its number and its span, so its parent is unaffected. -/
def replace (s : Store) (id : NodeId) (kind : Kind NodeId) : Store :=
  { s with nodes := s.nodes.modify id ({ · with kind }) }

def setSpan (s : Store) (id : NodeId) (span : Span) : Store :=
  { s with nodes := s.nodes.modify id ({ · with span }) }

def setRoot (s : Store) (root : NodeId) : Store :=
  { s with root }

/-- Adds a node that no other node refers to yet, and returns its number. -/
def alloc (kind : Kind NodeId) (span : Span) : StateM Store NodeId :=
  fun s => (s.size, { s with nodes := s.nodes.push ⟨kind, span⟩ })

/-- The nodes below `id` in pre-order, down to `depth` levels. -/
def preorder (s : Store) : Nat → NodeId → List NodeId
  | 0, _ => []
  | depth + 1, id => id :: (s.children id).flatMap (s.preorder depth)

/-- The nodes that the root leads to, in pre-order; a node with several parents occurs once for
each way to it. A store without cycles is no deeper than it has nodes. -/
def reachable (s : Store) : List NodeId :=
  s.preorder s.size s.root

/-- The tree below `id`, cut off after `depth` levels. -/
def unfold (s : Store) : Nat → NodeId → Tree Span
  | 0, id => .node (s.span id) .empty
  | depth + 1, id => .node (s.span id) ((s.kind id).map (s.unfold depth))

/-- The tree that the root leads to. -/
def toTree (s : Store) : Tree Span :=
  s.unfold (s.size + 1) s.root

/-- Adds the nodes of a tree, children before their parent. -/
def graft : Tree Span → StateM (Array Node) NodeId :=
  Tree.fold fun span kind => do
    let kind ← kind.mapM id
    modifyGet fun nodes => (nodes.size, nodes.push ⟨kind, span⟩)

/-- Stores a tree: its root is node zero, the other nodes follow in post-order. -/
def ofTree (t : Tree Span) : Store :=
  let (kind, nodes) := (t.kind.mapM graft).run #[⟨.program [], {}⟩]
  { nodes := nodes.modify 0 fun _ => ⟨kind, t.ann⟩, root := 0 }

end Store

end Downlevel
