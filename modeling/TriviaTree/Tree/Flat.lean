import TriviaTree.Tree.Walk

/-!
A tree as a list of numbered nodes.

The number of a node, its id, is its place in the preorder of the tree. With each node goes the
way to it: one `PathEntry` for every node above it, which names that node and the slot taken
there. Parent, depth and ancestry are read off that way.
-/

set_option autoImplicit false

namespace TriviaTree

/-- A node on the way from the root, and the slot taken there; the last entry of a path may take
none. -/
structure PathEntry where
  node : Nat
  field : Option Field
  index : Option Nat
deriving DecidableEq, Repr

abbrev Path := List PathEntry

structure FlatNode where
  id : Nat
  node : Node
  /-- The way from the root to the slot that holds the node; empty for the root. -/
  way : Path

namespace FlatNode

def depth (f : FlatNode) : Nat :=
  f.way.length

def parent? (f : FlatNode) : Option Nat :=
  f.way.getLast?.map (·.node)

/-- The slot of the parent that holds the node. -/
def field? (f : FlatNode) : Option Field :=
  f.way.getLast?.bind (·.field)

def index? (f : FlatNode) : Option Nat :=
  f.way.getLast?.bind (·.index)

/-- The way to the node and the node itself. -/
def path (f : FlatNode) : Path :=
  f.way ++ [⟨f.id, none, none⟩]

end FlatNode

/-- Number several lists one after the other: each is made from its first number. -/
def numberFrom {β : Type} : Nat → List (Nat → List β) → List β
  | _, [] => []
  | first, make :: rest =>
      let made := make first
      made ++ numberFrom (first + made.length) rest

/-- The nodes of a tree whose root has number `id` and is reached by `way`. -/
def Node.flattenFrom (n : Node) (id : Nat) (way : Path) : List FlatNode :=
  ⟨id, n, way⟩ ::
    numberFrom (id + 1) (n.kind.slots.attach.map fun ⟨(slot, c), _⟩ => fun i =>
      c.flattenFrom i (way ++ [⟨id, some slot.field, slot.index⟩]))
termination_by sizeOf n
decreasing_by
  exact sizeOf_lt_of_mem_children (Kind.mem_children_of_mem_slots ‹_›)

/-- Every node of a tree in preorder. -/
structure FlatTree where
  nodes : List FlatNode

def Node.flatten (n : Node) : FlatTree :=
  ⟨n.flattenFrom 0 []⟩

namespace FlatTree

def get? (t : FlatTree) (id : Nat) : Option FlatNode :=
  t.nodes[id]?

def size (t : FlatTree) : Nat :=
  t.nodes.length

def triviaCount (t : FlatTree) : Nat :=
  t.nodes.countP (·.node.isTrivia)

/-- Nodes with a span of their own. -/
def located (t : FlatTree) : List FlatNode :=
  t.nodes.filter (·.node.span.isSome)

/-- The path from the root to a node, the node included. A number that no node has stands for
itself. -/
def pathTo (t : FlatTree) (id : Nat) : Path :=
  match t.get? id with
  | some f => f.path
  | none => [⟨id, none, none⟩]

/-- A node is its own ancestor, and so is every node on the way to it. -/
def isAncestor (t : FlatTree) (ancestor id : Nat) : Bool :=
  (t.pathTo id).any (·.node = ancestor)

end FlatTree

end TriviaTree
