import TriviaTree.Tree.Walk

/-!
Changes to a tree at a path or everywhere.

`Node.modifyAt?` changes the node at the end of a path, `Node.insertUnchecked` puts any node into
a sequence, and `Node.transform` runs over a whole tree, in either order of a node and its fields.
-/

set_option autoImplicit false

namespace TriviaTree

/-- Why there is nothing to change. -/
inductive Missing where
  | child
  | sequence
  | index
deriving DecidableEq, Repr

/-- Whether a node comes before or after its fields. -/
inductive VisitOrder where
  | nodeFirst
  | fieldsFirst
deriving DecidableEq, Repr

/-- An operation that exists in name only. -/
structure Unsupported where
  operation : String
deriving DecidableEq, Repr

def Unsupported.message (e : Unsupported) : String :=
  "Unsupported operation: " ++ e.operation

namespace Node

/-- Change the node at the end of a path. -/
def modifyAt? (n : Node) (change : Node → Option Node) : List (String × Option Nat) → Option Node
  | [] => change n
  | (name, index) :: path =>
      match n.kind.child? name index with
      | none => none
      | some child =>
          (child.modifyAt? change path).map fun child =>
            { n with kind := n.kind.setChild name index child }

/-- Replace the node at the end of a path. -/
def replaceAt (n : Node) (path : List (String × Option Nat)) (new : Node) : Except Missing Node :=
  match n.modifyAt? (fun _ => some new) path with
  | some changed => .ok changed
  | none => .error .child

/-- Insert any node into a sequence of the node at the end of a path. -/
def insertUnchecked (n : Node) (path : List (String × Option Nat)) (field : String) (index : Nat)
    (new : Node) : Except Missing Node :=
  match (n.descend? path).bind (·.kind.sequence? field) with
  | none => .error .sequence
  | some children =>
      if children.length < index then .error .index
      else
        match n.modifyAt?
          (fun owner => some { owner with kind := owner.kind.insertChild field index new }) path with
        | some changed => .ok changed
        | none => .error .sequence

/-- The nodes of a tree in the order of a visit. -/
def visit (n : Node) : VisitOrder → List Node
  | .nodeFirst => n.preorder
  | .fieldsFirst => n.postorder

/-- Change every node down to a depth. When nodes come first, the walk goes on in what the change
has put in their place. -/
def transform {m : Type → Type} [Monad m] (order : VisitOrder) (change : Node → m Node) :
    Nat → Node → m Node
  | 0, n => pure n
  | depth + 1, n => do
      let n ← if order = .nodeFirst then change n else pure n
      let contents ← n.kind.contents.mapM fun cs => cs.mapM (transform order change depth)
      let n := { n with kind := n.kind.withContents contents }
      if order = .fieldsFirst then change n else pure n

/-- Comments made of string statements: not available. -/
def convertDocstrings (_n : Node) : Except Unsupported Node :=
  .error ⟨"docstring conversion"⟩

end Node

end TriviaTree
