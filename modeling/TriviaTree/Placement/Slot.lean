import TriviaTree.Tree.Flat

/-!
Slots of a tree that trivia can be inserted into.

`locate` goes from an anchor's path to the nearest slot that takes trivia, `InsertionPoint.key`
orders slots by their place in the tree, and `Node.insertAt` inserts. An insertion moves only
what stands at or after its slot, so insertions made from the greatest key down never disturb
each other.
-/

set_option autoImplicit false

namespace TriviaTree

/-- A slot of a tree: the steps from the root to the node that owns it, the sequence, and the
place in the sequence. -/
structure InsertionPoint where
  steps : List (String × Option Nat)
  /-- The number of the owner in the tree the slot was found in. -/
  owner : Nat
  field : String
  index : Nat
deriving DecidableEq, Repr

/-- Why nothing can be inserted. -/
inductive InsertionFault where
  | noSequence (pathLength : Nat)
  | missingStep (field : String) (index : Option Nat)
  | noField (label field : String)
  | notSequence (label field : String)
  | pastEnd (index : Nat) (label field : String) (size : Nat)
  /-- Only trivia are inserted. -/
  | notTrivia (label : String)
deriving DecidableEq, Repr

/-- An index as it stands in messages. -/
def describeIndex : Option Nat → String
  | some i => "Some(" ++ toString i ++ ")"
  | none => "None"

def InsertionFault.message : InsertionFault → String
  | .noSequence pathLength =>
      "Insertion error: no sequence field accepts trivia along a path of " ++
        toString pathLength ++ " entries"
  | .missingStep field index =>
      "Insertion error: path step " ++ field ++ "[" ++ describeIndex index ++ "] does not exist"
  | .noField label field => "Insertion error: " ++ label ++ " has no field '" ++ field ++ "'"
  | .notSequence label field =>
      "Insertion error: " ++ label ++ " has no sequence field '" ++ field ++ "'"
  | .pastEnd index label field size =>
      "Insertion error: slot " ++ toString index ++ " is past the end of " ++ label ++ "." ++
        field ++ " (" ++ toString size ++ " children)"
  | .notTrivia label => "Unsupported insertion of " ++ label ++ " node"

/-- The entry names a place in a sequence that takes trivia. -/
def PathEntry.takesTrivia (entry : PathEntry) : Bool :=
  entry.index.isSome && entry.field.any (·.acceptsTrivia)

/-- The step from an entry's node to the next one. -/
def PathEntry.step? (entry : PathEntry) : Option (String × Option Nat) :=
  entry.field.map fun field => (field.name, entry.index)

/-- The deepest slot along a path that takes trivia, before or after what is in it. -/
def locate (path : Path) (before : Bool) : Except InsertionFault InsertionPoint :=
  let above := path.reverse.dropWhile (!·.takesTrivia)
  match above with
  | ⟨owner, some field, some index⟩ :: rest =>
      .ok
        { steps := rest.reverse.filterMap (·.step?)
          owner := owner
          field := field.name
          index := if before then index else index + 1 }
  | _ => .error (.noSequence path.length)

namespace Node

/-- The place of a slot in a tree: for each step the field's place among the fields and the place
in the field, and the same for the slot. -/
def slotKey (n : Node) (steps : List (String × Option Nat)) (field : String) (index : Nat) :
    Except InsertionFault (List (Nat × Nat)) :=
  match steps with
  | [] =>
      match n.kind.fieldIndex? field with
      | none => .error (.noField n.label field)
      | some ordinal => .ok [(ordinal, index)]
  | (name, place) :: steps =>
      match n.kind.fieldIndex? name with
      | none => .error (.noField n.label name)
      | some ordinal =>
          match n.kind.child? name place with
          | none => .error (.missingStep name place)
          | some child =>
              (child.slotKey steps field index).map ((ordinal, place.getD 0) :: ·)

/-- Insert `new` into a sequence of the node itself. -/
def insertHere (n : Node) (field : String) (index : Nat) (new : Node) :
    Except InsertionFault Node :=
  match n.kind.sequence? field with
  | none => .error (.notSequence n.label field)
  | some children =>
      if index ≤ children.length then .ok { n with kind := n.kind.insertChild field index new }
      else .error (.pastEnd index n.label field children.length)

/-- Insert `new` into a sequence of the node that the steps lead to. -/
def insertBelow (n : Node) (steps : List (String × Option Nat)) (field : String) (index : Nat)
    (new : Node) : Except InsertionFault Node :=
  match steps with
  | [] => n.insertHere field index new
  | (name, place) :: steps =>
      match n.kind.child? name place with
      | none => .error (.missingStep name place)
      | some child =>
          (child.insertBelow steps field index new).map fun child =>
            { n with kind := n.kind.setChild name place child }

/-- Insert trivia into a slot. -/
def insertAt (n : Node) (point : InsertionPoint) (new : Node) : Except InsertionFault Node :=
  if new.isTrivia then n.insertBelow point.steps point.field point.index new
  else .error (.notTrivia new.label)

/-- Find the slot for a path and insert there. -/
def splice (n : Node) (new : Node) (path : Path) (before : Bool) : Except InsertionFault Node := do
  n.insertAt (← locate path before) new

end Node

namespace InsertionPoint

/-- The place of a slot in the tree it was found in. -/
def key (point : InsertionPoint) (n : Node) : Except InsertionFault (List (Nat × Nat)) :=
  n.slotKey point.steps point.field point.index

end InsertionPoint

/-- Keys are compared place by place; a slot of a node comes before the slots below it. -/
def keyOrder : List (Nat × Nat) → List (Nat × Nat) → Ordering
  | [], [] => .eq
  | [], _ :: _ => .lt
  | _ :: _, [] => .gt
  | (a, i) :: as, (b, j) :: bs =>
      (compare a b).then ((compare i j).then (keyOrder as bs))

end TriviaTree
