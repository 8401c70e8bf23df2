import TriviaTree.Tree.Field
import TriviaTree.Text.Quoted

/-!
Walks over whole trees.

`Node.preorder` and `Node.postorder` list the nodes of a tree, `Node.strip` takes its trivia out,
`Node.placementProblems` lists what is wrong with the trivia in it. Every walk visits the
children of a node in the order of its fields; none descends into the payload of a directive.
-/

set_option autoImplicit false

namespace TriviaTree

theorem map_attach {α β : Type} (f : α → β) (xs : List α) :
    (xs.attach.map fun ⟨x, _⟩ => f x) = xs.map f := by
  simp

namespace Node

/-- A node, then the trees below it. -/
def preorder (n : Node) : List Node :=
  n :: (n.children.attach.map fun ⟨c, _⟩ => c.preorder).flatten
termination_by sizeOf n
decreasing_by exact sizeOf_lt_of_mem_children ‹_›

theorem preorder_eq (n : Node) : n.preorder = n :: (n.children.map preorder).flatten := by
  rw [preorder, map_attach]

/-- The trees below a node, then the node. -/
def postorder (n : Node) : List Node :=
  (n.children.attach.map fun ⟨c, _⟩ => c.postorder).flatten ++ [n]
termination_by sizeOf n
decreasing_by exact sizeOf_lt_of_mem_children ‹_›

theorem postorder_eq (n : Node) :
    n.postorder = (n.children.map postorder).flatten ++ [n] := by
  rw [postorder, map_attach]

/-- The number of trivia nodes in a tree. -/
def triviaCount (n : Node) : Nat :=
  n.preorder.countP isTrivia

end Node

/-- The children of a sequence without the trivia among them; other fields keep what they
hold. -/
def Field.dropTrivia (field : Field) (children : List Node) : List Node :=
  if field.isSequence then children.filter (!·.isTrivia) else children

namespace Node

/-- A tree without the trivia in its sequences. -/
def strip (n : Node) : Node :=
  { n with
    kind := n.kind.withContents (List.zipWith Field.dropTrivia n.kind.fields
      (n.kind.contents.attach.map fun ⟨cs, _⟩ => cs.attach.map fun ⟨c, _⟩ => c.strip)) }
termination_by sizeOf n
decreasing_by exact sizeOf_lt_of_mem_contents ‹_› ‹_›

theorem strip_eq (n : Node) :
    n.strip = ⟨n.kind.withContents (List.zipWith Field.dropTrivia n.kind.fields
      (n.kind.contents.map (·.map strip))), n.span⟩ := by
  rw [strip]
  simp

@[simp] theorem isTrivia_strip (n : Node) : n.strip.isTrivia = n.isTrivia := by
  rw [strip_eq]
  exact Kind.isTrivia_withContents _ _

/-- The number of trivia nodes that `strip` takes out. -/
def strippedCount (n : Node) : Nat :=
  (n.preorder.flatMap fun m => m.kind.entries.flatMap fun (field, children) =>
    if field.isSequence then children.filter isTrivia else []).length

/-- A tree with no spans, in payloads neither: two trees are the same code when these agree. -/
def eraseSpans (n : Node) : Node :=
  let kind := n.kind.withContents
    (n.kind.contents.attach.map fun ⟨cs, _⟩ => cs.attach.map fun ⟨c, _⟩ => c.eraseSpans)
  ⟨kind.withPayload (n.kind.payload.mapMem fun e _ => e.eraseSpans), none⟩
termination_by sizeOf n
decreasing_by
  · exact sizeOf_lt_of_mem_contents ‹_› ‹_›
  · exact sizeOf_lt_of_mem_payload ‹_›

end Node

/-- What can be wrong with the trivia of a tree. -/
inductive PlacementProblem where
  | atRoot (label : String)
  /-- Trivia in a slot that takes none. -/
  | inSlot (label parent : String) (slot : Slot)
  /-- A comment that would not stay a comment: its text has a line feed. -/
  | spansLines (payload : String)
  /-- A directive without keywords. -/
  | noKeywords (label : String)
deriving DecidableEq, Repr

def Slot.suffix (slot : Slot) : String :=
  match slot.index with
  | some i => "[" ++ toString i ++ "]"
  | none => ""

def PlacementProblem.message : PlacementProblem → String
  | .atRoot label => label ++ " node at the root"
  | .inSlot label parent slot =>
      label ++ " node in " ++ parent ++ "." ++ slot.field.name ++ slot.suffix
  | .spansLines payload => "comment '" ++ Text.escape payload ++ "' spans lines"
  | .noKeywords label => label ++ " directive without a prefix"

namespace Node

/-- The problems that show at one node: trivia in its slots, then its own payload. -/
def ownProblems (n : Node) : List PlacementProblem :=
  (n.kind.slots.filterMap fun (slot, c) =>
    if c.isTrivia && !slot.field.acceptsTrivia then some (.inSlot c.label n.label slot)
    else none) ++
  match n.kind with
  | .comment c => if c.payload.toList.contains '\n' then [.spansLines c.payload] else []
  | .directive d => if d.keywords.isEmpty then [.noKeywords n.label] else []
  | _ => []

/-- Everything wrong with the trivia of a tree, in the order of a walk. -/
def placementProblems (n : Node) : List PlacementProblem :=
  (if n.isTrivia then [.atRoot n.label] else []) ++ n.preorder.flatMap ownProblems

/-- All trivia stand where trivia may stand and are well formed. -/
def WellPlaced (n : Node) : Prop :=
  n.placementProblems = []

instance (n : Node) : Decidable n.WellPlaced :=
  inferInstanceAs (Decidable (_ = _))

end Node

end TriviaTree
