import TriviaTree.Tree.Flat

/-!
Where in a tree a comment belongs, by its span alone.

Three nodes decide. The preceding node is the outermost of those that end last at or before the
comment, the following node the outermost of those that start first at or after it, the enclosing
node the innermost around it. A comment goes before the following node when that is inside the
enclosing one, else after the preceding node, else into the empty enclosing node.
-/

set_option autoImplicit false

namespace TriviaTree

/-- A node as it is named in messages. -/
structure NodeTag where
  label : String
  id : Nat
  span : Option Span
deriving DecidableEq, Repr

def NodeTag.text (tag : NodeTag) : String :=
  tag.label ++ "#" ++ toString tag.id ++
    match tag.span with
    | some span => "@" ++ span.text
    | none => ""

def describeTag : Option NodeTag → String
  | some tag => tag.text
  | none => "none"

/-- Why no place can be told. -/
inductive AnchorFault where
  /-- Between two nodes and inside none. -/
  | ambiguous (target : Span) (preceding following : Option NodeTag)
  /-- The following node is inside the enclosing one, but not one of its children. -/
  | inconsistent (target : Span) (enclosing following parent : Option NodeTag)
deriving DecidableEq, Repr

def AnchorFault.message : AnchorFault → String
  | .ambiguous target preceding following =>
      "Ambiguous anchor for trivia at " ++ target.text ++ ": preceding " ++
        describeTag preceding ++ ", following " ++ describeTag following ++ ", enclosing none"
  | .inconsistent target enclosing following parent =>
      "Inconsistent enclosure for trivia at " ++ target.text ++ ": " ++ target.text ++
        " is enclosed by " ++ describeTag enclosing ++ ", but the following node " ++
        describeTag following ++ " belongs to " ++ describeTag parent

/-- A place in a tree: before or after the slot that the last entry of `path` with a field
names. -/
structure Anchor where
  path : Path
  before : Bool
deriving DecidableEq, Repr

/-- A node with a span. -/
structure Located where
  id : Nat
  span : Span
  depth : Nat
deriving DecidableEq, Repr

namespace Located

/-- By start, then wider ones first, then outer ones first. -/
def startOrder (a b : Located) : Ordering :=
  (compare a.span.start b.span.start).then <|
    (compare b.span.stop a.span.stop).then (compare a.depth b.depth)

/-- By end, then narrower ones first, then inner ones first. -/
def stopOrder (a b : Located) : Ordering :=
  (compare a.span.stop b.span.stop).then <|
    (compare b.span.start a.span.start).then (compare b.depth a.depth)

end Located

/-- The first of the least elements. -/
def firstLeast? {α : Type} (order : α → α → Ordering) (xs : List α) : Option α :=
  xs.foldl (fun best x =>
    match best with
    | none => some x
    | some b => if order x b = .lt then some x else some b) none

/-- The last of the greatest elements. -/
def lastGreatest? {α : Type} (order : α → α → Ordering) (xs : List α) : Option α :=
  xs.foldl (fun best x =>
    match best with
    | none => some x
    | some b => if order x b = .lt then some b else some x) none

/-- A tree together with a span for each of its nodes that has one. -/
structure SpannedTree where
  flat : FlatTree
  spans : List (Option Span)

namespace SpannedTree

/-- The nodes that have a span. -/
def located (t : SpannedTree) : List Located :=
  (t.flat.nodes.zip t.spans).filterMap fun (f, span) =>
    span.map fun span => ⟨f.id, span, f.depth⟩

/-- The outermost of the nodes that end last at or before `target`. -/
def preceding? (t : SpannedTree) (target : Span) : Option Nat :=
  (lastGreatest? Located.stopOrder
    (t.located.filter (·.span.endsBefore target))).map (·.id)

/-- The outermost of the nodes that start first at or after `target`. -/
def following? (t : SpannedTree) (target : Span) : Option Nat :=
  (firstLeast? Located.startOrder
    (t.located.filter (·.span.startsAfter target))).map (·.id)

/-- The innermost of the nodes around `target`. -/
def enclosing? (t : SpannedTree) (target : Span) : Option Nat :=
  (lastGreatest? Located.startOrder
    (t.located.filter (·.span.contains target))).map (·.id)

def tag? (t : SpannedTree) (id : Nat) : Option NodeTag :=
  (t.flat.get? id).map fun f => ⟨f.node.label, f.id, f.node.span⟩

/-- Strictly below. -/
def isBelow (t : SpannedTree) (id ancestor : Nat) : Bool :=
  id ≠ ancestor && t.flat.isAncestor ancestor id

/-- Right before a node inside the enclosing one, which has to be its parent. -/
def beforeFollowing (t : SpannedTree) (target : Span) (following enclosing : Nat) :
    Except AnchorFault Anchor :=
  let path := (t.flat.pathTo following).dropLast
  let parent := path.getLast?.map (·.node)
  if parent = some enclosing then .ok ⟨path, true⟩
  else .error (.inconsistent target (t.tag? enclosing) (t.tag? following) (parent.bind t.tag?))

/-- After a node inside the enclosing one, when trivia may stand in the slot taken there. -/
def afterPreceding? (t : SpannedTree) (preceding enclosing : Nat) : Option Anchor :=
  if t.isBelow preceding enclosing then
    let path := t.flat.pathTo preceding
    match path.findIdx? (·.node = enclosing) with
    | none => none
    | some position =>
        if (path[position]?.bind (·.field)).any (·.acceptsTrivia) then
          some ⟨path.take (position + 1), false⟩
        else none
  else none

/-- Let the last entry of a path take a slot. -/
def takeSlot (path : Path) (field : Option Field) (index : Nat) : Path :=
  match path.getLast? with
  | none => []
  | some last => path.dropLast ++ [{ last with field := field, index := some index }]

/-- Into the enclosing node, at the start of the first field that takes trivia; a node without
one is stepped out of. -/
def insideEnclosing (t : SpannedTree) (enclosing : Nat) : Anchor :=
  let path := t.flat.pathTo enclosing
  match (t.flat.get? enclosing).bind (·.node.kind.triviaField?) with
  | some field => ⟨takeSlot path (some field) 0, true⟩
  | none => ⟨path.dropLast, true⟩

/-- A slot of the root. -/
def rootSlot (t : SpannedTree) (index : Nat) (before : Bool) : Anchor :=
  let field := (t.flat.get? 0).bind (·.node.kind.triviaField?)
  ⟨takeSlot (t.flat.pathTo 0) field index, before⟩

/-- The number of children of the root. -/
def rootSize (t : SpannedTree) : Nat :=
  t.flat.nodes.countP (·.parent? = some 0)

/-- The place of a comment with span `target`. -/
def anchor (t : SpannedTree) (target : Span) : Except AnchorFault Anchor :=
  let preceding := t.preceding? target
  let following := t.following? target
  match t.enclosing? target with
  | some enclosing =>
      match following.filter (t.isBelow · enclosing) with
      | some following => t.beforeFollowing target following enclosing
      | none =>
          match preceding.bind (t.afterPreceding? · enclosing) with
          | some anchor => .ok anchor
          | none => .ok (t.insideEnclosing enclosing)
  | none =>
      match preceding, following with
      | none, _ => .ok (t.rootSlot 0 true)
      | some preceding, none =>
          if preceding = 0 then .ok (t.rootSlot (t.rootSize - 1) false)
          else .ok ⟨(t.flat.pathTo preceding).take 1, false⟩
      | some preceding, some following =>
          .error (.ambiguous target (t.tag? preceding) (t.tag? following))

end SpannedTree

end TriviaTree
