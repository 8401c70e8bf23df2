import TriviaTree.Placement.Anchor
import TriviaTree.Placement.Slot
import TriviaTree.Source.Lines

/-!
How a comment stands to the code on its line.

A comment follows its sibling when the child of the slot's owner that ends last before it ends on
its line. It follows a header when its slot opens a block and the code before it on its line ends
with a colon. In both cases no child that starts after the comment may start on its line too;
everything else is a line of its own.
-/

set_option autoImplicit false

namespace TriviaTree

inductive LinePosition where
  | ownLine
  | afterSibling
  /-- After a header such as `else:`, with no sibling on the line. -/
  | afterHeader
deriving DecidableEq, Repr

namespace SpannedTree

/-- The spans of a node's children. -/
def childSpans (t : SpannedTree) (owner : Nat) : List Span :=
  (t.flat.nodes.zip t.spans).filterMap fun (f, span) =>
    if f.parent? = some owner then span else none

/-- The span that ends last before `target`. -/
def lastBefore? (spans : List Span) (target : Span) : Option Span :=
  lastGreatest? (fun a b => compare a.stop b.stop) (spans.filter (·.endsBefore target))

/-- The span that starts first after `target`. -/
def firstAfter? (spans : List Span) (target : Span) : Option Span :=
  firstLeast? (fun a b => compare a.start b.start) (spans.filter (·.startsAfter target))

/-- The slot is the first one of a block of statements. -/
def opensBlock (t : SpannedTree) (point : InsertionPoint) : Bool :=
  let compound :=
    match (t.flat.get? point.owner).map (·.node.kind) with
    | some (.ifStmt ..) | some (.whileLoop ..) | some (.forLoop ..) | some (.functionDef ..) => true
    | _ => false
  compound && point.index = 0 && (point.field = "body" || point.field = "orelse")

end SpannedTree

/-- The code on the line before `target` ends with a colon. -/
def followsHeader (source : String) (target : Span) : Bool :=
  match (lineText? source target.start.line).bind (Text.takeBytes target.start.column) with
  | some before => (Text.trimEnd before).getLast? = some ':'
  | none => false

/-- The position of a comment with span `target` that goes into the slot `point`. -/
def SpannedTree.linePosition (t : SpannedTree) (source : String) (point : InsertionPoint)
    (target : Span) : LinePosition :=
  let siblings := t.childSpans point.owner
  if (firstAfter? siblings target).any (·.start.line = target.start.line) then .ownLine
  else if (lastBefore? siblings target).any (·.stop.line = target.start.line) then .afterSibling
  else if t.opensBlock point && followsHeader source target then .afterHeader
  else .ownLine

end TriviaTree
