import TriviaTree.Grammar.Statement
import TriviaTree.Tree.Flat

/-!
A span for every node of a tree that was read from a source text.

Reading leaves some kinds without a span. When a tree has such nodes its text is read again with
full retention and every gap is filled from the node in the same place. Trivia have spans of
their own and no counterpart in the second reading.
-/

set_option autoImplicit false

namespace TriviaTree

/-- Why a tree and a text do not belong together. -/
inductive SpanFault where
  | unreadable (error : SyntaxError)
  | countMismatch (inTree inSource : Nat)
  | kindMismatch (id : Nat) (inTree inSource : String)
deriving DecidableEq, Repr

def SpanFault.message : SpanFault → String
  | .unreadable error => "secondary parse failed: " ++ error.message
  | .countMismatch inTree inSource =>
      "tree has " ++ toString inTree ++ " structural nodes but the source parses to " ++
        toString inSource
  | .kindMismatch id inTree inSource =>
      "node " ++ toString id ++ " is " ++ inTree ++ " in the tree but " ++ inSource ++
        " in the source"

namespace FlatTree

/-- The nodes that are code. -/
def structural (t : FlatTree) : List FlatNode :=
  t.nodes.filter (!·.node.isTrivia)

/-- The spans the nodes have themselves. -/
def ownSpans (t : FlatTree) : List (Option Span) :=
  t.nodes.map (·.node.span)

/-- Nodes with their own spans; those that are code and have none take that of the next twin. -/
def fillSpans : List FlatNode → List FlatNode → List (Option Span)
  | [], _ => []
  | f :: fs, twins =>
      if f.node.isTrivia then f.node.span :: fillSpans fs twins
      else
        match twins with
        | [] => f.node.span :: fillSpans fs []
        | twin :: twins => f.node.span.or twin.node.span :: fillSpans fs twins

/-- The first two nodes in the same place that are of different kinds. -/
def firstMismatch? (pairs : List (FlatNode × FlatNode)) : Option (FlatNode × FlatNode) :=
  pairs.find? fun (f, twin) => f.node.label ≠ twin.node.label

/-- One span for each node, where the node or the source text has one. -/
def resolveSpans (t : FlatTree) (source : String) : Except SpanFault (List (Option Span)) :=
  if t.structural.all (·.node.span.isSome) then .ok t.ownSpans
  else
    match parseModule source .full with
    | .error e => .error (.unreadable e)
    | .ok second =>
        let twins := second.flatten.structural
        if t.structural.length ≠ twins.length then
          .error (.countMismatch t.structural.length twins.length)
        else
          match firstMismatch? (t.structural.zip twins) with
          | some (f, twin) => .error (.kindMismatch f.id f.node.label twin.node.label)
          | none => .ok (fillSpans t.nodes twins)

end FlatTree

end TriviaTree
