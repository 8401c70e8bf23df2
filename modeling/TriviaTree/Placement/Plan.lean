import TriviaTree.Directive.Classify
import TriviaTree.Placement.Line
import TriviaTree.Placement.Spans

/-!
Putting the comments of a source text into its tree.

Every comment is classified and given a slot in the tree as it was read (`planToken`). The plan
is then sorted by slot and source order, and carried out from the last entry to the first, so no
insertion moves a slot that is still to come. `insertTrivia` inserts all or fails.

`spliceEvents` tells what happened on the way, also when the plan failed half-way.
-/

set_option autoImplicit false

namespace TriviaTree

/-- Why trivia cannot be put into a tree. -/
inductive SpliceError where
  | malformed (error : SyntaxError)
  | spans (fault : SpanFault)
  | directive (error : DirectiveError)
  | anchor (fault : AnchorFault)
  | insertion (fault : InsertionFault)
deriving DecidableEq, Repr

def SpliceError.message : SpliceError → String
  | .malformed error => error.message
  | .spans fault => "Scope resolution error: " ++ fault.message
  | .directive error => error.message
  | .anchor fault => fault.message
  | .insertion fault => fault.message

/-- One insertion of a plan. -/
structure Planned where
  key : List (Nat × Nat)
  point : InsertionPoint
  trivia : Trivia
  span : Span
  /-- A comment that stands right after a header. -/
  afterHeader : Bool

namespace Planned

def node (p : Planned) : Node :=
  p.trivia.toNode p.span

/-- Set whether a comment stands at the end of a line; a directive never does. -/
def markEndOfLine (p : Planned) (endOfLine : Bool) : Planned :=
  match p.trivia with
  | .comment c => { p with trivia := .comment { c with endOfLine := endOfLine } }
  | .directive _ => p

end Planned

/-- What happened to one comment. -/
inductive SpliceEvent where
  | classified (span : Span) (label : String)
  | anchored (span : Span) (owner field : String) (index : Nat)
  | inserted (span : Span) (label : String) (endOfLine : Bool)
deriving DecidableEq, Repr

namespace SpliceEvent

/-- The comment it happened to. -/
def span : SpliceEvent → Span
  | .classified span _ => span
  | .anchored span _ _ _ => span
  | .inserted span _ _ => span

def isInserted : SpliceEvent → Bool
  | .inserted .. => true
  | _ => false

end SpliceEvent

namespace SpannedTree

/-- The slot for a comment with span `target`, and its place in the tree. -/
def slotFor (t : SpannedTree) (tree : Node) (target : Span) :
    Except SpliceError (InsertionPoint × List (Nat × Nat)) :=
  match t.anchor target with
  | .error fault => .error (.anchor fault)
  | .ok anchor =>
      match locate anchor.path anchor.before with
      | .error fault => .error (.insertion fault)
      | .ok point =>
          match point.key tree with
          | .error fault => .error (.insertion fault)
          | .ok key => .ok (point, key)

/-- The insertion of one token. -/
def planToken (t : SpannedTree) (classifier : Classifier) (source : String) (tree : Node)
    (token : TriviaToken) : Except SpliceError Planned :=
  match classifier.classify token.text with
  | .error error => .error (.directive error)
  | .ok trivia =>
      match t.slotFor tree token.span with
      | .error error => .error error
      | .ok (point, key) =>
          match trivia with
          | .directive d => .ok ⟨key, point, .directive d, token.span, false⟩
          | .comment c =>
              let position := t.linePosition source point token.span
              let comment := { c with endOfLine := position ≠ .ownLine }
              .ok ⟨key, point, .comment comment, token.span, position = .afterHeader⟩

/-- What planning one token makes known, up to its failure. -/
def planEvents (t : SpannedTree) (classifier : Classifier) (tree : Node) (token : TriviaToken) :
    List SpliceEvent :=
  match classifier.classify token.text with
  | .error _ => []
  | .ok trivia =>
      .classified token.span trivia.label ::
        match t.slotFor tree token.span with
        | .error _ => []
        | .ok (point, _) =>
            let owner := ((t.flat.get? point.owner).map (·.node.label)).getD "?"
            [.anchored token.span owner point.field point.index]

end SpannedTree

/-! ### The plan -/

/-- By slot, and in source order within a slot. -/
def Planned.order (a b : Planned) : Ordering :=
  (keyOrder a.key b.key).then (compare a.span.start b.span.start)

/-- A header comment can stay on the header's line only when nothing before it in its slot needs
a line of its own. End-of-line comments at the start of an `orelse` are written before its
header, so they do not count. `before` holds what comes before, last first. -/
def Planned.settle (before : List Planned) (p : Planned) : Planned :=
  let hoisted := p.point.field = "orelse"
  let blocked := (before.takeWhile (·.key = p.key)).any fun q =>
    !hoisted || !q.node.isEndOfLineComment
  if p.afterHeader && blocked then p.markEndOfLine false else p

/-- Settle every header comment of a sorted plan; the result is in reverse order. -/
def settleReversed (plan : List Planned) : List Planned :=
  plan.foldl (fun before p => p.settle before :: before) []

/-- The plan in the order in which it is carried out: the last place first. -/
def schedule (plan : List Planned) : List Planned :=
  settleReversed (plan.mergeSort fun a b => Planned.order a b ≠ .gt)

/-- Carry out a plan. -/
def carryOut (tree : Node) : List Planned → Except InsertionFault Node
  | [] => .ok tree
  | p :: rest =>
      match tree.insertAt p.point p.node with
      | .error fault => .error fault
      | .ok tree => carryOut tree rest

/-- The insertions that succeed. -/
def insertionEvents (tree : Node) : List Planned → List SpliceEvent
  | [] => []
  | p :: rest =>
      match tree.insertAt p.point p.node with
      | .error _ => []
      | .ok tree =>
          .inserted p.span p.trivia.label p.node.isEndOfLineComment :: insertionEvents tree rest

/-- The tree with a span for every node. -/
def Node.spanned (tree : Node) (source : String) : Except SpanFault SpannedTree :=
  (tree.flatten.resolveSpans source).map fun spans => ⟨tree.flatten, spans⟩

/-- Plan the insertion of all tokens. -/
def planAll (classifier : Classifier) (source : String) (tree : Node)
    (tokens : List TriviaToken) : Except SpliceError (List Planned) :=
  match tree.spanned source with
  | .error fault => .error (.spans fault)
  | .ok t => tokens.mapM (t.planToken classifier source tree)

/-- Put the tokens of `source` into `tree`, which has been read from it. -/
def insertTrivia (classifier : Classifier) (source : String) (tree : Node)
    (tokens : List TriviaToken) : Except SpliceError Node :=
  if tokens.isEmpty then .ok tree
  else
    match planAll classifier source tree tokens with
    | .error error => .error error
    | .ok plan => (carryOut tree (schedule plan)).mapError .insertion

/-- Everything that happens in `insertTrivia`, in order. -/
def spliceEvents (classifier : Classifier) (source : String) (tree : Node)
    (tokens : List TriviaToken) : List SpliceEvent :=
  if tokens.isEmpty then []
  else
    match tree.spanned source with
    | .error _ => []
    | .ok t =>
        let planned (token : TriviaToken) : Bool :=
          match t.planToken classifier source tree token with
          | .ok _ => true
          | .error _ => false
        let reached := tokens.takeWhile planned ++ (tokens.find? (!planned ·)).toList
        reached.flatMap (t.planEvents classifier tree) ++
          match tokens.mapM (t.planToken classifier source tree) with
          | .error _ => []
          | .ok plan => insertionEvents tree (schedule plan)

/-- Read a source text and put its comments into the tree. -/
def parseAugmented (classifier : Classifier) (source : String) : Except SpliceError Node :=
  match parseModule source .native with
  | .error error => .error (.malformed error)
  | .ok tree =>
      match triviaTokens source with
      | .error error => .error (.malformed error)
      | .ok tokens => insertTrivia classifier source tree tokens

end TriviaTree
