import TriviaTree.Placement.Plan
import TriviaTree.Render.Tree
import TriviaTree.Tree.Dump

/-!
Whether a source text survives being read, augmented, written and read again.

Five things are compared: the number of nodes before and after the comments were put in, where
they were put, the tree without them, and the two renderings read again. Trees are compared
through their dumps, so spans and layout do not count. What differs is listed; only a text that
cannot be read at all is an error.
-/

set_option autoImplicit false

namespace TriviaTree

/-- Which of two renderings. -/
inductive Rendering where
  | plain
  | augmented
deriving DecidableEq, Repr

def Rendering.name : Rendering → String
  | .plain => "plain"
  | .augmented => "augmented"

/-- Two trees that should be the same. -/
inductive Comparison where
  /-- The tree as read, and the augmented tree without its trivia. -/
  | stripped
  /-- A tree, and what its rendering is read as. -/
  | reread (rendering : Rendering)
deriving DecidableEq, Repr

/-- Something that did not survive. -/
inductive Difference where
  /-- The augmented tree does not have one more node per token. -/
  | triviaCount (tokens expected actual : Nat)
  | triviaPlacement (problems : List PlacementProblem)
  | trees (comparison : Comparison) (expected actual : String)
  | reparseFailed (rendering : Rendering) (error : SpliceError)
deriving DecidableEq, Repr

/-- The byte offset of the first difference of two texts. -/
def divergence (a b : List Char) : Nat :=
  Text.byteSize ((a.zip b).takeWhile (fun (x, y) => x = y) |>.map (·.1))

/-- What is wrong with the trivia of a tree, in one line. -/
def placementMessage (problems : List PlacementProblem) : String :=
  "Invalid tree: " ++ "; ".intercalate (problems.map (·.message))

namespace Difference

/-- The name of the check that failed. -/
def label : Difference → String
  | .triviaCount .. => "trivia count"
  | .triviaPlacement .. => "trivia placement"
  | .trees .stripped .. => "stripped structure"
  | .trees (.reread .plain) .. => "plain structure"
  | .trees (.reread .augmented) .. => "augmented structure"
  | .reparseFailed .. => "re-parse failed"

def description : Difference → String
  | .triviaCount tokens _ actual =>
      toString tokens ++ " tokens spliced into " ++ toString actual ++ " nodes"
  | .triviaPlacement problems => placementMessage problems
  | .trees _ expected actual =>
      "dumps diverge at offset " ++ toString (divergence expected.toList actual.toList)
  | .reparseFailed rendering error =>
      rendering.name ++ " rendering does not parse: " ++ error.message

def expected? : Difference → Option String
  | .triviaCount _ expected _ => some (toString expected)
  | .trees _ expected _ => some expected
  | _ => none

def actual? : Difference → Option String
  | .triviaCount _ _ actual => some (toString actual)
  | .trees _ _ actual => some actual
  | _ => none

/-- The difference in one line. -/
def issue (d : Difference) : String :=
  d.label ++ ": " ++ d.description

end Difference

/-- The outcome of a validation. -/
structure Validation where
  /-- The rendering of the augmented tree. -/
  rendered : String
  /-- The number of comments in the source text. -/
  triviaCount : Nat
  differences : List Difference
deriving DecidableEq, Repr

def Validation.isValid (v : Validation) : Bool :=
  v.differences.isEmpty

/-- How texts are read and written. -/
structure RoundTrip where
  classifier : Classifier
  options : PageOptions

namespace RoundTrip

def compareTrees (comparison : Comparison) (style : DumpStyle) (expected actual : Node) :
    List Difference :=
  let expected := expected.dump style
  let actual := actual.dump style
  if expected = actual then [] else [.trees comparison expected actual]

/-- One more node for each token. -/
def countDifferences (plain augmented : Node) (tokens : Nat) : List Difference :=
  let expected := plain.preorder.length + tokens
  let actual := augmented.preorder.length
  if expected = actual then [] else [.triviaCount tokens expected actual]

/-- Every comment stands where comments may stand. -/
def placementDifferences (augmented : Node) : List Difference :=
  match augmented.placementProblems with
  | [] => []
  | problems => [.triviaPlacement problems]

/-- The plain rendering is read as the plain tree. -/
def plainDifferences (r : RoundTrip) (plain : Node) : List Difference :=
  match parseModule (plain.source .code r.options) .native with
  | .ok reread => compareTrees (.reread .plain) .codeOnly plain reread
  | .error error => [.reparseFailed .plain (.malformed error)]

/-- The augmented rendering is read as the augmented tree. -/
def augmentedDifferences (r : RoundTrip) (augmented : Node) : List Difference :=
  match parseAugmented r.classifier (augmented.source .trivia r.options) with
  | .ok reread => compareTrees (.reread .augmented) .standard augmented reread
  | .error error => [.reparseFailed .augmented error]

/-- Check one source text. -/
def validate (r : RoundTrip) (source : String) : Except SpliceError Validation := do
  let plain ← (parseModule source .native).mapError .malformed
  let tokens ← (triviaTokens source).mapError .malformed
  let augmented ← insertTrivia r.classifier source plain tokens
  return {
    rendered := augmented.source .trivia r.options
    triviaCount := tokens.length
    differences :=
      countDifferences plain augmented tokens.length ++
      placementDifferences augmented ++
      compareTrees .stripped .standard plain augmented.strip ++
      r.plainDifferences plain ++
      r.augmentedDifferences augmented }

end RoundTrip

end TriviaTree
