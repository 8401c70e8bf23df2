import TriviaTree.Text.Classes
import TriviaTree.Tree.Trivia

/-!
Which comments are directives.

A directive starts with one of the keyword sequences of `directiveTable`. Keywords are set apart
by blanks; the first may have a colon after it. A comment whose text starts with a blank is a
directive only with the colon: `#if x` and `# if: x` are, `# if you like` is not. Of several
sequences that fit, the longest wins.
-/

set_option autoImplicit false

namespace TriviaTree

/-- A keyword sequence that starts a directive, and the family of that directive. -/
structure DirectiveForm where
  family : Family
  keywords : List String
deriving DecidableEq, Repr

/-- Every keyword sequence, longer ones first. -/
def directiveTable : List DirectiveForm :=
  [⟨.openMp, ["pragma", "omp", "parallel", "for"]⟩,
   ⟨.openMp, ["pragma", "omp", "parallel", "sections"]⟩,
   ⟨.openMp, ["pragma", "omp", "target", "teams"]⟩,
   ⟨.openAcc, ["pragma", "acc", "parallel", "loop"]⟩,
   ⟨.openAcc, ["pragma", "acc", "kernels", "loop"]⟩,
   ⟨.openMp, ["pragma", "omp", "parallel"]⟩,
   ⟨.openMp, ["pragma", "omp", "for"]⟩,
   ⟨.openMp, ["pragma", "omp", "simd"]⟩,
   ⟨.openMp, ["pragma", "omp", "sections"]⟩,
   ⟨.openMp, ["pragma", "omp", "section"]⟩,
   ⟨.openMp, ["pragma", "omp", "single"]⟩,
   ⟨.openMp, ["pragma", "omp", "master"]⟩,
   ⟨.openMp, ["pragma", "omp", "critical"]⟩,
   ⟨.openMp, ["pragma", "omp", "barrier"]⟩,
   ⟨.openMp, ["pragma", "omp", "atomic"]⟩,
   ⟨.openMp, ["pragma", "omp", "task"]⟩,
   ⟨.openMp, ["pragma", "omp", "target"]⟩,
   ⟨.openAcc, ["pragma", "acc", "parallel"]⟩,
   ⟨.openAcc, ["pragma", "acc", "kernels"]⟩,
   ⟨.openAcc, ["pragma", "acc", "loop"]⟩,
   ⟨.openAcc, ["pragma", "acc", "data"]⟩,
   ⟨.openMp, ["pragma", "omp"]⟩,
   ⟨.openAcc, ["pragma", "acc"]⟩,
   ⟨.pragma, ["pragma"]⟩,
   ⟨.inclusion, ["include"]⟩,
   ⟨.ifndef, ["ifndef"]⟩,
   ⟨.ifdef, ["ifdef"]⟩,
   ⟨.cond, ["if"]⟩,
   ⟨.elif, ["elif"]⟩,
   ⟨.otherwise, ["else"]⟩,
   ⟨.endif, ["endif"]⟩,
   ⟨.define, ["define"]⟩,
   ⟨.define, ["def"]⟩,
   ⟨.undef, ["undef"]⟩]

/-- A keyword ends where the text ends, at a blank, or at an opening parenthesis. -/
def endsKeyword : List Char → Bool
  | [] => true
  | c :: _ => Text.isBlank c || c = '('

/-- What is left after a keyword that ends there. -/
def afterKeyword? (keyword : String) (cs : List Char) : Option (List Char) :=
  (Text.afterStart keyword.toList cs).bind fun rest => if endsKeyword rest then some rest else none

/-- What is left after the first keyword, and whether a colon stood between. -/
def afterFirstKeyword? (keyword : String) (cs : List Char) : Option (Bool × List Char) :=
  match Text.afterStart keyword.toList cs with
  | none => none
  | some (':' :: rest) => some (true, rest)
  | some rest => if endsKeyword rest then some (false, rest) else none

/-- What is left after keywords with blanks before each; none are needed before the first when
`glued` holds. -/
def afterKeywords? : Bool → List String → List Char → Option (List Char)
  | _, [], cs => some cs
  | glued, keyword :: keywords, cs =>
      let rest := Text.trimStart cs
      if !glued && rest.length = cs.length then none
      else (afterKeyword? keyword rest).bind (afterKeywords? false keywords)

/-- Match a keyword sequence at the start of a text: whether it has a colon, and what is left. -/
def DirectiveForm.match? (form : DirectiveForm) (cs : List Char) : Option (Bool × List Char) :=
  match form.keywords with
  | [] => some (false, cs)
  | first :: keywords =>
      (afterFirstKeyword? first cs).bind fun (colon, rest) =>
        (afterKeywords? colon keywords rest).map fun rest => (colon, rest)

/-- A directive that a comment was recognised as. -/
structure Recognized where
  form : DirectiveForm
  marker : Marker
  /-- The text after the keywords. -/
  rest : List Char
deriving DecidableEq, Repr

/-- Match a form against the text of a comment. -/
def DirectiveForm.recognize? (form : DirectiveForm) (text : List Char) : Option Recognized :=
  let stripped := Text.trimStart text
  let padded := stripped.length ≠ text.length
  match form.match? stripped with
  | none => none
  | some (colon, rest) =>
      if padded && !colon then none else some ⟨form, ⟨padded, colon⟩, rest⟩

/-- The first form of the enabled families that fits. -/
def recognize? (families : List Family) (text : List Char) : Option Recognized :=
  (directiveTable.filter (families.contains ·.family)).findSome? (·.recognize? text)

end TriviaTree
