import TriviaTree.Directive.Clauses
import TriviaTree.Directive.Recognize
import TriviaTree.Grammar.Statement

/-!
From the text of a comment to trivia.

A comment that starts like a directive must be one: its payload has to have the form that its
family asks for, or the text is refused with a `DirectiveError`. Every other text is a plain
comment.
-/

set_option autoImplicit false

namespace TriviaTree

/-- Why the payload of a directive is refused. -/
inductive DirectiveFault where
  | missingCondition
  | expression (error : SyntaxError)
  | notIdentifier (found : String)
  | notMacroName (found : String)
  | unexpectedText (found : String)
  | malformedHeader (found : String)
  | notHeader (found : String)
  | clauses (fault : ClauseFault)
deriving DecidableEq, Repr

def DirectiveFault.message : DirectiveFault → String
  | .missingCondition => "missing condition"
  | .expression error => error.message
  | .notIdentifier found => "expected a single identifier, found '" ++ found ++ "'"
  | .notMacroName found => "expected a macro name, found '" ++ found ++ "'"
  | .unexpectedText found => "unexpected text '" ++ found ++ "'"
  | .malformedHeader found => "malformed header '" ++ found ++ "'"
  | .notHeader found => "expected a header path, found '" ++ found ++ "'"
  | .clauses fault => fault.message

/-- A directive that was recognised and then refused. -/
structure DirectiveError where
  /-- The text of the comment. -/
  raw : String
  fault : DirectiveFault
deriving DecidableEq, Repr

def DirectiveError.message (e : DirectiveError) : String :=
  "Directive syntax error in '#" ++ e.raw ++ "': " ++ e.fault.message

/-! ### Payloads -/

def parsePayloadExpression (text : List Char) : Except DirectiveFault Node :=
  match parseExpression (String.ofList text) with
  | .ok node => .ok node
  | .error e => .error (.expression e)

/-- A path between `opener` and `closer`, which is not empty. -/
def delimitedPath? (opener closer : Char) : List Char → Option (List Char)
  | [] => none
  | c :: cs =>
      if c = opener && cs.getLast? = some closer && cs.dropLast ≠ [] then some cs.dropLast
      else none

/-- The path of an inclusion: between angles, between quotes, or bare. -/
def parseHeader (text : List Char) : Except DirectiveFault (Payload Node) :=
  let delimited (opener closer : Char) (form : HeaderForm) : Except DirectiveFault (Payload Node) :=
    match delimitedPath? opener closer text with
    | some path => .ok (.header (String.ofList path) form)
    | none => .error (.malformedHeader (String.ofList text))
  match text with
  | '<' :: _ => delimited '<' '>' .angle
  | '"' :: _ => delimited '"' '"' .quoted
  | _ =>
      if text.isEmpty || text.any Text.isBlank then .error (.notHeader (String.ofList text))
      else .ok (.header (String.ofList text) .bare)

/-- A name, and perhaps an expression after a blank. -/
def parseDefinition (text : List Char) : Except DirectiveFault (Payload Node) :=
  let name := text.takeWhile (!Text.isBlank ·)
  let value := Text.trim ((text.dropWhile (!Text.isBlank ·)).drop 1)
  if !Text.isIdentifier name then .error (.notMacroName (String.ofList name))
  else if value.isEmpty then .ok (.definition (String.ofList name) none)
  else (parsePayloadExpression value).map fun node => .definition (String.ofList name) (some node)

/-- Read what a directive of a family says; `text` has no blanks around it. -/
def parsePayload (family : Family) (text : List Char) : Except DirectiveFault (Payload Node) :=
  match family with
  | .cond | .elif =>
      if text.isEmpty then .error .missingCondition
      else (parsePayloadExpression text).map .expression
  | .ifdef | .ifndef | .undef =>
      if Text.isIdentifier text then .ok (.symbol (String.ofList text))
      else .error (.notIdentifier (String.ofList text))
  | .define => parseDefinition text
  | .otherwise | .endif =>
      if text.isEmpty then .ok .empty else .error (.unexpectedText (String.ofList text))
  | .inclusion => parseHeader text
  | .openMp | .openAcc =>
      if text.isEmpty then .ok .empty
      else
        match parseClauses text with
        | .ok list => .ok (.clauses list)
        | .error fault => .error (.clauses fault)
  | .pragma => .ok (if text.isEmpty then .empty else .raw (String.ofList text))

/-! ### Classification -/

/-- Which comments are taken for directives. -/
structure Classifier where
  enabled : Bool
  families : List Family
deriving DecidableEq, Repr

/-- All families. -/
def Classifier.standard : Classifier := ⟨true, Family.all⟩

/-- The directive that the text of a comment starts like. -/
def Classifier.recognize? (classifier : Classifier) (text : List Char) : Option Recognized :=
  if classifier.enabled then TriviaTree.recognize? classifier.families text else none

/-- What the text of a comment, all that follows its `#`, is. -/
def Classifier.classify (classifier : Classifier) (raw : String) : Except DirectiveError Trivia :=
  match classifier.recognize? raw.toList with
  | none => .ok (.comment ⟨raw, false⟩)
  | some found =>
      match parsePayload found.form.family (Text.trim found.rest) with
      | .error fault => .error ⟨raw, fault⟩
      | .ok payload =>
          .ok (.directive ⟨found.form.family, found.form.keywords, payload, found.marker⟩)

end TriviaTree
