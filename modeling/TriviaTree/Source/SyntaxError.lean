import TriviaTree.Source.Location
import TriviaTree.Text.Quoted

/-!
What can be wrong with a source text, and the wording of each fault.

A `SyntaxFault` is a cause; a `SyntaxError` is a cause at a place. The wording is in
`SyntaxFault.message` and nowhere else.
-/

set_option autoImplicit false

namespace TriviaTree

/-- What stood where something else was expected. -/
inductive Found where
  | lineEnd
  | indent
  | dedent
  | inputEnd
  | text (word : String)
deriving DecidableEq, Repr

def Found.describe : Found → String
  | .lineEnd => "end of line"
  | .indent => "indent"
  | .dedent => "dedent"
  | .inputEnd => "end of input"
  | .text word => "'" ++ word ++ "'"

/-- A reason to refuse a source text. -/
inductive SyntaxFault where
  /-- A backslash joins lines only right before a line break. -/
  | strayContinuation
  /-- A line is indented less than its block and not as much as any block around it. -/
  | unindentMismatch
  | unterminatedString
  | unexpectedCharacter (c : Char)
  /-- A fixed word or operator is missing. -/
  | expectedText (text : String) (found : Found)
  | expectedBlock (found : Found)
  | expectedLineEnd (found : Found)
  | expectedName (found : Found)
  | expectedExpression (found : Found)
  /-- An expression was asked of an empty text. -/
  | missingExpression
  | unexpectedKeyword (keyword : String)
  /-- Text is left after a single expression. -/
  | trailingText (text : String)
  | duplicateStar
  | parameterAfterRest
  | bareStarAlone
  | positionalAfterKeyword
  /-- The nesting passes the bound set by the number of tokens. -/
  | nestingTooDeep
deriving DecidableEq, Repr

def SyntaxFault.message : SyntaxFault → String
  | .strayContinuation => "unexpected character after line continuation"
  | .unindentMismatch => "unindent does not match any outer indentation level"
  | .unterminatedString => "unterminated string literal"
  | .unexpectedCharacter c => "unexpected character " ++ Text.quoteChar c
  | .expectedText text found => "expected '" ++ text ++ "', found " ++ found.describe
  | .expectedBlock found => "expected an indented block, found " ++ found.describe
  | .expectedLineEnd found => "expected end of line, found " ++ found.describe
  | .expectedName found => "expected a name, found " ++ found.describe
  | .expectedExpression found => "expected an expression, found " ++ found.describe
  | .missingExpression => "expected an expression"
  | .unexpectedKeyword keyword => "unexpected keyword '" ++ keyword ++ "'"
  | .trailingText text => "unexpected '" ++ text ++ "'"
  | .duplicateStar => "duplicate '*' in parameter list"
  | .parameterAfterRest => "parameter after '**' parameter"
  | .bareStarAlone => "named parameters must follow bare '*'"
  | .positionalAfterKeyword => "positional argument follows keyword argument"
  | .nestingTooDeep => "nesting too deep"

/-- A fault and the place where it shows. -/
structure SyntaxError where
  fault : SyntaxFault
  location : Location
deriving DecidableEq, Repr

def SyntaxError.message (e : SyntaxError) : String :=
  "Syntax error: " ++ e.fault.message ++ " at " ++ e.location.text

end TriviaTree
