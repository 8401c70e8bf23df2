import TriviaTree.Source.Lines

/-!
Tokens of the source language.

Besides words, literals and operators there are layout tokens: `newline` ends a logical line,
`indent` and `dedent` open and close a block, `endMarker` ends the text. Comments are tokens too,
which the grammar never sees.
-/

set_option autoImplicit false

namespace TriviaTree

inductive TokenKind where
  /-- An identifier or a keyword. -/
  | name
  | int
  | float
  /-- A string literal with its quotes. -/
  | str
  /-- An operator or delimiter. -/
  | op
  | newline
  | indent
  | dedent
  /-- A comment with its `#`. -/
  | comment
  | endMarker
deriving DecidableEq, Repr

/-- Layout tokens shape the text but name nothing in it. -/
def TokenKind.isLayout : TokenKind → Bool
  | .newline | .indent | .dedent | .endMarker => true
  | _ => false

/-- A token with its place in the text, as byte offsets. -/
structure Token where
  kind : TokenKind
  text : String
  start : Nat
  stop : Nat
deriving DecidableEq, Repr

/-- A token with its place as locations: what the grammar reads. -/
structure Lexeme where
  kind : TokenKind
  text : String
  span : Span
deriving DecidableEq, Repr

def Token.locate (index : LineIndex) (token : Token) : Lexeme :=
  ⟨token.kind, token.text, index.span token.start token.stop⟩

namespace Lexeme

def isOp (lexeme : Lexeme) (op : String) : Bool :=
  lexeme.kind = .op && lexeme.text = op

def isKeyword (lexeme : Lexeme) (keyword : String) : Bool :=
  lexeme.kind = .name && lexeme.text = keyword

end Lexeme

/-- A comment to be placed in a tree: its text after the `#`, and its span. -/
structure TriviaToken where
  text : String
  span : Span
deriving DecidableEq, Repr

/-- The words that are no identifiers. -/
def keywords : List String :=
  ["False", "None", "True", "and", "as", "assert", "async", "await", "break", "class",
   "continue", "def", "del", "elif", "else", "except", "finally", "for", "from", "global", "if",
   "import", "in", "is", "lambda", "nonlocal", "not", "or", "pass", "raise", "return", "try",
   "while", "with", "yield"]

def isKeyword (text : String) : Bool :=
  keywords.contains text

end TriviaTree
