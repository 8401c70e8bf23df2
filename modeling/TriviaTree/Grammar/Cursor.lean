import TriviaTree.Token.Scan
import TriviaTree.Tree.Node

/-!
Reading lexemes one after the other.

A `Cursor` stands on a lexeme; it never moves past the last one, the end marker. A `Parser` moves
a cursor and either has a result or refuses the text with a fault at the cursor. Rules read with
`atOp` and `atKeyword`, move with `bump`, insist with the `expect` family, and build nodes with
`close`, which spans them from a place marked before to the end of the last lexeme read.
-/

set_option autoImplicit false

namespace TriviaTree.Grammar

structure Cursor where
  /-- The lexeme to be read next. -/
  current : Lexeme
  /-- The lexemes after it. -/
  ahead : List Lexeme
  /-- Where the last lexeme read ended; layout does not count. -/
  lastEnd : Location
deriving DecidableEq, Repr

namespace Cursor

/-- A cursor on the first lexeme. -/
def ofLexemes : List Lexeme → Cursor
  | [] => ⟨⟨.endMarker, "", ⟨.origin, .origin⟩⟩, [], .origin⟩
  | first :: rest => ⟨first, rest, .origin⟩

def atKind (c : Cursor) (kind : TokenKind) : Bool :=
  c.current.kind = kind

def atOp (c : Cursor) (op : String) : Bool :=
  c.current.isOp op

def atKeyword (c : Cursor) (keyword : String) : Bool :=
  c.current.isKeyword keyword

/-- The lexeme after the current one; the end marker is followed by itself. -/
def next (c : Cursor) : Lexeme :=
  c.ahead.headD c.current

def found (c : Cursor) : Found :=
  match c.current.kind with
  | .newline => .lineEnd
  | .indent => .indent
  | .dedent => .dedent
  | .endMarker => .inputEnd
  | _ => .text c.current.text

/-- Read the current lexeme. -/
def advance (c : Cursor) : Cursor :=
  let lastEnd := if c.current.kind.isLayout then c.lastEnd else c.current.span.stop
  match c.ahead with
  | [] => { c with lastEnd := lastEnd }
  | lexeme :: rest => ⟨lexeme, rest, lastEnd⟩

/-- A bound on how often anything can be read from here. -/
def remaining (c : Cursor) : Nat :=
  c.ahead.length + 1

/-- An expression can begin here. -/
def startsExpression (c : Cursor) : Bool :=
  let text := c.current.text
  match c.current.kind with
  | .name => !isKeyword text || ["True", "False", "None", "not"].contains text
  | .int | .float | .str => true
  | .op => ["(", "[", "\x7b", "-", "+", "~", "*"].contains text
  | _ => false

end Cursor

abbrev Parser := StateT Cursor (Except SyntaxError)

/-- Refuse the text at the current lexeme. -/
def fail {α : Type} (fault : SyntaxFault) : Parser α := fun c =>
  .error ⟨fault, c.current.span.start⟩

/-- Refuse the text for what stands at the cursor. -/
def failFound {α : Type} (fault : Found → SyntaxFault) : Parser α := fun c =>
  .error ⟨fault c.found, c.current.span.start⟩

def bump : Parser Lexeme := fun c => .ok (c.current, c.advance)

def atKind (kind : TokenKind) : Parser Bool := return (← get).atKind kind

def atOp (op : String) : Parser Bool := return (← get).atOp op

def atKeyword (keyword : String) : Parser Bool := return (← get).atKeyword keyword

def expectOp (op : String) : Parser Unit := do
  if ← atOp op then
    let _ ← bump
  else failFound (.expectedText op)

def expectKeyword (keyword : String) : Parser Unit := do
  if ← atKeyword keyword then
    let _ ← bump
  else failFound (.expectedText keyword)

def expectKind (kind : TokenKind) (fault : Found → SyntaxFault) : Parser Unit := do
  if ← atKind kind then
    let _ ← bump
  else failFound fault

/-- A name that is not a keyword. -/
def expectIdentifier : Parser String := do
  let c ← get
  if c.atKind .name && !isKeyword c.current.text then return (← bump).text
  else failFound .expectedName

/-- Where the current lexeme starts. -/
def mark : Parser Location := return (← get).current.span.start

/-- The span from a marked place to the end of the last lexeme read. -/
def spanFrom (start : Location) : Parser Span := return ⟨start, max (← get).lastEnd start⟩

/-- A node over everything read since `start` was marked. -/
def close (kind : Kind Node) (start : Location) : Parser Node :=
  return ⟨kind, some (← spanFrom start)⟩

/-- Which nodes get a span: native retention leaves out the kinds that stand for no text of their
own, modules, parameter lists and arguments passed by name. -/
inductive Retention where
  | native
  | full
deriving DecidableEq, Repr

/-- Like `close`, for the kinds that only full retention gives a span. -/
def closeFull (keep : Retention) (kind : Kind Node) (start : Location) : Parser Node := do
  match keep with
  | .native => return ⟨kind, none⟩
  | .full => close kind start

/-- Items that follow a first one, each after a comma; a comma before `stop` ends the list. -/
def commaTail {α : Type} (stop : Cursor → Bool) (item : Parser α) : Nat → Parser (List α)
  | 0 => return []
  | n + 1 => do
      if !(← atOp ",") then return []
      let _ ← bump
      if stop (← get) then return []
      let x ← item
      return x :: (← commaTail stop item n)

/-- Items with commas between them, up to the operator `closer`, which is left; a comma may come
before it. -/
def itemsUntil {α : Type} (closer : String) (item : Parser α) : Nat → Parser (List α)
  | 0 => return []
  | n + 1 => do
      if ← atOp closer then return []
      let x ← item
      if !(← atOp ",") then return [x]
      let _ ← bump
      return x :: (← itemsUntil closer item n)

/-- Run a loop with as much fuel as lexemes are left: every turn reads one. -/
def bounded {α : Type} (loop : Nat → Parser α) : Parser α := do
  loop (← get).remaining

end TriviaTree.Grammar
