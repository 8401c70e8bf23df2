import TriviaTree.Grammar.Expression

/-!
The grammar of statements and modules.

As with expressions each rule is a parser of its own, and rules with a block in them take the
parser of statements as an argument; `statement` ties the knot. `parseModule` and
`parseExpression` are the two ways to read a source text.
-/

set_option autoImplicit false

namespace TriviaTree.Grammar

/-! ### Simple statements -/

/-- Values that follow a first one, each after an equals sign. -/
def assignTail (keep : Retention) : Nat → Parser (List Node)
  | 0 => return []
  | n + 1 => do
      if !(← atOp "=") then return []
      let _ ← bump
      let value ← anyList keep
      return value :: (← assignTail keep n)

/-- The operator of an augmented assignment at the cursor. -/
def Cursor.augmentedOp? (c : Cursor) : Option BinaryOp :=
  BinaryOp.all.find? fun op => c.atOp (op.symbol ++ "=")

/-- A keyword that is a statement by itself. -/
def Cursor.wordStatement? (c : Cursor) : Option (Kind Node) :=
  if c.atKeyword "pass" then some .pass
  else if c.atKeyword "break" then some .breakStmt
  else if c.atKeyword "continue" then some .continueStmt
  else none

def smallStatement (keep : Retention) : Parser Node := do
  let start ← mark
  let c ← get
  match c.wordStatement? with
  | some kind =>
      let _ ← bump
      close kind start
  | none =>
      if c.atKeyword "return" then
        let _ ← bump
        if (← get).startsExpression then
          close (.returnStmt (some (← anyList keep))) start
        else close (.returnStmt none) start
      else
        let first ← anyList keep
        match (← get).augmentedOp? with
        | some op =>
            let _ ← bump
            let value ← anyList keep
            close (.augAssign first op value) start
        | none =>
            let rest ← bounded (assignTail keep)
            match rest.getLast? with
            | some value => close (.assign (first :: rest.dropLast) value) start
            | none => close (.exprStmt first) start

/-- Statements that follow a first one on the same line, each after a semicolon. -/
def semicolonTail (keep : Retention) : Nat → Parser (List Node)
  | 0 => return []
  | n + 1 => do
      if !(← atOp ";") then return []
      let _ ← bump
      let c ← get
      if c.atKind .newline || c.atKind .endMarker then return []
      let statement ← smallStatement keep
      return statement :: (← semicolonTail keep n)

/-- A line of simple statements. -/
def simpleStatements (keep : Retention) : Parser (List Node) := do
  let first ← smallStatement keep
  let rest ← bounded (semicolonTail keep)
  if !(← atKind .endMarker) then expectKind .newline .expectedLineEnd
  return first :: rest

/-! ### Parameters -/

/-- The parameters read so far. -/
structure Parameters where
  args : List Node := []
  /-- A star has been read; what follows is passed by name. -/
  star : Bool := false
  vararg : Option Node := none
  kwonlyargs : List Node := []
  kwarg : Option Node := none

def parameter (keep : Retention) (allowDefault : Bool) : Parser Node := do
  let start ← mark
  let name ← expectIdentifier
  if allowDefault && (← atOp "=") then
    let _ ← bump
    let default ← anyTest keep
    close (.arg name (some default)) start
  else close (.arg name none) start

/-- Read one parameter, or a star alone. -/
def parameterItem (keep : Retention) (ps : Parameters) : Parser Parameters := do
  let c ← get
  if c.atOp "**" then
    let _ ← bump
    return { ps with kwarg := some (← parameter keep false) }
  else if c.atOp "*" then
    if ps.star then fail .duplicateStar
    let _ ← bump
    let c ← get
    if c.atOp "," || c.atOp ")" then return { ps with star := true }
    return { ps with star := true, vararg := some (← parameter keep false) }
  else
    if ps.kwarg.isSome then fail .parameterAfterRest
    let arg ← parameter keep true
    if ps.star then return { ps with kwonlyargs := ps.kwonlyargs ++ [arg] }
    return { ps with args := ps.args ++ [arg] }

def parameterItems (keep : Retention) : Nat → Parameters → Parser Parameters
  | 0, ps => return ps
  | n + 1, ps => do
      if ← atOp ")" then return ps
      let ps ← parameterItem keep ps
      if !(← atOp ",") then return ps
      let _ ← bump
      parameterItems keep n ps

/-- The parameters of a function, up to the closing parenthesis. -/
def parameters (keep : Retention) : Parser Node := do
  let start ← mark
  let empty ← atOp ")"
  let ps ← bounded fun n => parameterItems keep n {}
  if ps.star && ps.vararg.isNone && ps.kwonlyargs.isEmpty then fail .bareStarAlone
  let kind := Kind.arguments ps.args ps.vararg ps.kwonlyargs ps.kwarg
  if empty then return ⟨kind, none⟩
  closeFull keep kind start

/-! ### Compound statements -/

/-- Statements up to a lexeme that satisfies `stop`. -/
def statements (stop : Cursor → Bool) (statement : Parser (List Node)) : Nat → Parser (List Node)
  | 0 => return []
  | n + 1 => do
      let c ← get
      if stop c then return []
      if c.atKind .newline then
        let _ ← bump
        statements stop statement n
      else
        let first ← statement
        return first ++ (← statements stop statement n)

/-- A block: simple statements on the same line, or an indented list of statements. -/
def block (keep : Retention) (statement : Parser (List Node)) : Parser (List Node) := do
  if ← atKind .newline then
    let _ ← bump
    expectKind .indent .expectedBlock
    let body ← bounded (statements (fun c => c.atKind .dedent || c.atKind .endMarker) statement)
    if ← atKind .dedent then
      let _ ← bump
    return body
  else simpleStatements keep

/-- The block after `else:`, if there is one. -/
def elseBlock (keep : Retention) (statement : Parser (List Node)) : Parser (List Node) := do
  if ← atKeyword "else" then
    let _ ← bump
    expectOp ":"
    block keep statement
  else return []

/-- An `if` statement; an `elif` is an `if` statement in the place of the `else` block. -/
def ifStatement (keep : Retention) (statement : Parser (List Node)) : Nat → Parser Node
  | 0 => fail .nestingTooDeep
  | n + 1 => do
      let start ← mark
      let _ ← bump
      let condition ← anyTest keep
      expectOp ":"
      let body ← block keep statement
      if ← atKeyword "elif" then
        let nested ← ifStatement keep statement n
        close (.ifStmt condition body [nested]) start
      else
        let orelse ← elseBlock keep statement
        close (.ifStmt condition body orelse) start

def whileStatement (keep : Retention) (statement : Parser (List Node)) : Parser Node := do
  let start ← mark
  expectKeyword "while"
  let condition ← anyTest keep
  expectOp ":"
  let body ← block keep statement
  let orelse ← elseBlock keep statement
  close (.whileLoop condition body orelse) start

def forStatement (keep : Retention) (statement : Parser (List Node)) : Parser Node := do
  let start ← mark
  expectKeyword "for"
  let target ← targetList keep
  expectKeyword "in"
  let iter ← anyList keep
  expectOp ":"
  let body ← block keep statement
  let orelse ← elseBlock keep statement
  close (.forLoop target iter body orelse) start

def functionDef (keep : Retention) (statement : Parser (List Node)) : Parser Node := do
  let start ← mark
  expectKeyword "def"
  let name ← expectIdentifier
  expectOp "("
  let args ← parameters keep
  expectOp ")"
  expectOp ":"
  let body ← block keep statement
  close (.functionDef name args body) start

/-- A compound statement, or a line of simple ones. The fuel bounds how deep blocks nest. -/
def statement (keep : Retention) : Nat → Parser (List Node)
  | 0 => fail .nestingTooDeep
  | n + 1 => do
      let c ← get
      if c.atKeyword "if" then return [← bounded (ifStatement keep (statement keep n))]
      else if c.atKeyword "while" then return [← whileStatement keep (statement keep n)]
      else if c.atKeyword "for" then return [← forStatement keep (statement keep n)]
      else if c.atKeyword "def" then return [← functionDef keep (statement keep n)]
      else simpleStatements keep

/-- The span of a module goes from its first statement to its last. -/
def moduleSpan (keep : Retention) (body : List Node) : Option Span :=
  match keep, body.head?.bind (·.span), body.getLast?.bind (·.span) with
  | .full, some first, some last => some (first.cover last)
  | _, _, _ => none

def module (keep : Retention) : Parser Node := do
  let nested := statement keep (← get).remaining
  let body ← bounded (statements (·.atKind .endMarker) nested)
  return ⟨.module body, moduleSpan keep body⟩

/-- Line ends are skipped. -/
def skipNewlines : Nat → Parser Unit
  | 0 => return
  | n + 1 => do
      if ← atKind .newline then
        let _ ← bump
        skipNewlines n

/-- One expression that takes up the whole text. -/
def soleExpression : Parser Node := do
  if ← atKind .endMarker then fail .missingExpression
  let node ← anyTest .full
  bounded skipNewlines
  if !(← atKind .endMarker) then fail (.trailingText (← get).current.text)
  return node

end Grammar

open Grammar

/-- Read a source text as a module. -/
def parseModule (source : String) (keep : Retention) : Except SyntaxError Node := do
  (module keep).run' (.ofLexemes (← lexemes source))

/-- Read a text as a single expression. -/
def parseExpression (source : String) : Except SyntaxError Node := do
  soleExpression.run' (.ofLexemes (← lexemes source))

end TriviaTree
