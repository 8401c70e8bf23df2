import TriviaTree.Grammar.Cursor
import TriviaTree.Text.Literal

/-!
The grammar of expressions.

Each rule is a parser of its own. Where an expression contains another of any strength, the rule
goes through `self`, and only after it has read a lexeme; `expression` ties the knot, with fuel
that the number of lexemes bounds. A parenthesised expression keeps its own span, without the
parentheses.
-/

set_option autoImplicit false

namespace TriviaTree.Grammar

/-- The rules an expression can be entered by again. -/
inductive Entry where
  /-- Any expression but a list with commas. -/
  | test
  /-- What `not` applies to. -/
  | negation
  /-- No comparison and nothing weaker, as after a star. -/
  | bitwise
  /-- What a sign applies to, and an exponent. -/
  | factor
deriving DecidableEq, Repr

abbrev Self := Entry → Parser Node

/-- `*value`. -/
def starred (self : Self) : Parser Node := do
  let start ← mark
  expectOp "*"
  let value ← self .bitwise
  close (.starred value) start

def starredOrTest (self : Self) : Parser Node := do
  if ← atOp "*" then starred self else self .test

/-! ### Atoms -/

/-- Adjacent string literals are one string. -/
def stringTail : Nat → Parser (List String)
  | 0 => return []
  | n + 1 => do
      if ← atKind .str then
        let lexeme ← bump
        return Text.decodeString lexeme.text :: (← stringTail n)
      else return []

/-- Everything up to and with a closing bracket. -/
def displayItems (self : Self) (closer : String) : Parser (List Node) := do
  let items ← bounded (itemsUntil closer (starredOrTest self))
  expectOp closer
  return items

/-- A tuple, or an expression between parentheses, which stays what it is. -/
def parenthesized (self : Self) : Parser Node := do
  let start ← mark
  expectOp "("
  if ← atOp ")" then
    let _ ← bump
    return ← close (.tuple []) start
  let first ← starredOrTest self
  if ← atOp ")" then
    let _ ← bump
    return first
  expectOp ","
  let rest ← displayItems self ")"
  close (.tuple (first :: rest)) start

def dictPair (self : Self) : Parser (Node × Node) := do
  let key ← self .test
  expectOp ":"
  let value ← self .test
  return (key, value)

/-- A dictionary or a set. -/
def braced (self : Self) : Parser Node := do
  let start ← mark
  expectOp "\x7b"
  if ← atOp "\x7d" then
    let _ ← bump
    return ← close (.dict [] []) start
  let first ← starredOrTest self
  if ← atOp ":" then
    let _ ← bump
    let value ← self .test
    let pairs ← bounded (commaTail (·.atOp "\x7d") (dictPair self))
    expectOp "\x7d"
    close (.dict (first :: pairs.map (·.1)) (value :: pairs.map (·.2))) start
  else if ← atOp "," then
    let _ ← bump
    let rest ← displayItems self "\x7d"
    close (.set (first :: rest)) start
  else
    expectOp "\x7d"
    close (.set [first]) start

/-- The constant that a keyword stands for. -/
def keywordConstant? : String → Option Constant
  | "True" => some (.bool true)
  | "False" => some (.bool false)
  | "None" => some .nothing
  | _ => none

def atom (self : Self) : Parser Node := do
  let start ← mark
  let lexeme := (← get).current
  match lexeme.kind with
  | .name =>
      match keywordConstant? lexeme.text with
      | some value =>
          let _ ← bump
          close (.constant value) start
      | none =>
          if isKeyword lexeme.text then fail (.unexpectedKeyword lexeme.text)
          let _ ← bump
          close (.name lexeme.text) start
  | .int =>
      let _ ← bump
      close (.constant (.int lexeme.text)) start
  | .float =>
      let _ ← bump
      close (.constant (.float lexeme.text)) start
  | .str =>
      let parts ← bounded stringTail
      close (.constant (.str (String.join parts))) start
  | .op =>
      if lexeme.text = "(" then parenthesized self
      else if lexeme.text = "[" then
        let _ ← bump
        let elts ← displayItems self "]"
        close (.list elts) start
      else if lexeme.text = "\x7b" then braced self
      else failFound .expectedExpression
  | _ => failFound .expectedExpression

/-! ### Calls, subscripts and attributes -/

/-- The arguments of a call, by position and by name, up to the closing parenthesis. -/
def callItems (keep : Retention) (self : Self) :
    Nat → List Node → List Node → Parser (List Node × List Node)
  | 0, args, keywords => return (args, keywords)
  | n + 1, args, keywords => do
      if ← atOp ")" then return (args, keywords)
      let start ← mark
      let c ← get
      let (args, keywords) ←
        if c.atOp "*" then
          pure (args ++ [← starred self], keywords)
        else if c.atOp "**" then
          let _ ← bump
          let value ← self .test
          pure (args, keywords ++ [← closeFull keep (.keyword none value) start])
        else if c.atKind .name && c.next.isOp "=" then
          let name ← expectIdentifier
          let _ ← bump
          let value ← self .test
          pure (args, keywords ++ [← closeFull keep (.keyword (some name) value) start])
        else if keywords.isEmpty then
          pure (args ++ [← self .test], keywords)
        else fail .positionalAfterKeyword
      if !(← atOp ",") then return (args, keywords)
      let _ ← bump
      callItems keep self n args keywords

def callArguments (keep : Retention) (self : Self) : Parser (List Node × List Node) := do
  expectOp "("
  let items ← bounded fun n => callItems keep self n [] []
  expectOp ")"
  return items

/-- A part of a slice: absent when the slice goes on or ends here. -/
def slicePart (self : Self) : Parser (Option Node) := do
  let c ← get
  if c.atOp ":" || c.atOp "]" || c.atOp "," then return none
  return some (← self .test)

/-- What follows the first colon of a slice. -/
def sliceTail (self : Self) (lower : Option Node) (start : Location) : Parser Node := do
  expectOp ":"
  let upper ← slicePart self
  if ← atOp ":" then
    let _ ← bump
    let step ← slicePart self
    close (.slice lower upper step) start
  else close (.slice lower upper none) start

/-- An index or a slice. -/
def sliceItem (self : Self) : Parser Node := do
  let start ← mark
  if ← atOp ":" then sliceTail self none start
  else
    let lower ← self .test
    if ← atOp ":" then sliceTail self (some lower) start else return lower

/-- Several indices or slices are a tuple. -/
def subscriptItems (self : Self) : Parser Node := do
  let start ← mark
  let first ← sliceItem self
  if !(← atOp ",") then return first
  let rest ← bounded (commaTail (·.atOp "]") (sliceItem self))
  close (.tuple (first :: rest)) start

/-- Calls, subscripts and attributes that follow `node`. -/
def trailers (keep : Retention) (self : Self) (start : Location) : Nat → Node → Parser Node
  | 0, node => return node
  | n + 1, node => do
      if ← atOp "(" then
        let (args, keywords) ← callArguments keep self
        trailers keep self start n (← close (.call node args keywords) start)
      else if ← atOp "[" then
        let _ ← bump
        let index ← subscriptItems self
        expectOp "]"
        trailers keep self start n (← close (.subscript node index) start)
      else if ← atOp "." then
        let _ ← bump
        let attr ← expectIdentifier
        trailers keep self start n (← close (.attribute node attr) start)
      else return node

def primary (keep : Retention) (self : Self) : Parser Node := do
  let start ← mark
  let first ← atom self
  bounded fun n => trailers keep self start n first

/-! ### Operators -/

def power (keep : Retention) (self : Self) : Parser Node := do
  let start ← mark
  let base ← primary keep self
  if ← atOp "**" then
    let _ ← bump
    let exponent ← self .factor
    close (.binOp base .pow exponent) start
  else return base

/-- The sign an operator lexeme stands for. -/
def sign? (lexeme : Lexeme) : Option UnaryOp :=
  if lexeme.isOp "+" then some .plus
  else if lexeme.isOp "-" then some .minus
  else if lexeme.isOp "~" then some .invert
  else none

def factor (keep : Retention) (self : Self) : Parser Node := do
  let start ← mark
  match sign? (← get).current with
  | some op =>
      let _ ← bump
      let operand ← self .factor
      close (.unaryOp op operand) start
  | none => power keep self

/-- The binary operators that associate to the left, weakest level first. -/
def binaryLevels : List (List BinaryOp) :=
  [[.bitOr], [.bitXor], [.bitAnd], [.leftShift, .rightShift], [.add, .sub],
   [.mult, .div, .floorDiv, .mod, .matMult]]

/-- The operator of a level that stands at the cursor. -/
def Cursor.binaryOp? (c : Cursor) (level : List BinaryOp) : Option BinaryOp :=
  level.find? fun op => c.atOp op.symbol

/-- Operands that follow `left`, grouped to the left. -/
def binaryTail (level : List BinaryOp) (operand : Parser Node) (start : Location) :
    Nat → Node → Parser Node
  | 0, left => return left
  | n + 1, left => do
      match (← get).binaryOp? level with
      | none => return left
      | some op =>
          let _ ← bump
          let right ← operand
          binaryTail level operand start n (← close (.binOp left op right) start)

/-- Operands joined by the operators of a level, each made of the stronger levels. -/
def binary (keep : Retention) (self : Self) : List (List BinaryOp) → Parser Node
  | [] => factor keep self
  | level :: stronger => do
      let start ← mark
      let left ← binary keep self stronger
      bounded fun n => binaryTail level (binary keep self stronger) start n left

def bitwise (keep : Retention) (self : Self) : Parser Node :=
  binary keep self binaryLevels

/-- The comparison at the cursor, and the number of lexemes it takes. -/
def Cursor.compareOp? (c : Cursor) : Option (CompareOp × Nat) :=
  if c.atOp "==" then some (.eq, 1)
  else if c.atOp "!=" then some (.notEq, 1)
  else if c.atOp "<" then some (.lt, 1)
  else if c.atOp "<=" then some (.ltEq, 1)
  else if c.atOp ">" then some (.gt, 1)
  else if c.atOp ">=" then some (.gtEq, 1)
  else if c.atKeyword "in" then some (.isIn, 1)
  else if c.atKeyword "not" && c.next.isKeyword "in" then some (.notIn, 2)
  else if c.atKeyword "is" && c.next.isKeyword "not" then some (.isNot, 2)
  else if c.atKeyword "is" then some (.is, 1)
  else none

/-- Comparisons that follow a first operand. -/
def compareTail (operand : Parser Node) : Nat → Parser (List (CompareOp × Node))
  | 0 => return []
  | n + 1 => do
      match (← get).compareOp? with
      | none => return []
      | some (op, width) =>
          let _ ← bump
          if width = 2 then
            let _ ← bump
          let right ← operand
          return (op, right) :: (← compareTail operand n)

/-- Comparisons form one chain. -/
def comparison (keep : Retention) (self : Self) : Parser Node := do
  let start ← mark
  let left ← bitwise keep self
  let rest ← bounded (compareTail (bitwise keep self))
  if rest.isEmpty then return left
  close (.compare left (rest.map (·.1)) (rest.map (·.2))) start

def negation (keep : Retention) (self : Self) : Parser Node := do
  if ← atKeyword "not" then
    let start ← mark
    let _ ← bump
    let operand ← self .negation
    close (.unaryOp .not operand) start
  else comparison keep self

/-- Operands that follow a first one, each after the keyword of `op`. -/
def boolTail (op : BoolOp) (operand : Parser Node) : Nat → Parser (List Node)
  | 0 => return []
  | n + 1 => do
      if !(← atKeyword op.symbol) then return []
      let _ ← bump
      let x ← operand
      return x :: (← boolTail op operand n)

/-- Operands of one boolean operator form one chain. -/
def boolChain (op : BoolOp) (operand : Parser Node) : Parser Node := do
  let start ← mark
  let first ← operand
  let rest ← bounded (boolTail op operand)
  if rest.isEmpty then return first
  close (.boolOp op (first :: rest)) start

def conjunction (keep : Retention) (self : Self) : Parser Node :=
  boolChain .and (negation keep self)

def disjunction (keep : Retention) (self : Self) : Parser Node :=
  boolChain .or (conjunction keep self)

/-- A disjunction, or a choice between two expressions. -/
def test (keep : Retention) (self : Self) : Parser Node := do
  let start ← mark
  let body ← disjunction keep self
  if ← atKeyword "if" then
    let _ ← bump
    let condition ← disjunction keep self
    expectKeyword "else"
    let orelse ← self .test
    close (.ifExp condition body orelse) start
  else return body

/-- An expression entered by any rule. The fuel bounds how deep expressions nest. -/
def expression (keep : Retention) : Nat → Self
  | 0, _ => fail .nestingTooDeep
  | n + 1, .test => test keep (expression keep n)
  | n + 1, .negation => negation keep (expression keep n)
  | n + 1, .bitwise => bitwise keep (expression keep n)
  | n + 1, .factor => factor keep (expression keep n)

/-- Items with commas between them are a tuple; without a comma it is the item itself. -/
def commaList (item : Parser Node) : Parser Node := do
  let start ← mark
  let first ← item
  if !(← atOp ",") then return first
  let rest ← bounded (commaTail (!·.startsExpression) item)
  close (.tuple (first :: rest)) start

/-- Run a rule that contains expressions with fuel for all lexemes that are left. -/
def withExpressions {α : Type} (keep : Retention) (rule : Self → Parser α) : Parser α := do
  rule (expression keep ((← get).remaining + 1))

/-- A single expression, without commas. -/
def anyTest (keep : Retention) : Parser Node :=
  withExpressions keep fun self => self .test

/-- The value of a statement: expressions, some of them starred. -/
def anyList (keep : Retention) : Parser Node :=
  withExpressions keep fun self => commaList (starredOrTest self)

/-- The target of a loop: like a value, but it ends before `in`. -/
def targetList (keep : Retention) : Parser Node :=
  withExpressions keep fun self => commaList do
    if ← atOp "*" then starred self else self .bitwise

end TriviaTree.Grammar
