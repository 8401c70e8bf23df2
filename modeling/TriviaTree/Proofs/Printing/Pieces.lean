import Mathlib
import TriviaTree.Proofs.Grammar.Words
import TriviaTree.Proofs.Printing.Dressed

/-!
What is printed, as words, spaces and remarks.

A `Piece` is a word of the source language, a space, or a remark: trivia between brackets.
`Node.pieces` gives the pieces that an expression is printed as at a place of some strength, and
`Node.rows` what a statement is printed as, line by line, each line with the level it is indented
to. `Node.wording` gives the words of a statement, with the ends of its lines and the blocks it
opens and closes. Both are one walk over the statement (`Node.lay`).
-/

set_option autoImplicit false

namespace TriviaTree

/-- Something printed inside a line of code. -/
inductive Piece where
  | word (kind : TokenKind) (text : String)
  | space
  /-- Trivia between brackets: they end their line. -/
  | remark (endOfLine : Bool) (text : String)
deriving DecidableEq, Repr

/-- What is printed for an entry of a list with commas. -/
structure Chunk where
  isTrivia : Bool
  pieces : List Piece
deriving DecidableEq, Repr

/-- The entries that are printed. -/
def Detail.shown (detail : Detail) (chunks : List Chunk) : List Chunk :=
  match detail with
  | .code => chunks.filter (!·.isTrivia)
  | .trivia => chunks

namespace Piece

/-- An operator or delimiter. -/
def sign (symbol : String) : Piece := .word .op symbol

/-- An identifier or a keyword. -/
def term (text : String) : Piece := .word .name text

def word? : Piece → Option Word
  | .word kind text => some (kind, text)
  | _ => none

/-- The words among pieces. -/
def words (ps : List Piece) : List Word :=
  ps.filterMap word?

@[simp] theorem words_nil : words [] = [] := rfl

@[simp] theorem words_append (ps qs : List Piece) : words (ps ++ qs) = words ps ++ words qs :=
  List.filterMap_append

@[simp] theorem words_word (kind : TokenKind) (text : String) (ps : List Piece) :
    words (.word kind text :: ps) = (kind, text) :: words ps := rfl

@[simp] theorem words_space (ps : List Piece) : words (.space :: ps) = words ps := rfl

@[simp] theorem words_remark (endOfLine : Bool) (text : String) (ps : List Piece) :
    words (.remark endOfLine text :: ps) = words ps := rfl

@[simp] theorem words_sign (symbol : String) (ps : List Piece) :
    words (sign symbol :: ps) = (.op, symbol) :: words ps := rfl

@[simp] theorem words_term (id : String) (ps : List Piece) :
    words (term id :: ps) = (.name, id) :: words ps := rfl

/-- Between parentheses, when they are needed. -/
def enclosed (needed : Bool) (ps : List Piece) : List Piece :=
  if needed then sign "(" :: ps ++ [sign ")"] else ps

/-- With a separator between each two. -/
def joined (separator : List Piece) : List (List Piece) → List Piece
  | [] => []
  | [ps] => ps
  | ps :: rest => ps ++ separator ++ joined separator rest

/-- What stands between two entries: a space after the comma, unless the line ends there. -/
def comma (front back : Chunk) : List Piece :=
  if front.isTrivia then [] else if back.isTrivia then [sign ","] else [sign ",", .space]

/-- Entries with commas between them. -/
def listed : List Chunk → List Piece
  | [] => []
  | [chunk] => chunk.pieces
  | chunk :: next :: rest => chunk.pieces ++ comma chunk next ++ listed (next :: rest)

/-- The entries of a tuple: one alone has a comma after it. -/
def tupled (chunks : List Chunk) : List Piece :=
  listed chunks ++
    if chunks.countP (!·.isTrivia) = 1 && chunks.getLast?.any (!·.isTrivia) then [sign ","] else []

/-- Each entry that is no trivia with the trivia right before it, and the trivia at the end. -/
def grouped : List Chunk → List Chunk → List (List Chunk × Chunk) × List Chunk
  | pending, [] => ([], pending)
  | pending, chunk :: rest =>
      if chunk.isTrivia then grouped (pending ++ [chunk]) rest
      else ((pending, chunk) :: (grouped [] rest).1, (grouped [] rest).2)

/-- A key and its value, with the trivia between them. -/
def pair (key : Chunk) (trivia : List Chunk) (value : Chunk) : Chunk :=
  ⟨false, key.pieces ++ (if trivia.isEmpty then [sign ":", .space] else [sign ":"]) ++
    trivia.flatMap (·.pieces) ++ value.pieces⟩

/-- The entries of a dictionary. -/
def paired (keys values : List Chunk) : List Chunk :=
  ((grouped [] keys).1.zip (grouped [] values).1).flatMap
    (fun entry => entry.1.1 ++ [pair entry.1.2 entry.2.1 entry.2.2]) ++
    (grouped [] keys).2 ++ (grouped [] values).2

end Piece

open Piece

def Constant.piece : Constant → Piece
  | .int text => .word .int text
  | .float text => .word .float text
  | .str value => .word .str (Text.quoteString value)
  | .bool true => term "True"
  | .bool false => term "False"
  | .nothing => term "None"

def UnaryOp.pieces : UnaryOp → List Piece
  | .not => [term "not", .space]
  | op => [sign op.symbol]

def CompareOp.pieces : CompareOp → List Piece
  | .is => [term "is"]
  | .isNot => [term "is", .space, term "not"]
  | .isIn => [term "in"]
  | .notIn => [term "not", .space, term "in"]
  | op => [sign op.symbol]

/-- The strengths at which the operands of an operator are printed; powers group to the right. -/
def BinaryOp.operandStrengths (op : BinaryOp) : Precedence × Precedence :=
  if op = .pow then (.await, .factor) else (op.precedence, op.precedence.next)

/-- The text of a comment or directive, from its `#` on. -/
def Node.remark (n : Node) : String :=
  String.ofList (n.inscribe (.blank .standard)).written.reverse

mutual

/-- What an expression is printed as at a place of some strength. -/
def Node.pieces (detail : Detail) (n : Node) (strength : Precedence) : List Piece :=
  match n with
  | ⟨.boolOp op values, _⟩ =>
      enclosed (op.precedence < strength)
        (joined [.space, term op.symbol, .space] (piecesAll detail values op.precedence.next))
  | ⟨.binOp left op right, _⟩ =>
      enclosed (op.precedence < strength)
        (left.pieces detail op.operandStrengths.1 ++ [.space, sign op.symbol, .space] ++
          right.pieces detail op.operandStrengths.2)
  | ⟨.unaryOp op operand, _⟩ =>
      enclosed (op.precedence < strength) (op.pieces ++ operand.pieces detail op.precedence)
  | ⟨.compare left ops comparators, _⟩ =>
      enclosed (.compare < strength)
        (left.pieces detail .bitOr ++
          (ops.zip (piecesAll detail comparators .bitOr)).flatMap fun (op, ps) =>
            .space :: op.pieces ++ .space :: ps)
  | ⟨.ifExp test body orelse, _⟩ =>
      enclosed (.test < strength)
        (body.pieces detail .or ++ [.space, term "if", .space] ++ test.pieces detail .or ++
          [.space, term "else", .space] ++ orelse.pieces detail .test)
  | ⟨.call func args keywords, _⟩ =>
      func.pieces detail .atom ++ [sign "("] ++
        listed (detail.shown (chunksAll detail args ++ chunksAll detail keywords)) ++ [sign ")"]
  | ⟨.attribute value attr, _⟩ =>
      enclosed (isIntLiteral value) (value.pieces detail .atom) ++ [sign ".", term attr]
  | ⟨.subscript value ⟨.tuple elts, _⟩, _⟩ =>
      value.pieces detail .atom ++ [sign "["] ++
        enclosed (!elts.any (!·.isTrivia)) (tupled (detail.shown (chunksAll detail elts))) ++
        [sign "]"]
  | ⟨.subscript value index, _⟩ =>
      value.pieces detail .atom ++ [sign "["] ++ index.pieces detail .tuple ++ [sign "]"]
  | ⟨.slice lower upper step, _⟩ =>
      piecesOption detail lower [] ++ [sign ":"] ++ piecesOption detail upper [] ++
        piecesOption detail step [sign ":"]
  | ⟨.starred value, _⟩ => sign "*" :: value.pieces detail .bitOr
  | ⟨.name id, _⟩ => [term id]
  | ⟨.constant value, _⟩ => [value.piece]
  | ⟨.list elts, _⟩ => [sign "["] ++ listed (detail.shown (chunksAll detail elts)) ++ [sign "]"]
  | ⟨.tuple elts, _⟩ => [sign "("] ++ tupled (detail.shown (chunksAll detail elts)) ++ [sign ")"]
  | ⟨.set elts, _⟩ =>
      [sign "\x7b"] ++ listed (detail.shown (chunksAll detail elts)) ++ [sign "\x7d"]
  | ⟨.dict keys values, _⟩ =>
      [sign "\x7b"] ++
        listed (paired (detail.shown (chunksAll detail keys))
          (detail.shown (chunksAll detail values))) ++ [sign "\x7d"]
  | ⟨.arg id default, _⟩ => term id :: piecesOption detail default [sign "="]
  | ⟨.keyword (some id) value, _⟩ => [term id, sign "="] ++ value.pieces detail .test
  | ⟨.keyword none value, _⟩ => sign "**" :: value.pieces detail .bitOr
  | ⟨.comment c, span⟩ => [.remark c.endOfLine (Node.remark ⟨.comment c, span⟩)]
  | ⟨.directive d, span⟩ => [.remark false (Node.remark ⟨.directive d, span⟩)]
  | _ => []
termination_by structural n

def piecesAll (detail : Detail) (ns : List Node) (strength : Precedence) : List (List Piece) :=
  match ns with
  | [] => []
  | n :: ns => n.pieces detail strength :: piecesAll detail ns strength
termination_by structural ns

/-- The entries of a list with commas. -/
def chunksAll (detail : Detail) (ns : List Node) : List Chunk :=
  match ns with
  | [] => []
  | n :: ns => ⟨n.isTrivia, n.pieces detail .test⟩ :: chunksAll detail ns
termination_by structural ns

/-- The pieces of a node that may be absent, with `before` in front of them. -/
def piecesOption (detail : Detail) (n : Option Node) (before : List Piece) : List Piece :=
  match n with
  | none => []
  | some n => before ++ n.pieces detail .test
termination_by structural n

end

/-- The entry that a node is. -/
def Node.chunk (detail : Detail) (n : Node) : Chunk :=
  ⟨n.isTrivia, n.pieces detail .test⟩

theorem piecesAll_eq (detail : Detail) (ns : List Node) (strength : Precedence) :
    piecesAll detail ns strength = ns.map (·.pieces detail strength) := by
  induction ns with
  | nil => rfl
  | cons n ns ih => rw [piecesAll, ih, List.map_cons]

theorem chunksAll_eq (detail : Detail) (ns : List Node) :
    chunksAll detail ns = ns.map (·.chunk detail) := by
  induction ns with
  | nil => rfl
  | cons n ns ih => rw [chunksAll, ih, List.map_cons, Node.chunk]

/-- What stands between the brackets of a subscript: a tuple has no brackets of its own there. -/
def Node.subscriptPieces (detail : Detail) (n : Node) : List Piece :=
  match n.kind with
  | .tuple elts => enclosed (!elts.any (!·.isTrivia)) (tupled (detail.shown (chunksAll detail elts)))
  | _ => n.pieces detail .tuple

theorem pieces_subscript (detail : Detail) (value index : Node) (span : Option Span)
    (strength : Precedence) :
    Node.pieces detail ⟨.subscript value index, span⟩ strength =
      value.pieces detail .atom ++ [sign "["] ++ index.subscriptPieces detail ++ [sign "]"] := by
  obtain ⟨kind, _⟩ := index
  cases kind <;> rfl

/-- The entries of a list of parameters: a star alone marks that what follows is passed by name. -/
def parameterChunks (detail : Detail) (args : List Node) (vararg : Option Node)
    (kwonlyargs : List Node) (kwarg : Option Node) : List Chunk :=
  let star := match vararg with
    | some a => [⟨false, sign "*" :: a.pieces detail .test⟩]
    | none => if kwonlyargs.any (!·.isTrivia) then [⟨false, [sign "*"]⟩] else []
  chunksAll detail args ++ star ++ chunksAll detail kwonlyargs ++
    (kwarg.map fun a => ⟨false, sign "**" :: a.pieces detail .test⟩).toList

/-- What the parameters of a function are printed as. -/
def Node.parameterPieces (detail : Detail) (n : Node) : List Piece :=
  match n.kind with
  | .arguments args vararg kwonlyargs kwarg =>
      listed (detail.shown (parameterChunks detail args vararg kwonlyargs kwarg))
  | _ => []

/-! ### Statements -/

/-- The line that a statement begins with, without what follows it. -/
def Node.header (detail : Detail) (n : Node) (elif : Bool) : List Piece :=
  match n.kind with
  | .functionDef id args _ =>
      [term "def", .space, term id, sign "("] ++ args.parameterPieces detail ++ [sign ")", sign ":"]
  | .returnStmt none => [term "return"]
  | .returnStmt (some value) => [term "return", .space] ++ value.pieces detail .tuple
  | .assign targets value =>
      (targets.flatMap fun t => t.pieces detail .tuple ++ [.space, sign "=", .space]) ++
        value.pieces detail .tuple
  | .augAssign target op value =>
      target.pieces detail .tuple ++ [.space, sign (op.symbol ++ "="), .space] ++
        value.pieces detail .tuple
  | .forLoop target iter _ _ =>
      [term "for", .space] ++ target.pieces detail .tuple ++ [.space, term "in", .space] ++
        iter.pieces detail .tuple ++ [sign ":"]
  | .whileLoop test _ _ => [term "while", .space] ++ test.pieces detail .test ++ [sign ":"]
  | .ifStmt test _ _ =>
      [term (if elif then "elif" else "if"), .space] ++ test.pieces detail .test ++ [sign ":"]
  | .exprStmt value => value.pieces detail .tuple
  | .pass => [term "pass"]
  | .breakStmt => [term "break"]
  | .continueStmt => [term "continue"]
  | _ => []

/-- How many of the comments in an `orelse` are printed before the `else`, and whether the rest is
printed as an `elif`. -/
def orelseShape (detail : Detail) (conditions : Bool) (body orelse : List Node) : Nat × Bool :=
  let count := hoisted detail (renderAll detail body) (renderAll detail orelse)
  (count, conditions && (elifOf? detail ((renderAll detail orelse).drop count)).isSome)

/-- What a statement is laid out as: lines of code and comments at their levels, and blocks. -/
structure Layout (β : Type) where
  line : Nat → List Piece → List β
  comment : Nat → String → List β
  /-- A comment that follows what stands on the line before. -/
  tail : String → List β
  block : List β → List β

section Lay

variable {β : Type} (on : Layout β)

/-- What follows the block of a condition or a loop; `solid` when there is a statement in it. -/
def layOrelse (shape : Nat × Bool) (solid : Bool) (parts : List (Nat → Bool → List β))
    (level : Nat) : List β :=
  let rest := parts.drop shape.1
  (parts.take shape.1).flatMap (· level false) ++
    if shape.2 then rest.flatMap (· level true)
    else if solid then
      on.line level [term "else", sign ":"] ++ on.block (rest.flatMap (· (level + 1) false))
    else rest.flatMap (· level false)

mutual

/-- Lay out a statement at a level; `elif` when it is printed in the place of an `else`. -/
def Node.lay (detail : Detail) (n : Node) (level : Nat) (elif : Bool) : List β :=
  match n with
  | ⟨.functionDef id args body, span⟩ =>
      on.line level (Node.header detail ⟨.functionDef id args body, span⟩ elif) ++
        on.block ((layAll detail body).flatMap (· (level + 1) false))
  | ⟨.forLoop target iter body orelse, span⟩ =>
      on.line level (Node.header detail ⟨.forLoop target iter body orelse, span⟩ elif) ++
        on.block ((layAll detail body).flatMap (· (level + 1) false)) ++
        layOrelse on (orelseShape detail false body orelse) (orelse.any (!·.isTrivia))
          (layAll detail orelse) level
  | ⟨.whileLoop test body orelse, span⟩ =>
      on.line level (Node.header detail ⟨.whileLoop test body orelse, span⟩ elif) ++
        on.block ((layAll detail body).flatMap (· (level + 1) false)) ++
        layOrelse on (orelseShape detail false body orelse) (orelse.any (!·.isTrivia))
          (layAll detail orelse) level
  | ⟨.ifStmt test body orelse, span⟩ =>
      on.line level (Node.header detail ⟨.ifStmt test body orelse, span⟩ elif) ++
        on.block ((layAll detail body).flatMap (· (level + 1) false)) ++
        layOrelse on (orelseShape detail true body orelse) (orelse.any (!·.isTrivia))
          (layAll detail orelse) level
  | ⟨.comment c, _⟩ =>
      match detail with
      | .code => []
      | .trivia => if c.endOfLine then on.tail c.line else on.comment level c.line
  | ⟨.directive d, span⟩ =>
      match detail with
      | .code => []
      | .trivia => on.comment level (Node.remark ⟨.directive d, span⟩)
  | n => on.line level (n.header detail elif)
termination_by structural n

def layAll (detail : Detail) (ns : List Node) : List (Nat → Bool → List β) :=
  match ns with
  | [] => []
  | n :: ns => n.lay detail :: layAll detail ns
termination_by structural ns

end

theorem layAll_eq (detail : Detail) (ns : List Node) :
    layAll on detail ns = ns.map (·.lay on detail) := by
  induction ns with
  | nil => rfl
  | cons n ns ih => rw [layAll, ih, List.map_cons]

end Lay

/-- What a statement puts on the page. -/
inductive Row where
  /-- A line of code, indented to a level. -/
  | code (level : Nat) (pieces : List Piece)
  /-- A line that is a comment. -/
  | comment (level : Nat) (text : String)
  /-- A comment that follows what stands on the line before. -/
  | tail (text : String)
deriving DecidableEq, Repr

/-- The lines of a statement. -/
def Layout.rows : Layout Row where
  line level ps := [.code level ps]
  comment level text := [.comment level text]
  tail text := [.tail text]
  block rows := rows

/-- The words of a statement. -/
def Layout.wording : Layout Word where
  line _ ps := words ps ++ [(.newline, "\n")]
  comment _ _ := []
  tail _ := []
  block ws := (.indent, "") :: ws ++ [(.dedent, "")]

/-- The lines that a statement is printed as. -/
def Node.rows (detail : Detail) (n : Node) (level : Nat) (elif : Bool) : List Row :=
  n.lay .rows detail level elif

/-- The words of a statement. -/
def Node.wording (detail : Detail) (n : Node) (level : Nat) (elif : Bool) : List Word :=
  n.lay .wording detail level elif

theorem layAll_rows (detail : Detail) (ns : List Node) (level : Nat) (elif : Bool) :
    (layAll .rows detail ns).flatMap (· level elif) = ns.flatMap (·.rows detail level elif) := by
  rw [layAll_eq, List.flatMap_map]
  rfl

theorem layAll_wording (detail : Detail) (ns : List Node) (level : Nat) (elif : Bool) :
    (layAll .wording detail ns).flatMap (· level elif) = ns.flatMap (·.wording detail level elif) := by
  rw [layAll_eq, List.flatMap_map]
  rfl

end TriviaTree
