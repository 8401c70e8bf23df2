/-!
Operators, their symbols, and how strongly they bind.
-/

set_option autoImplicit false

namespace TriviaTree

/-- Binding strength of an expression, weakest first. -/
inductive Precedence where
  | tuple
  | test
  | or
  | and
  | not
  | compare
  | bitOr
  | bitXor
  | bitAnd
  | shift
  | arith
  | term
  | factor
  | power
  | await
  | atom
deriving DecidableEq, Repr

namespace Precedence

def all : List Precedence :=
  [.tuple, .test, .or, .and, .not, .compare, .bitOr, .bitXor, .bitAnd, .shift, .arith, .term,
   .factor, .power, .await, .atom]

/-- The place of a strength among all. -/
def rank : Precedence → Nat
  | .tuple => 0
  | .test => 1
  | .or => 2
  | .and => 3
  | .not => 4
  | .compare => 5
  | .bitOr => 6
  | .bitXor => 7
  | .bitAnd => 8
  | .shift => 9
  | .arith => 10
  | .term => 11
  | .factor => 12
  | .power => 13
  | .await => 14
  | .atom => 15

instance : LT Precedence where
  lt a b := a.rank < b.rank

instance (a b : Precedence) : Decidable (a < b) :=
  inferInstanceAs (Decidable (a.rank < b.rank))

/-- The next stronger one; nothing is stronger than an atom. -/
def next : Precedence → Precedence
  | .tuple => .test
  | .test => .or
  | .or => .and
  | .and => .not
  | .not => .compare
  | .compare => .bitOr
  | .bitOr => .bitXor
  | .bitXor => .bitAnd
  | .bitAnd => .shift
  | .shift => .arith
  | .arith => .term
  | .term => .factor
  | .factor => .power
  | .power => .await
  | .await => .atom
  | .atom => .atom

theorem rank_next (p : Precedence) (h : p ≠ .atom) : p.next.rank = p.rank + 1 := by
  cases p <;> simp_all [next, rank]

/-- A strength and all stronger ones. -/
def chain (p : Precedence) : List Precedence :=
  all.drop p.rank

def name : Precedence → String
  | .tuple => "Tuple"
  | .test => "Test"
  | .or => "Or"
  | .and => "And"
  | .not => "Not"
  | .compare => "Compare"
  | .bitOr => "BitOr"
  | .bitXor => "BitXor"
  | .bitAnd => "BitAnd"
  | .shift => "Shift"
  | .arith => "Arith"
  | .term => "Term"
  | .factor => "Factor"
  | .power => "Power"
  | .await => "Await"
  | .atom => "Atom"

end Precedence

inductive BoolOp where
  | and
  | or
deriving DecidableEq, Repr

namespace BoolOp

def all : List BoolOp := [.and, .or]

def symbol : BoolOp → String
  | .and => "and"
  | .or => "or"

def name : BoolOp → String
  | .and => "And"
  | .or => "Or"

def precedence : BoolOp → Precedence
  | .and => .and
  | .or => .or

end BoolOp

inductive BinaryOp where
  | add
  | sub
  | mult
  | matMult
  | div
  | floorDiv
  | mod
  | pow
  | leftShift
  | rightShift
  | bitOr
  | bitXor
  | bitAnd
deriving DecidableEq, Repr

namespace BinaryOp

def all : List BinaryOp :=
  [.add, .sub, .mult, .matMult, .div, .floorDiv, .mod, .pow, .leftShift, .rightShift, .bitOr,
   .bitXor, .bitAnd]

def symbol : BinaryOp → String
  | .add => "+"
  | .sub => "-"
  | .mult => "*"
  | .matMult => "@"
  | .div => "/"
  | .floorDiv => "//"
  | .mod => "%"
  | .pow => "**"
  | .leftShift => "<<"
  | .rightShift => ">>"
  | .bitOr => "|"
  | .bitXor => "^"
  | .bitAnd => "&"

def ofSymbol? (symbol : String) : Option BinaryOp :=
  all.find? (·.symbol = symbol)

def name : BinaryOp → String
  | .add => "Add"
  | .sub => "Sub"
  | .mult => "Mult"
  | .matMult => "MatMult"
  | .div => "Div"
  | .floorDiv => "FloorDiv"
  | .mod => "Mod"
  | .pow => "Pow"
  | .leftShift => "LShift"
  | .rightShift => "RShift"
  | .bitOr => "BitOr"
  | .bitXor => "BitXor"
  | .bitAnd => "BitAnd"

def precedence : BinaryOp → Precedence
  | .bitOr => .bitOr
  | .bitXor => .bitXor
  | .bitAnd => .bitAnd
  | .leftShift | .rightShift => .shift
  | .add | .sub => .arith
  | .mult | .matMult | .div | .floorDiv | .mod => .term
  | .pow => .power

end BinaryOp

inductive UnaryOp where
  | not
  | invert
  | plus
  | minus
deriving DecidableEq, Repr

namespace UnaryOp

def all : List UnaryOp := [.not, .invert, .plus, .minus]

/-- The symbol as written before the operand; a word keeps its distance. -/
def symbol : UnaryOp → String
  | .not => "not "
  | .invert => "~"
  | .plus => "+"
  | .minus => "-"

def name : UnaryOp → String
  | .not => "Not"
  | .invert => "Invert"
  | .plus => "UAdd"
  | .minus => "USub"

def precedence : UnaryOp → Precedence
  | .not => .not
  | _ => .factor

end UnaryOp

inductive CompareOp where
  | eq
  | notEq
  | lt
  | ltEq
  | gt
  | gtEq
  | is
  | isNot
  | isIn
  | notIn
deriving DecidableEq, Repr

namespace CompareOp

def all : List CompareOp :=
  [.eq, .notEq, .lt, .ltEq, .gt, .gtEq, .is, .isNot, .isIn, .notIn]

def symbol : CompareOp → String
  | .eq => "=="
  | .notEq => "!="
  | .lt => "<"
  | .ltEq => "<="
  | .gt => ">"
  | .gtEq => ">="
  | .is => "is"
  | .isNot => "is not"
  | .isIn => "in"
  | .notIn => "not in"

def name : CompareOp → String
  | .eq => "Eq"
  | .notEq => "NotEq"
  | .lt => "Lt"
  | .ltEq => "LtE"
  | .gt => "Gt"
  | .gtEq => "GtE"
  | .is => "Is"
  | .isNot => "IsNot"
  | .isIn => "In"
  | .notIn => "NotIn"

end CompareOp

end TriviaTree
