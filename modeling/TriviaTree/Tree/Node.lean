import TriviaTree.Source.Location
import TriviaTree.Tree.Operator
import TriviaTree.Tree.Trivia

/-!
The syntax tree.

A `Node` is a `Kind` with a span, if it has one. `Kind α` is one layer of a tree: the attributes
of a node and its children, which are of type `α`. Keeping the layer apart from the recursion
makes everything that looks at one node only, such as its fields, plain data (`Tree.Field`).

Comments and directives are nodes like any other, so a tree can carry them wherever it has a list
of children. The expression of a directive's payload is not a child: no walk descends into it.
-/

set_option autoImplicit false

namespace TriviaTree

/-- A literal; numbers keep their spelling. -/
inductive Constant where
  | int (text : String)
  | float (text : String)
  | str (value : String)
  | bool (value : Bool)
  | nothing
deriving DecidableEq, Repr

/-- One layer of a tree. -/
inductive Kind (α : Type) where
  | module (body : List α)
  | functionDef (name : String) (args : α) (body : List α)
  | returnStmt (value : Option α)
  | assign (targets : List α) (value : α)
  | augAssign (target : α) (op : BinaryOp) (value : α)
  | forLoop (target iter : α) (body orelse : List α)
  | whileLoop (test : α) (body orelse : List α)
  | ifStmt (test : α) (body orelse : List α)
  | exprStmt (value : α)
  | pass
  | breakStmt
  | continueStmt
  | boolOp (op : BoolOp) (values : List α)
  | binOp (left : α) (op : BinaryOp) (right : α)
  | unaryOp (op : UnaryOp) (operand : α)
  | compare (left : α) (ops : List CompareOp) (comparators : List α)
  | ifExp (test body orelse : α)
  | call (func : α) (args keywords : List α)
  | attribute (value : α) (attr : String)
  | subscript (value slice : α)
  | slice (lower upper step : Option α)
  | starred (value : α)
  | name (id : String)
  | constant (value : Constant)
  | list (elts : List α)
  | tuple (elts : List α)
  | set (elts : List α)
  | dict (keys values : List α)
  | arguments (args : List α) (vararg : Option α) (kwonlyargs : List α) (kwarg : Option α)
  | arg (name : String) (default : Option α)
  /-- An argument passed by name; without a name it is `**value`. -/
  | keyword (arg : Option String) (value : α)
  | comment (comment : Comment)
  | directive (directive : Directive α)
deriving DecidableEq, Repr

namespace Kind

variable {α : Type}

/-- The name of the kind; a directive goes by its family. -/
def label : Kind α → String
  | .module .. => "Module"
  | .functionDef .. => "FunctionDef"
  | .returnStmt .. => "Return"
  | .assign .. => "Assign"
  | .augAssign .. => "AugAssign"
  | .forLoop .. => "For"
  | .whileLoop .. => "While"
  | .ifStmt .. => "If"
  | .exprStmt .. => "Expr"
  | .pass => "Pass"
  | .breakStmt => "Break"
  | .continueStmt => "Continue"
  | .boolOp .. => "BoolOp"
  | .binOp .. => "BinOp"
  | .unaryOp .. => "UnaryOp"
  | .compare .. => "Compare"
  | .ifExp .. => "IfExp"
  | .call .. => "Call"
  | .attribute .. => "Attribute"
  | .subscript .. => "Subscript"
  | .slice .. => "Slice"
  | .starred .. => "Starred"
  | .name .. => "Name"
  | .constant .. => "Constant"
  | .list .. => "List"
  | .tuple .. => "Tuple"
  | .set .. => "Set"
  | .dict .. => "Dict"
  | .arguments .. => "Arguments"
  | .arg .. => "Arg"
  | .keyword .. => "Keyword"
  | .comment .. => "Comment"
  | .directive d => d.family.name

def isTrivia : Kind α → Bool
  | .comment _ | .directive _ => true
  | _ => false

def isStatement : Kind α → Bool
  | .functionDef .. | .returnStmt .. | .assign .. | .augAssign .. | .forLoop .. | .whileLoop ..
  | .ifStmt .. | .exprStmt .. | .pass | .breakStmt | .continueStmt => true
  | _ => false

/-- A comment at the end of a line of code. -/
def isEndOfLineComment : Kind α → Bool
  | .comment c => c.endOfLine
  | _ => false

end Kind

structure Node where
  kind : Kind Node
  span : Option Span

namespace Node

/-- A node without a span. -/
def bare (kind : Kind Node) : Node := ⟨kind, none⟩

def label (n : Node) : String := n.kind.label

def isTrivia (n : Node) : Bool := n.kind.isTrivia

def isEndOfLineComment (n : Node) : Bool := n.kind.isEndOfLineComment

instance : Inhabited Node := ⟨⟨.pass, none⟩⟩

end Node

/-- What a comment's text turns out to be. -/
inductive Trivia where
  | comment (comment : Comment)
  | directive (directive : Directive Node)

namespace Trivia

def label : Trivia → String
  | .comment _ => "Comment"
  | .directive d => d.family.name

def toNode (span : Option Span) : Trivia → Node
  | .comment c => ⟨.comment c, span⟩
  | .directive d => ⟨.directive d, span⟩

end Trivia

end TriviaTree
