import Mathlib
import TriviaTree.Proofs.Token.Spelling
import TriviaTree.Proofs.Tree.Walks
import TriviaTree.Render.Tree

/-!
Trees that can be printed and read again.

The grammar only ever builds trees in which every name is an identifier, every number is the text
of a token, and slices and arguments by name stand where the grammar has them. `Printable` says so
of expressions, by the part a node plays in the node above it, and `PrintableStatement` of
statements.

A starred value between parentheses is an expression to the grammar, and a block whose only line
goes on after a backslash is empty. Neither is printed so that it can be read again: a `strict` tree
has none of them.
-/

set_option autoImplicit false

namespace TriviaTree

/-- A name that is not a keyword. -/
structure IsIdentifier (name : String) : Prop where
  spelled : Text.isIdentifier name.toList = true
  free : isKeyword name = false

/-- Numbers are spelled as tokens of their kind; all other literals can be spelled. -/
def Constant.IsSpelled : Constant → Prop
  | .int text => IsNumber .int text
  | .float text => IsNumber .float text
  | _ => True

/-- How strongly an expression binds: those with brackets of their own are atoms. -/
def Node.strength (n : Node) : Precedence :=
  match n.kind with
  | .boolOp op _ => op.precedence
  | .binOp _ op _ => op.precedence
  | .unaryOp op _ => op.precedence
  | .compare .. => .compare
  | .ifExp .. => .test
  | _ => .atom

/-- The part an expression plays in the node above it. -/
inductive Part where
  | whole
  /-- An entry of a list, tuple or set, or an argument passed by position: it may be starred. -/
  | item
  /-- One of several indices of a subscript: it may be a slice. -/
  | index
  /-- All that stands between the brackets of a subscript. -/
  | subscript
  /-- An argument passed by name. -/
  | keyword
deriving DecidableEq, Repr

variable (strict : Bool)

/-- An expression that can be printed in its part. -/
inductive Printable : Part → Node → Prop
  | name {id : String} {span : Option Span} (hid : IsIdentifier id) :
      Printable .whole ⟨.name id, span⟩
  | constant {value : Constant} {span : Option Span} (hvalue : value.IsSpelled) :
      Printable .whole ⟨.constant value, span⟩
  | boolOp {op : BoolOp} {values : List Node} {span : Option Span} (htwo : 2 ≤ values.length)
      (hvalues : ∀ v ∈ values, Printable .whole v) : Printable .whole ⟨.boolOp op values, span⟩
  | binOp {left right : Node} {op : BinaryOp} {span : Option Span} (hleft : Printable .whole left)
      (hright : Printable .whole right) : Printable .whole ⟨.binOp left op right, span⟩
  | unaryOp {op : UnaryOp} {operand : Node} {span : Option Span}
      (hoperand : Printable .whole operand) : Printable .whole ⟨.unaryOp op operand, span⟩
  | compare {left : Node} {ops : List CompareOp} {comparators : List Node} {span : Option Span}
      (hleft : Printable .whole left) (hne : ops ≠ []) (hlength : comparators.length = ops.length)
      (hcomparators : ∀ c ∈ comparators, Printable .whole c) :
      Printable .whole ⟨.compare left ops comparators, span⟩
  | ifExp {test body orelse : Node} {span : Option Span} (htest : Printable .whole test)
      (hbody : Printable .whole body) (horelse : Printable .whole orelse) :
      Printable .whole ⟨.ifExp test body orelse, span⟩
  | call {func : Node} {args keywords : List Node} {span : Option Span}
      (hfunc : Printable .whole func) (hargs : ∀ a ∈ args, Printable .item a)
      (hkeywords : ∀ k ∈ keywords, Printable .keyword k) :
      Printable .whole ⟨.call func args keywords, span⟩
  | member {value : Node} {attr : String} {span : Option Span} (hvalue : Printable .whole value)
      (hattr : IsIdentifier attr) : Printable .whole ⟨.attribute value attr, span⟩
  | subscript {value index : Node} {span : Option Span} (hvalue : Printable .whole value)
      (hindex : Printable .subscript index) : Printable .whole ⟨.subscript value index, span⟩
  | list {elts : List Node} {span : Option Span} (helts : ∀ e ∈ elts, Printable .item e) :
      Printable .whole ⟨.list elts, span⟩
  | tuple {elts : List Node} {span : Option Span} (helts : ∀ e ∈ elts, Printable .item e) :
      Printable .whole ⟨.tuple elts, span⟩
  | set {elts : List Node} {span : Option Span} (hne : elts ≠ [])
      (helts : ∀ e ∈ elts, Printable .item e) : Printable .whole ⟨.set elts, span⟩
  | dict {keys values : List Node} {span : Option Span} (hlength : values.length = keys.length)
      (hkeys : ∀ k ∈ keys, Printable .whole k) (hvalues : ∀ v ∈ values, Printable .whole v) :
      Printable .whole ⟨.dict keys values, span⟩
  /-- Between parentheses, which are not printed. -/
  | bracketed {value : Node} {span : Option Span} (hlax : strict = false)
      (hvalue : Printable .whole value) : Printable .whole ⟨.starred value, span⟩
  | item {n : Node} (h : Printable .whole n) : Printable .item n
  | starred {value : Node} {span : Option Span} (hvalue : Printable .whole value) :
      Printable .item ⟨.starred value, span⟩
  | index {n : Node} (h : Printable .whole n) : Printable .index n
  | slice {lower upper step : Option Node} {span : Option Span}
      (hlower : ∀ n ∈ lower, Printable .whole n) (hupper : ∀ n ∈ upper, Printable .whole n)
      (hstep : ∀ n ∈ step, Printable .whole n) : Printable .index ⟨.slice lower upper step, span⟩
  /-- A tuple that is a subscript by itself has no brackets of its own. -/
  | single {n : Node} (h : Printable .index n) (hbare : ∀ elts, n.kind = .tuple elts → elts = []) :
      Printable .subscript n
  | several {elts : List Node} {span : Option Span} (hne : elts ≠ [])
      (helts : ∀ e ∈ elts, Printable .index e) : Printable .subscript ⟨.tuple elts, span⟩
  | keyword {arg : Option String} {value : Node} {span : Option Span}
      (harg : ∀ name ∈ arg, IsIdentifier name) (hvalue : Printable .whole value) :
      Printable .keyword ⟨.keyword arg value, span⟩

/-- A parameter, with a default when `defaults` allows one. -/
inductive PrintableParameter (defaults : Bool) : Node → Prop
  | arg {name : String} {default : Option Node} {span : Option Span} (hname : IsIdentifier name)
      (hdefault : ∀ d ∈ default, defaults = true ∧ Printable strict .whole d) :
      PrintableParameter defaults ⟨.arg name default, span⟩

/-- The parameters of a function. -/
inductive PrintableParameters : Node → Prop
  | arguments {args kwonlyargs : List Node} {vararg kwarg : Option Node} {span : Option Span}
      (hargs : ∀ a ∈ args, PrintableParameter strict true a)
      (hvararg : ∀ a ∈ vararg, PrintableParameter strict false a)
      (hkwonlyargs : ∀ a ∈ kwonlyargs, PrintableParameter strict true a)
      (hkwarg : ∀ a ∈ kwarg, PrintableParameter strict false a) :
      PrintableParameters ⟨.arguments args vararg kwonlyargs kwarg, span⟩

/-- The target of a loop: it ends before `in`, so no comparison and nothing weaker stands there
without brackets. -/
def PrintableTarget (n : Node) : Prop :=
  Printable strict .item n ∧ (strict = true → ¬ n.strength < .bitOr)

/-- A statement that can be printed. -/
inductive PrintableStatement : Node → Prop
  | functionDef {name : String} {args : Node} {body : List Node} {span : Option Span}
      (hname : IsIdentifier name) (hargs : PrintableParameters strict args) (hne : strict = true → body ≠ [])
      (hbody : ∀ s ∈ body, PrintableStatement s) :
      PrintableStatement ⟨.functionDef name args body, span⟩
  | returnStmt {value : Option Node} {span : Option Span}
      (hvalue : ∀ v ∈ value, Printable strict .item v) : PrintableStatement ⟨.returnStmt value, span⟩
  | assign {targets : List Node} {value : Node} {span : Option Span} (hne : targets ≠ [])
      (htargets : ∀ t ∈ targets, Printable strict .item t) (hvalue : Printable strict .item value) :
      PrintableStatement ⟨.assign targets value, span⟩
  | augAssign {target value : Node} {op : BinaryOp} {span : Option Span}
      (htarget : Printable strict .item target) (hvalue : Printable strict .item value) :
      PrintableStatement ⟨.augAssign target op value, span⟩
  | forLoop {target iter : Node} {body orelse : List Node} {span : Option Span}
      (htarget : PrintableTarget strict target) (hiter : Printable strict .item iter) (hne : strict = true → body ≠ [])
      (hbody : ∀ s ∈ body, PrintableStatement s) (horelse : ∀ s ∈ orelse, PrintableStatement s) :
      PrintableStatement ⟨.forLoop target iter body orelse, span⟩
  | whileLoop {test : Node} {body orelse : List Node} {span : Option Span}
      (htest : Printable strict .whole test) (hne : strict = true → body ≠ [])
      (hbody : ∀ s ∈ body, PrintableStatement s) (horelse : ∀ s ∈ orelse, PrintableStatement s) :
      PrintableStatement ⟨.whileLoop test body orelse, span⟩
  | ifStmt {test : Node} {body orelse : List Node} {span : Option Span}
      (htest : Printable strict .whole test) (hne : strict = true → body ≠ [])
      (hbody : ∀ s ∈ body, PrintableStatement s) (horelse : ∀ s ∈ orelse, PrintableStatement s) :
      PrintableStatement ⟨.ifStmt test body orelse, span⟩
  | exprStmt {value : Node} {span : Option Span} (hvalue : Printable strict .item value) :
      PrintableStatement ⟨.exprStmt value, span⟩
  | pass {span : Option Span} : PrintableStatement ⟨.pass, span⟩
  | breakStmt {span : Option Span} : PrintableStatement ⟨.breakStmt, span⟩
  | continueStmt {span : Option Span} : PrintableStatement ⟨.continueStmt, span⟩

/-- A module that can be printed. -/
inductive PrintableModule : Node → Prop
  | module {body : List Node} {span : Option Span}
      (hbody : ∀ s ∈ body, PrintableStatement strict s) :
      PrintableModule ⟨.module body, span⟩

/-! ### Code -/

namespace Node

/-- The numbers of a tree are spelled as tokens. -/
def Spelled (n : Node) : Prop :=
  ∀ m ∈ n.preorder, ∀ value, m.kind = .constant value → value.IsSpelled

/-- No node of the tree is trivia, and all numbers are spelled as tokens. -/
structure IsCode (n : Node) : Prop where
  plain : n.Plain
  spelled : n.Spelled

theorem isCode_iff {n : Node} : n.IsCode ↔ n.isTrivia = false ∧
    (∀ value, n.kind = .constant value → value.IsSpelled) ∧ ∀ c ∈ n.children, c.IsCode := by
  constructor
  · rintro ⟨plain, spelled⟩
    obtain ⟨htrivia, hplain⟩ := plain_iff.1 plain
    obtain ⟨hself, hspelled⟩ := forall_mem_preorder.1 spelled
    exact ⟨htrivia, hself, fun c hc => ⟨hplain c hc, hspelled c hc⟩⟩
  · rintro ⟨htrivia, hself, hchildren⟩
    exact ⟨plain_iff.2 ⟨htrivia, fun c hc => (hchildren c hc).plain⟩,
      forall_mem_preorder.2 ⟨hself, fun c hc => (hchildren c hc).spelled⟩⟩

end Node

variable {strict : Bool}

theorem Printable.isCode {part : Part} {n : Node} (h : Printable strict part n) : n.IsCode := by
  induction h with
  | item _ ih | index _ ih | single _ _ ih => exact ih
  | constant hvalue =>
      refine Node.isCode_iff.2 ⟨rfl, fun value heq => ?_, ?_⟩
      · cases heq
        exact hvalue
      · simp [Node.children, Kind.children, Kind.contents]
  | _ =>
      refine Node.isCode_iff.2 ⟨rfl, by simp, ?_⟩
      simp only [Node.children, Kind.children, Kind.contents, List.flatten_cons, List.flatten_nil,
        List.append_nil, List.mem_append, List.mem_cons, List.not_mem_nil, Option.mem_toList]
      grind

theorem PrintableParameter.isCode {defaults : Bool} {n : Node}
    (h : PrintableParameter strict defaults n) : n.IsCode := by
  cases h with
  | arg _ hdefault =>
      refine Node.isCode_iff.2 ⟨rfl, by simp, fun c hc => ?_⟩
      exact (hdefault c (by simpa [Node.children, Kind.children, Kind.contents] using hc)).2.isCode

theorem PrintableParameters.isCode {n : Node} (h : PrintableParameters strict n) : n.IsCode := by
  cases h with
  | arguments hargs hvararg hkwonlyargs hkwarg =>
      refine Node.isCode_iff.2 ⟨rfl, by simp, fun c hc => ?_⟩
      simp only [Node.children, Kind.children, Kind.contents, List.flatten_cons, List.flatten_nil,
        List.append_nil, List.mem_append, Option.mem_toList] at hc
      rcases hc with hc | hc | hc | hc
      · exact (hargs c hc).isCode
      · exact (hvararg c hc).isCode
      · exact (hkwonlyargs c hc).isCode
      · exact (hkwarg c hc).isCode

theorem PrintableStatement.isCode {n : Node} (h : PrintableStatement strict n) : n.IsCode := by
  induction h with
  | returnStmt hvalue =>
      refine Node.isCode_iff.2 ⟨rfl, by simp, fun c hc => ?_⟩
      exact (hvalue c (by simpa [Node.children, Kind.children, Kind.contents] using hc)).isCode
  | _ =>
      refine Node.isCode_iff.2 ⟨rfl, by simp, ?_⟩
      simp only [Node.children, Kind.children, Kind.contents, List.flatten_cons, List.flatten_nil,
        List.append_nil, List.mem_append, List.mem_cons, List.not_mem_nil]
      grind [Printable.isCode, PrintableParameters.isCode, PrintableTarget]

theorem PrintableModule.isCode {n : Node} (h : PrintableModule strict n) : n.IsCode := by
  cases h with
  | module hbody =>
      refine Node.isCode_iff.2 ⟨rfl, by simp, fun c hc => ?_⟩
      exact (hbody c (by simpa [Node.children, Kind.children, Kind.contents] using hc)).isCode

end TriviaTree
