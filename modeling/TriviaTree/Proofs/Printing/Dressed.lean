import Mathlib
import TriviaTree.Proofs.Printing.Printable

/-!
Trees with trivia that can be printed and read again.

A tree is dressed when what stripping leaves of it can be printed strictly, and its trivia stand
among the entries of lists and are remarks: lines of text that begin with a `#`. A tree that is
printable once it is stripped, with its trivia in their places, is dressed
(`dressedModule_of_strip`), and a printable tree is dressed without any trivia.
-/

set_option autoImplicit false

namespace TriviaTree

namespace Node

/-- What writes the text of a comment or directive, from its `#` on. -/
def inscribe (n : Node) : Action :=
  match n.kind with
  | .comment c => .text c.line
  | .directive d => writeDirective d (renderPayload d.payload)
  | _ => .skip

/-- Trivia that are written as one line, which begins with a `#`. -/
def IsRemark (n : Node) : Prop :=
  ∃ text : String, n.inscribe = .text text ∧ text.toList.head? = some '#' ∧
    ∀ c ∈ text.toList, Token.isBreak c = false

/-- The nodes that are code. -/
def code (ns : List Node) : List Node :=
  ns.filter (!·.isTrivia)

theorem mem_code {n : Node} {ns : List Node} : n ∈ code ns ↔ n ∈ ns ∧ n.isTrivia = false := by
  simp [code]

end Node

open Node

/-- An expression in its part. -/
inductive Dressed : Part → Node → Prop
  | name {id : String} {span : Option Span} (hid : IsIdentifier id) : Dressed .whole ⟨.name id, span⟩
  | constant {value : Constant} {span : Option Span} (hvalue : value.IsSpelled) :
      Dressed .whole ⟨.constant value, span⟩
  | boolOp {op : BoolOp} {values : List Node} {span : Option Span} (htwo : 2 ≤ values.length)
      (hvalues : ∀ v ∈ values, Dressed .whole v) : Dressed .whole ⟨.boolOp op values, span⟩
  | binOp {left right : Node} {op : BinaryOp} {span : Option Span} (hleft : Dressed .whole left)
      (hright : Dressed .whole right) : Dressed .whole ⟨.binOp left op right, span⟩
  | unaryOp {op : UnaryOp} {operand : Node} {span : Option Span} (hoperand : Dressed .whole operand) :
      Dressed .whole ⟨.unaryOp op operand, span⟩
  | compare {left : Node} {ops : List CompareOp} {comparators : List Node} {span : Option Span}
      (hleft : Dressed .whole left) (hne : ops ≠ []) (hlength : comparators.length = ops.length)
      (hcomparators : ∀ c ∈ comparators, Dressed .whole c) :
      Dressed .whole ⟨.compare left ops comparators, span⟩
  | ifExp {test body orelse : Node} {span : Option Span} (htest : Dressed .whole test)
      (hbody : Dressed .whole body) (horelse : Dressed .whole orelse) :
      Dressed .whole ⟨.ifExp test body orelse, span⟩
  | call {func : Node} {args keywords : List Node} {span : Option Span} (hfunc : Dressed .whole func)
      (hargs : ∀ a ∈ code args, Dressed .item a) (hkeywords : ∀ k ∈ code keywords, Dressed .keyword k)
      (hremarks : ∀ r ∈ args ++ keywords, r.isTrivia = true → r.IsRemark) :
      Dressed .whole ⟨.call func args keywords, span⟩
  | member {value : Node} {attr : String} {span : Option Span} (hvalue : Dressed .whole value)
      (hattr : IsIdentifier attr) : Dressed .whole ⟨.attribute value attr, span⟩
  | subscript {value index : Node} {span : Option Span} (hvalue : Dressed .whole value)
      (hindex : Dressed .subscript index) : Dressed .whole ⟨.subscript value index, span⟩
  | list {elts : List Node} {span : Option Span} (helts : ∀ e ∈ code elts, Dressed .item e)
      (hremarks : ∀ r ∈ elts, r.isTrivia = true → r.IsRemark) : Dressed .whole ⟨.list elts, span⟩
  | tuple {elts : List Node} {span : Option Span} (helts : ∀ e ∈ code elts, Dressed .item e)
      (hremarks : ∀ r ∈ elts, r.isTrivia = true → r.IsRemark) : Dressed .whole ⟨.tuple elts, span⟩
  | set {elts : List Node} {span : Option Span} (hne : code elts ≠ [])
      (helts : ∀ e ∈ code elts, Dressed .item e)
      (hremarks : ∀ r ∈ elts, r.isTrivia = true → r.IsRemark) : Dressed .whole ⟨.set elts, span⟩
  | dict {keys values : List Node} {span : Option Span}
      (hlength : (code values).length = (code keys).length)
      (hkeys : ∀ k ∈ code keys, Dressed .whole k) (hvalues : ∀ v ∈ code values, Dressed .whole v)
      (hremarks : ∀ r ∈ keys ++ values, r.isTrivia = true → r.IsRemark) :
      Dressed .whole ⟨.dict keys values, span⟩
  | item {n : Node} (h : Dressed .whole n) : Dressed .item n
  | starred {value : Node} {span : Option Span} (hvalue : Dressed .whole value) :
      Dressed .item ⟨.starred value, span⟩
  | index {n : Node} (h : Dressed .whole n) : Dressed .index n
  | slice {lower upper step : Option Node} {span : Option Span}
      (hlower : ∀ n ∈ lower, Dressed .whole n) (hupper : ∀ n ∈ upper, Dressed .whole n)
      (hstep : ∀ n ∈ step, Dressed .whole n) : Dressed .index ⟨.slice lower upper step, span⟩
  | single {n : Node} (h : Dressed .index n) (hbare : ∀ elts, n.kind = .tuple elts → code elts = []) :
      Dressed .subscript n
  | several {elts : List Node} {span : Option Span} (hne : code elts ≠ [])
      (helts : ∀ e ∈ code elts, Dressed .index e)
      (hremarks : ∀ r ∈ elts, r.isTrivia = true → r.IsRemark) :
      Dressed .subscript ⟨.tuple elts, span⟩
  | keyword {arg : Option String} {value : Node} {span : Option Span}
      (harg : ∀ name ∈ arg, IsIdentifier name) (hvalue : Dressed .whole value) :
      Dressed .keyword ⟨.keyword arg value, span⟩

/-- A parameter, with a default when `defaults` allows one. -/
inductive DressedParameter (defaults : Bool) : Node → Prop
  | arg {name : String} {default : Option Node} {span : Option Span} (hname : IsIdentifier name)
      (hdefault : ∀ d ∈ default, defaults = true ∧ Dressed .whole d) :
      DressedParameter defaults ⟨.arg name default, span⟩

/-- The parameters of a function. -/
inductive DressedParameters : Node → Prop
  | arguments {args kwonlyargs : List Node} {vararg kwarg : Option Node} {span : Option Span}
      (hargs : ∀ a ∈ code args, DressedParameter true a)
      (hvararg : ∀ a ∈ vararg, DressedParameter false a)
      (hkwonlyargs : ∀ a ∈ code kwonlyargs, DressedParameter true a)
      (hkwarg : ∀ a ∈ kwarg, DressedParameter false a)
      (hremarks : ∀ r ∈ args ++ kwonlyargs, r.isTrivia = true → r.IsRemark) :
      DressedParameters ⟨.arguments args vararg kwonlyargs kwarg, span⟩

/-- A statement. -/
inductive DressedStatement : Node → Prop
  | functionDef {name : String} {args : Node} {body : List Node} {span : Option Span}
      (hname : IsIdentifier name) (hargs : DressedParameters args) (hne : code body ≠ [])
      (hbody : ∀ s ∈ code body, DressedStatement s)
      (hremarks : ∀ r ∈ body, r.isTrivia = true → r.IsRemark) :
      DressedStatement ⟨.functionDef name args body, span⟩
  | returnStmt {value : Option Node} {span : Option Span} (hvalue : ∀ v ∈ value, Dressed .item v) :
      DressedStatement ⟨.returnStmt value, span⟩
  | assign {targets : List Node} {value : Node} {span : Option Span} (hne : targets ≠ [])
      (htargets : ∀ t ∈ targets, Dressed .item t) (hvalue : Dressed .item value) :
      DressedStatement ⟨.assign targets value, span⟩
  | augAssign {target value : Node} {op : BinaryOp} {span : Option Span}
      (htarget : Dressed .item target) (hvalue : Dressed .item value) :
      DressedStatement ⟨.augAssign target op value, span⟩
  | forLoop {target iter : Node} {body orelse : List Node} {span : Option Span}
      (htarget : Dressed .item target) (hstrong : ¬ target.strength < .bitOr)
      (hiter : Dressed .item iter) (hne : code body ≠ [])
      (hbody : ∀ s ∈ code body, DressedStatement s) (horelse : ∀ s ∈ code orelse, DressedStatement s)
      (hremarks : ∀ r ∈ body ++ orelse, r.isTrivia = true → r.IsRemark) :
      DressedStatement ⟨.forLoop target iter body orelse, span⟩
  | whileLoop {test : Node} {body orelse : List Node} {span : Option Span}
      (htest : Dressed .whole test) (hne : code body ≠ [])
      (hbody : ∀ s ∈ code body, DressedStatement s) (horelse : ∀ s ∈ code orelse, DressedStatement s)
      (hremarks : ∀ r ∈ body ++ orelse, r.isTrivia = true → r.IsRemark) :
      DressedStatement ⟨.whileLoop test body orelse, span⟩
  | ifStmt {test : Node} {body orelse : List Node} {span : Option Span}
      (htest : Dressed .whole test) (hne : code body ≠ [])
      (hbody : ∀ s ∈ code body, DressedStatement s) (horelse : ∀ s ∈ code orelse, DressedStatement s)
      (hremarks : ∀ r ∈ body ++ orelse, r.isTrivia = true → r.IsRemark) :
      DressedStatement ⟨.ifStmt test body orelse, span⟩
  | exprStmt {value : Node} {span : Option Span} (hvalue : Dressed .item value) :
      DressedStatement ⟨.exprStmt value, span⟩
  | pass {span : Option Span} : DressedStatement ⟨.pass, span⟩
  | breakStmt {span : Option Span} : DressedStatement ⟨.breakStmt, span⟩
  | continueStmt {span : Option Span} : DressedStatement ⟨.continueStmt, span⟩

/-- A module. -/
inductive DressedModule : Node → Prop
  | module {body : List Node} {span : Option Span} (hbody : ∀ s ∈ code body, DressedStatement s)
      (hremarks : ∀ r ∈ body, r.isTrivia = true → r.IsRemark) : DressedModule ⟨.module body, span⟩

theorem Dressed.isTrivia {part : Part} {n : Node} (h : Dressed part n) : n.isTrivia = false := by
  induction h with
  | item _ ih | index _ ih | single _ _ ih => exact ih
  | _ => rfl

/-! ### From the stripped tree -/

namespace Node

/-- The trivia of the tree stand where trivia may stand, and are remarks. -/
def Trimmed (n : Node) : Prop :=
  ∀ m ∈ n.preorder, m.ownProblems = [] ∧ (m.isTrivia = true → m.IsRemark)

/-- What is left of a sequence. -/
theorem filter_map_strip (ns : List Node) :
    (ns.map strip).filter (!·.isTrivia) = (code ns).map strip := by
  rw [List.filter_map, code]
  congr 1
  exact List.filter_congr fun n _ => by simp

theorem code_ne_nil {ns : List Node} (h : (ns.map strip).filter (!·.isTrivia) ≠ []) :
    code ns ≠ [] := by
  rw [filter_map_strip] at h
  simpa using h

theorem strength_strip (n : Node) : n.strip.strength = n.strength := by
  obtain ⟨kind, span⟩ := n
  rw [strip_eq]
  cases kind <;> rfl

namespace Trimmed

variable {n c : Node} {cs cs' : List Node} {P D : Node → Prop}

theorem of_mem (h : n.Trimmed) (hcs : cs ∈ n.kind.contents) (hc : c ∈ cs) : c.Trimmed :=
  fun m hm => h m (mem_preorder_iff.2 (.inr ⟨c, List.mem_flatten.2 ⟨cs, hcs, hc⟩, hm⟩))

theorem remarks (h : n.Trimmed) (hcs : cs ∈ n.kind.contents) :
    ∀ r ∈ cs, r.isTrivia = true → r.IsRemark :=
  fun r hr => (h.of_mem hcs hr r (mem_preorder_iff.2 (.inl rfl))).2

theorem remarks_append (h : n.Trimmed) (hcs : cs ∈ n.kind.contents ∧ cs' ∈ n.kind.contents) :
    ∀ r ∈ cs ++ cs', r.isTrivia = true → r.IsRemark :=
  fun r hr => (List.mem_append.1 hr).elim (h.remarks hcs.1 r) (h.remarks hcs.2 r)

/-- There are no trivia in a field that takes none. -/
theorem code_eq (h : n.Trimmed) {field : Field} (hentry : (field, cs) ∈ n.kind.entries)
    (hfield : field.acceptsTrivia = false) : code cs = cs := by
  refine List.filter_eq_self.2 fun c hc => ?_
  have hown := (h n (mem_preorder_iff.2 (.inl rfl))).1
  have hallowed := (ownProblems_eq_nil_iff.1 hown).1 field cs hentry c hc
  cases htrivia : c.isTrivia with
  | false => rfl
  | true => exact absurd (hallowed htrivia) (by simp [hfield])

/-- What holds of the stripped children in a sequence, carried to the children themselves. -/
theorem entries (h : n.Trimmed) (lift : ∀ c ∈ n.children, c.Trimmed → P c.strip → D c)
    (hP : ∀ x ∈ (cs.map strip).filter (!·.isTrivia), P x)
    (hcs : cs ∈ n.kind.contents) : ∀ c ∈ code cs, D c := by
  intro c hc
  rw [filter_map_strip] at hP
  have hmem := (mem_code.1 hc).1
  exact lift c (List.mem_flatten.2 ⟨cs, hcs, hmem⟩) (h.of_mem hcs hmem)
    (hP c.strip (List.mem_map_of_mem hc))

theorem optional (h : n.Trimmed) (lift : ∀ c ∈ n.children, c.Trimmed → P c.strip → D c)
    {value : Option Node} (hP : ∀ x ∈ (value.toList.map strip).head?, P x)
    (hvalue : value.toList ∈ n.kind.contents) : ∀ x ∈ value, D x := by
  rintro x rfl
  have hmem := List.mem_singleton_self x
  exact lift x (List.mem_flatten.2 ⟨[x], hvalue, hmem⟩) (h.of_mem hvalue hmem) (hP _ rfl)

theorem one (h : n.Trimmed) (lift : ∀ c ∈ n.children, c.Trimmed → P c.strip → D c)
    (hP : P c.strip) (hc : [c] ∈ n.kind.contents) : D c :=
  have hmem := List.mem_singleton_self c
  lift c (List.mem_flatten.2 ⟨[c], hc, hmem⟩) (h.of_mem hc hmem) hP

end Trimmed

end Node

-- where a field stands among the contents of a node is found by evaluation
attribute [local simp] Kind.contents

section Strip

variable {kind : Kind Node} {span : Option Span} (trimmed : (Node.mk kind span).Trimmed)
  (lift : ∀ part, ∀ c ∈ (Node.mk kind span).children, c.Trimmed → Printable true part c.strip →
    Dressed part c)

include trimmed lift

/-- An expression by itself. -/
theorem dressed_whole (h : Printable true .whole (Node.mk kind span).strip) :
    Dressed .whole ⟨kind, span⟩ := by
  rw [strip_eq] at h
  cases kind <;>
    simp only [Kind.withContents, Kind.contents, Kind.fields, Field.dropTrivia, Field.isSequence,
      Field.sequence, Field.operandSequence, Field.one, List.map_cons, List.map_nil,
      List.zipWith_cons_cons, List.zipWith_nil_right, decide_true, if_true] at h <;>
    cases h
  case name.name hid => exact .name hid
  case constant.constant hvalue => exact .constant hvalue
  case boolOp.boolOp op values htwo hvalues =>
    have hcode : code values = values := trimmed.code_eq List.mem_cons_self rfl
    rw [filter_map_strip, hcode, List.length_map] at htwo
    have hdressed := trimmed.entries (lift _) hvalues List.mem_cons_self
    exact .boolOp htwo (hcode ▸ hdressed)
  case binOp.binOp left op right hleft hright =>
    exact .binOp (trimmed.one (lift _) hleft (by simp)) (trimmed.one (lift _) hright (by simp))
  case unaryOp.unaryOp op operand hoperand =>
    exact .unaryOp (trimmed.one (lift _) hoperand (by simp))
  case compare.compare left ops comparators hleft hne hcomparators hlength =>
    have hentry : (Field.operandSequence "comparators", comparators) ∈
        (Kind.compare left ops comparators).entries := by
      simp [Kind.entries, Kind.fields, Kind.contents]
    have hcode : code comparators = comparators := trimmed.code_eq hentry rfl
    rw [filter_map_strip, hcode, List.length_map] at hlength
    have hdressed := trimmed.entries (lift _) hcomparators (by simp)
    exact .compare (trimmed.one (lift _) hleft (by simp)) hne hlength (hcode ▸ hdressed)
  case ifExp.ifExp test body orelse htest hbody horelse =>
    exact .ifExp (trimmed.one (lift _) htest (by simp)) (trimmed.one (lift _) hbody (by simp))
      (trimmed.one (lift _) horelse (by simp))
  case call.call func args keywords hfunc hargs hkeywords =>
    exact .call (trimmed.one (lift _) hfunc (by simp)) (trimmed.entries (lift _) hargs (by simp))
      (trimmed.entries (lift _) hkeywords (by simp)) (trimmed.remarks_append (by simp))
  case attribute.member value attr hvalue hattr =>
    exact .member (trimmed.one (lift _) hvalue (by simp)) hattr
  case subscript.subscript value index hvalue hindex =>
    exact .subscript (trimmed.one (lift _) hvalue (by simp)) (trimmed.one (lift _) hindex (by simp))
  case starred.bracketed hlax _ => cases hlax
  case list.list elts helts =>
    exact .list (trimmed.entries (lift _) helts (by simp)) (trimmed.remarks (by simp))
  case tuple.tuple elts helts =>
    exact .tuple (trimmed.entries (lift _) helts (by simp)) (trimmed.remarks (by simp))
  case set.set elts hne helts =>
    exact .set (code_ne_nil hne) (trimmed.entries (lift _) helts (by simp))
      (trimmed.remarks (by simp))
  case dict.dict keys values hkeys hvalues hlength =>
    rw [filter_map_strip, filter_map_strip, List.length_map, List.length_map] at hlength
    exact .dict hlength (trimmed.entries (lift _) hkeys (by simp))
      (trimmed.entries (lift _) hvalues (by simp))
      (trimmed.remarks_append (by simp))

theorem dressed_item (h : Printable true .item (Node.mk kind span).strip) :
    Dressed .item ⟨kind, span⟩ := by
  generalize hn : (Node.mk kind span).strip = n at h
  cases h with
  | item h => exact .item (dressed_whole trimmed lift (hn ▸ h))
  | starred hvalue =>
      rw [strip_eq] at hn
      cases kind <;> cases hn
      exact .starred (trimmed.one (lift _) hvalue (by simp))

theorem dressed_index (h : Printable true .index (Node.mk kind span).strip) :
    Dressed .index ⟨kind, span⟩ := by
  generalize hn : (Node.mk kind span).strip = n at h
  cases h with
  | index h => exact .index (dressed_whole trimmed lift (hn ▸ h))
  | slice hlower hupper hstep =>
      rw [strip_eq] at hn
      cases kind <;> cases hn
      exact .slice (trimmed.optional (lift _) hlower (by simp))
        (trimmed.optional (lift _) hupper (by simp)) (trimmed.optional (lift _) hstep (by simp))

theorem dressed_subscript (h : Printable true .subscript (Node.mk kind span).strip) :
    Dressed .subscript ⟨kind, span⟩ := by
  generalize hn : (Node.mk kind span).strip = n at h
  cases h with
  | single h hbare =>
      refine .single (dressed_index trimmed lift (hn ▸ h)) fun elts hkind => ?_
      cases hkind
      have hnil := hbare ((elts.map strip).filter (!·.isTrivia)) (by rw [← hn, strip_eq]; rfl)
      rw [filter_map_strip] at hnil
      simpa using hnil
  | several hne helts =>
      rw [strip_eq] at hn
      cases kind <;> cases hn
      exact .several (code_ne_nil hne) (trimmed.entries (lift _) helts (by simp))
        (trimmed.remarks (by simp))

theorem dressed_keyword (h : Printable true .keyword (Node.mk kind span).strip) :
    Dressed .keyword ⟨kind, span⟩ := by
  generalize hn : (Node.mk kind span).strip = n at h
  cases h with
  | keyword harg hvalue =>
      rw [strip_eq] at hn
      cases kind <;> cases hn
      exact .keyword harg (trimmed.one (lift _) hvalue (by simp))

end Strip

/-- An expression is dressed when what stripping leaves of it is printable. -/
theorem dressed_of_strip (n : Node) (trimmed : n.Trimmed) (part : Part)
    (h : Printable true part n.strip) : Dressed part n := by
  induction n generalizing part with
  | step n ih =>
    obtain ⟨kind, span⟩ := n
    have lift := fun part c hc hc' => ih c hc hc' part
    cases part with
    | whole => exact dressed_whole trimmed lift h
    | item => exact dressed_item trimmed lift h
    | index => exact dressed_index trimmed lift h
    | subscript => exact dressed_subscript trimmed lift h
    | keyword => exact dressed_keyword trimmed lift h

theorem dressedParameter_of_strip {defaults : Bool} {n : Node} (trimmed : n.Trimmed)
    (h : PrintableParameter true defaults n.strip) : DressedParameter defaults n := by
  generalize hn : n.strip = m at h
  obtain ⟨kind, span⟩ := n
  cases h with
  | arg hname hdefault =>
      rw [strip_eq] at hn
      cases kind <;> cases hn
      exact .arg hname (trimmed.optional
        (fun c _ hc h => ⟨h.1, dressed_of_strip c hc _ h.2⟩) hdefault (by simp))

theorem dressedParameters_of_strip {n : Node} (trimmed : n.Trimmed)
    (h : PrintableParameters true n.strip) : DressedParameters n := by
  generalize hn : n.strip = m at h
  obtain ⟨kind, span⟩ := n
  cases h with
  | arguments hargs hvararg hkwonlyargs hkwarg =>
      rw [strip_eq] at hn
      cases kind <;> cases hn
      have lift : ∀ defaults c, c.Trimmed → PrintableParameter true defaults c.strip →
          DressedParameter defaults c := fun _ _ => dressedParameter_of_strip
      exact .arguments (trimmed.entries (fun c _ => lift _ c) hargs (by simp))
        (trimmed.optional (fun c _ => lift _ c) hvararg (by simp))
        (trimmed.entries (fun c _ => lift _ c) hkwonlyargs (by simp))
        (trimmed.optional (fun c _ => lift _ c) hkwarg (by simp))
        (trimmed.remarks_append (by simp))

/-- A statement is dressed when what stripping leaves of it is printable. -/
theorem dressedStatement_of_strip (n : Node) (trimmed : n.Trimmed)
    (h : PrintableStatement true n.strip) : DressedStatement n := by
  induction n with
  | step n ih =>
    obtain ⟨kind, span⟩ := n
    have lift : ∀ part, ∀ c ∈ (Node.mk kind span).children, c.Trimmed →
        Printable true part c.strip → Dressed part c := fun part c _ hc => dressed_of_strip c hc part
    rw [strip_eq] at h
    cases kind <;>
      simp only [Kind.withContents, Kind.contents, Kind.fields, Field.dropTrivia, Field.isSequence,
        Field.sequence, Field.operandSequence, Field.one, List.map_cons, List.map_nil,
        List.zipWith_cons_cons, List.zipWith_nil_right, decide_true, if_true] at h <;>
      cases h
    case functionDef.functionDef name args body hname hargs hne hbody =>
      exact .functionDef hname
        (trimmed.one (fun c _ hc => dressedParameters_of_strip hc) hargs (by simp))
        (code_ne_nil (hne rfl)) (trimmed.entries ih hbody (by simp)) (trimmed.remarks (by simp))
    case returnStmt.returnStmt value hvalue =>
      exact .returnStmt (trimmed.optional (lift _) hvalue (by simp))
    case assign.assign targets value hne htargets hvalue =>
      have hentry : (Field.operandSequence "targets", targets) ∈ (Kind.assign targets value).entries :=
        List.mem_cons_self
      have hcode : code targets = targets := trimmed.code_eq hentry rfl
      have hdressed := trimmed.entries (lift _) htargets (by simp)
      exact .assign (hcode ▸ code_ne_nil hne) (hcode ▸ hdressed)
        (trimmed.one (lift _) hvalue (by simp))
    case augAssign.augAssign target op value htarget hvalue =>
      exact .augAssign (trimmed.one (lift _) htarget (by simp))
        (trimmed.one (lift _) hvalue (by simp))
    case forLoop.forLoop target iter body orelse htarget hiter hne hbody horelse =>
      exact .forLoop (trimmed.one (lift _) htarget.1 (by simp))
        (strength_strip target ▸ htarget.2 rfl) (trimmed.one (lift _) hiter (by simp))
        (code_ne_nil (hne rfl)) (trimmed.entries ih hbody (by simp))
        (trimmed.entries ih horelse (by simp)) (trimmed.remarks_append (by simp))
    case whileLoop.whileLoop test body orelse htest hne hbody horelse =>
      exact .whileLoop (trimmed.one (lift _) htest (by simp)) (code_ne_nil (hne rfl))
        (trimmed.entries ih hbody (by simp)) (trimmed.entries ih horelse (by simp))
        (trimmed.remarks_append (by simp))
    case ifStmt.ifStmt test body orelse htest hne hbody horelse =>
      exact .ifStmt (trimmed.one (lift _) htest (by simp)) (code_ne_nil (hne rfl))
        (trimmed.entries ih hbody (by simp)) (trimmed.entries ih horelse (by simp))
        (trimmed.remarks_append (by simp))
    case exprStmt.exprStmt value hvalue =>
      exact .exprStmt (trimmed.one (lift _) hvalue (by simp))
    all_goals constructor

/-- A module is dressed when what stripping leaves of it is printable. -/
theorem dressedModule_of_strip {n : Node} (trimmed : n.Trimmed)
    (h : PrintableModule true n.strip) : DressedModule n := by
  generalize hn : n.strip = m at h
  obtain ⟨kind, span⟩ := n
  cases h with
  | module hbody =>
      rw [strip_eq] at hn
      cases kind <;> cases hn
      exact .module (trimmed.entries (fun c _ hc => dressedStatement_of_strip c hc) hbody (by simp))
        (trimmed.remarks (by simp))

end TriviaTree
