import TriviaTree.Tree.Node

/-!
The fields of a node: named places for children.

`Kind.fields` lists the fields of a kind, `Kind.contents` the children in each, in the same
order, and `Kind.withContents` puts other children there. What works on children in general goes
through these three; only they know the kinds one by one. A field that holds exactly one child
has a list of one as its content, an absent child is the empty list.

`Kind.slots` names the place of each child, `Kind.child?` and `Kind.setChild` read and replace a
child by place, `Kind.insertChild` makes room for a new one.
-/

set_option autoImplicit false

namespace TriviaTree

/-- How many children a field holds. -/
inductive Shape where
  | one
  | optional
  | sequence
deriving DecidableEq, Repr

/-- A field of a kind. Operands and targets are sequences whose places mean something to the
code, so no trivia may come between them. -/
structure Field where
  name : String
  shape : Shape
  operands : Bool
deriving DecidableEq, Repr

namespace Field

def one (name : String) : Field := ⟨name, .one, false⟩

def optional (name : String) : Field := ⟨name, .optional, false⟩

def sequence (name : String) : Field := ⟨name, .sequence, false⟩

def operandSequence (name : String) : Field := ⟨name, .sequence, true⟩

def isSequence (field : Field) : Bool :=
  field.shape = .sequence

/-- Trivia may be put into the field. -/
def acceptsTrivia (field : Field) : Bool :=
  field.isSequence && !field.operands

end Field

/-- A field, and the place in it when it is a sequence. -/
structure Slot where
  field : Field
  index : Option Nat
deriving DecidableEq, Repr

namespace Kind

variable {α : Type}

/-- The fields of a kind, in the order in which trees are walked. -/
def fields : Kind α → List Field
  | .module .. => [.sequence "body"]
  | .functionDef .. => [.one "args", .sequence "body"]
  | .returnStmt .. => [.optional "value"]
  | .assign .. => [.operandSequence "targets", .one "value"]
  | .augAssign .. => [.one "target", .one "value"]
  | .forLoop .. => [.one "target", .one "iter", .sequence "body", .sequence "orelse"]
  | .whileLoop .. => [.one "test", .sequence "body", .sequence "orelse"]
  | .ifStmt .. => [.one "test", .sequence "body", .sequence "orelse"]
  | .exprStmt .. => [.one "value"]
  | .pass => []
  | .breakStmt => []
  | .continueStmt => []
  | .boolOp .. => [.operandSequence "values"]
  | .binOp .. => [.one "left", .one "right"]
  | .unaryOp .. => [.one "operand"]
  | .compare .. => [.one "left", .operandSequence "comparators"]
  | .ifExp .. => [.one "test", .one "body", .one "orelse"]
  | .call .. => [.one "func", .sequence "args", .sequence "keywords"]
  | .attribute .. => [.one "value"]
  | .subscript .. => [.one "value", .one "slice"]
  | .slice .. => [.optional "lower", .optional "upper", .optional "step"]
  | .starred .. => [.one "value"]
  | .name .. => []
  | .constant .. => []
  | .list .. => [.sequence "elts"]
  | .tuple .. => [.sequence "elts"]
  | .set .. => [.sequence "elts"]
  | .dict .. => [.sequence "keys", .sequence "values"]
  | .arguments .. =>
      [.sequence "args", .optional "vararg", .sequence "kwonlyargs", .optional "kwarg"]
  | .arg .. => [.optional "default"]
  | .keyword .. => [.one "value"]
  | .comment .. => []
  | .directive .. => []

/-- The children in each field. -/
def contents : Kind α → List (List α)
  | .module body => [body]
  | .functionDef _ args body => [[args], body]
  | .returnStmt value => [value.toList]
  | .assign targets value => [targets, [value]]
  | .augAssign target _ value => [[target], [value]]
  | .forLoop target iter body orelse => [[target], [iter], body, orelse]
  | .whileLoop test body orelse => [[test], body, orelse]
  | .ifStmt test body orelse => [[test], body, orelse]
  | .exprStmt value => [[value]]
  | .pass => []
  | .breakStmt => []
  | .continueStmt => []
  | .boolOp _ values => [values]
  | .binOp left _ right => [[left], [right]]
  | .unaryOp _ operand => [[operand]]
  | .compare left _ comparators => [[left], comparators]
  | .ifExp test body orelse => [[test], [body], [orelse]]
  | .call func args keywords => [[func], args, keywords]
  | .attribute value _ => [[value]]
  | .subscript value index => [[value], [index]]
  | .slice lower upper step => [lower.toList, upper.toList, step.toList]
  | .starred value => [[value]]
  | .name _ => []
  | .constant _ => []
  | .list elts => [elts]
  | .tuple elts => [elts]
  | .set elts => [elts]
  | .dict keys values => [keys, values]
  | .arguments args vararg kwonlyargs kwarg =>
      [args, vararg.toList, kwonlyargs, kwarg.toList]
  | .arg _ default => [default.toList]
  | .keyword _ value => [[value]]
  | .comment _ => []
  | .directive _ => []

/-- The same kind and attributes with other children. Contents that do not fit the fields change
nothing. -/
def withContents (k : Kind α) (contents : List (List α)) : Kind α :=
  match k with
  | .module _ => match contents with
    | [body] => .module body
    | _ => k
  | .functionDef id _ _ => match contents with
    | [[args], body] => .functionDef id args body
    | _ => k
  | .returnStmt _ => match contents with
    | [value] => .returnStmt value.head?
    | _ => k
  | .assign _ _ => match contents with
    | [targets, [value]] => .assign targets value
    | _ => k
  | .augAssign _ op _ => match contents with
    | [[target], [value]] => .augAssign target op value
    | _ => k
  | .forLoop _ _ _ _ => match contents with
    | [[target], [iter], body, orelse] => .forLoop target iter body orelse
    | _ => k
  | .whileLoop _ _ _ => match contents with
    | [[test], body, orelse] => .whileLoop test body orelse
    | _ => k
  | .ifStmt _ _ _ => match contents with
    | [[test], body, orelse] => .ifStmt test body orelse
    | _ => k
  | .exprStmt _ => match contents with
    | [[value]] => .exprStmt value
    | _ => k
  | .boolOp op _ => match contents with
    | [values] => .boolOp op values
    | _ => k
  | .binOp _ op _ => match contents with
    | [[left], [right]] => .binOp left op right
    | _ => k
  | .unaryOp op _ => match contents with
    | [[operand]] => .unaryOp op operand
    | _ => k
  | .compare _ ops _ => match contents with
    | [[left], comparators] => .compare left ops comparators
    | _ => k
  | .ifExp _ _ _ => match contents with
    | [[test], [body], [orelse]] => .ifExp test body orelse
    | _ => k
  | .call _ _ _ => match contents with
    | [[func], args, keywords] => .call func args keywords
    | _ => k
  | .attribute _ attr => match contents with
    | [[value]] => .attribute value attr
    | _ => k
  | .subscript _ _ => match contents with
    | [[value], [index]] => .subscript value index
    | _ => k
  | .slice _ _ _ => match contents with
    | [lower, upper, step] => .slice lower.head? upper.head? step.head?
    | _ => k
  | .starred _ => match contents with
    | [[value]] => .starred value
    | _ => k
  | .list _ => match contents with
    | [elts] => .list elts
    | _ => k
  | .tuple _ => match contents with
    | [elts] => .tuple elts
    | _ => k
  | .set _ => match contents with
    | [elts] => .set elts
    | _ => k
  | .dict _ _ => match contents with
    | [keys, values] => .dict keys values
    | _ => k
  | .arguments _ _ _ _ => match contents with
    | [args, vararg, kwonlyargs, kwarg] =>
        .arguments args vararg.head? kwonlyargs kwarg.head?
    | _ => k
  | .arg id _ => match contents with
    | [default] => .arg id default.head?
    | _ => k
  | .keyword id _ => match contents with
    | [[value]] => .keyword id value
    | _ => k
  | .pass | .breakStmt | .continueStmt | .name _ | .constant _ | .comment _ | .directive _ => k

theorem length_contents (k : Kind α) : k.contents.length = k.fields.length := by
  cases k <;> rfl

theorem withContents_contents (k : Kind α) : k.withContents k.contents = k := by
  cases k <;> simp [contents, withContents]

/-- Putting children elsewhere changes neither the fields nor what trivia is. -/
theorem fields_withContents (k : Kind α) (cs : List (List α)) :
    (k.withContents cs).fields = k.fields := by
  cases k <;> simp only [withContents] <;> (try split) <;> rfl

theorem isTrivia_withContents (k : Kind α) (cs : List (List α)) :
    (k.withContents cs).isTrivia = k.isTrivia := by
  cases k <;> simp only [withContents] <;> (try split) <;> rfl

theorem label_withContents (k : Kind α) (cs : List (List α)) :
    (k.withContents cs).label = k.label := by
  cases k <;> simp only [withContents] <;> (try split) <;> rfl

/-- All children, field by field. -/
def children (k : Kind α) : List α :=
  k.contents.flatten

/-- The fields with their contents. -/
def entries (k : Kind α) : List (Field × List α) :=
  k.fields.zip k.contents

/-- The children of one field, each with its slot. -/
def slotsOf (field : Field) (children : List α) : List (Slot × α) :=
  if field.isSequence then children.mapIdx fun i child => (⟨field, some i⟩, child)
  else children.map fun child => (⟨field, none⟩, child)

/-- All children, each with its slot. -/
def slots (k : Kind α) : List (Slot × α) :=
  k.entries.flatMap fun (field, children) => slotsOf field children

theorem map_snd_slotsOf (field : Field) (children : List α) :
    (slotsOf field children).map (·.2) = children := by
  unfold slotsOf
  split <;> simp [List.mapIdx_eq_zipIdx_map, Function.comp_def]

theorem mem_children_of_mem_slots {k : Kind α} {slot : Slot} {c : α} (h : (slot, c) ∈ k.slots) :
    c ∈ k.children := by
  obtain ⟨⟨field, children⟩, hentry, hc⟩ := List.mem_flatMap.1 h
  refine List.mem_flatten.2 ⟨children, (List.of_mem_zip hentry).2, ?_⟩
  rw [← map_snd_slotsOf field children]
  exact List.mem_map_of_mem hc

/-- The place of a field among the fields of the kind. -/
def fieldIndex? (k : Kind α) (name : String) : Option Nat :=
  k.fields.findIdx? (·.name = name)

/-- The field called `name` and its children. -/
def fieldNamed? (k : Kind α) (name : String) : Option (Field × List α) :=
  k.entries.find? (·.1.name = name)

/-- The child in a slot. -/
def child? (k : Kind α) (name : String) (index : Option Nat) : Option α :=
  match k.fieldNamed? name, index with
  | none, _ => none
  | some (field, children), some i => if field.isSequence then children[i]? else none
  | some (field, children), none => if field.isSequence then none else children.head?

/-- The children of the sequence called `name`. -/
def sequence? (k : Kind α) (name : String) : Option (List α) :=
  match k.fieldNamed? name with
  | some (field, children) => if field.isSequence then some children else none
  | none => none

/-- Change the children of the field called `name`. -/
def modifyField (k : Kind α) (name : String) (change : List α → List α) : Kind α :=
  k.withContents (k.entries.map fun (field, children) =>
    if field.name = name then change children else children)

/-- Replace the child in a slot; an empty slot stays empty. -/
def setChild (k : Kind α) (name : String) (index : Option Nat) (child : α) : Kind α :=
  if (k.child? name index).isSome then
    k.modifyField name fun children =>
      match index with
      | some i => children.set i child
      | none => [child]
  else k

/-- Insert a child into the sequence called `name`, right before place `i`. -/
def insertChild (k : Kind α) (name : String) (i : Nat) (child : α) : Kind α :=
  k.modifyField name fun children => children.insertIdx i child

/-- What a directive says; the payload of any other kind is empty. -/
def payload : Kind α → Payload α
  | .directive d => d.payload
  | _ => .empty

/-- Let a directive say something else. -/
def withPayload : Kind α → Payload α → Kind α
  | .directive d, payload => .directive { d with payload := payload }
  | k, _ => k

/-- The first field that trivia may be put into. -/
def triviaField? (k : Kind α) : Option Field :=
  k.fields.find? (·.acceptsTrivia)

theorem sizeOf_lt_of_mem_list {c : Node} {cs : List Node} (h : c ∈ cs) :
    sizeOf c < 1 + sizeOf cs := by
  have := List.sizeOf_lt_of_mem h
  omega

theorem sizeOf_lt_of_mem_option {c : Node} {o : Option Node} (h : c ∈ o.toList) :
    sizeOf c < 1 + sizeOf o := by
  cases o with
  | none => simp at h
  | some d =>
      obtain rfl : c = d := by simpa using h
      simp
      omega

theorem sizeOf_lt_of_mem_one {c d : Node} (h : c ∈ [d]) : sizeOf c < 1 + sizeOf d := by
  obtain rfl : c = d := by simpa using h
  omega

/-- A child is smaller than the layer it hangs from. -/
theorem sizeOf_lt_of_mem_contents {k : Kind Node} {cs : List Node} {c : Node}
    (hcs : cs ∈ k.contents) (hc : c ∈ cs) : sizeOf c < sizeOf k := by
  cases k <;>
    simp only [contents, List.mem_cons, List.not_mem_nil, or_false] at hcs <;>
    (try rcases hcs with rfl | hcs) <;> (try rcases hcs with rfl | hcs) <;>
    (try rcases hcs with rfl | hcs) <;> (try subst hcs) <;>
    first
    | (have h := sizeOf_lt_of_mem_one hc; simp; omega)
    | (have h := sizeOf_lt_of_mem_option hc; simp; omega)
    | (have h := sizeOf_lt_of_mem_list hc; simp; omega)

end Kind

namespace Node

def children (n : Node) : List Node := n.kind.children

theorem sizeOf_lt_of_mem_contents {n c : Node} {cs : List Node} (hcs : cs ∈ n.kind.contents)
    (hc : c ∈ cs) : sizeOf c < sizeOf n := by
  have := Kind.sizeOf_lt_of_mem_contents hcs hc
  obtain ⟨kind, span⟩ := n
  simp only [Node.mk.sizeOf_spec] at *
  omega

theorem sizeOf_lt_of_mem_children {n c : Node} (h : c ∈ n.children) : sizeOf c < sizeOf n := by
  obtain ⟨cs, hcs, hc⟩ := List.mem_flatten.1 h
  exact sizeOf_lt_of_mem_contents hcs hc

theorem sizeOf_lt_of_mem_payload {n e : Node} (h : e ∈ n.kind.payload.expressions) :
    sizeOf e < sizeOf n := by
  obtain ⟨kind, span⟩ := n
  cases kind
  case directive d =>
    obtain ⟨family, keywords, payload, marker⟩ := d
    cases payload <;> simp [Kind.payload, Payload.expressions] at h
    · subst h
      simp
      omega
    · subst h
      simp
      omega
  all_goals simp [Kind.payload, Payload.expressions] at h

/-- Trees are well-founded: what holds of a node when it holds of its children holds of every
node. -/
@[induction_eliminator]
theorem induction {P : Node → Prop} (step : ∀ n : Node, (∀ c ∈ n.children, P c) → P n)
    (n : Node) : P n :=
  step n fun c _ => induction step c
termination_by sizeOf n
decreasing_by exact sizeOf_lt_of_mem_children ‹_›

/-- The child reached by a path of slot names. -/
def descend? (n : Node) : List (String × Option Nat) → Option Node
  | [] => some n
  | (name, index) :: path =>
      match n.kind.child? name index with
      | none => none
      | some child => child.descend? path

end Node

end TriviaTree
