import TriviaTree.Tree.Walk

/-!
A tree as one line of text that shows all of its structure.

Two trees are taken for the same code when their dumps agree. Spans are shown only on demand, and
trivia can be left out; the marker of a directive is never shown.
-/

set_option autoImplicit false

namespace TriviaTree

/-- What a dump shows beside the code. -/
structure DumpStyle where
  trivia : Bool
  spans : Bool
deriving DecidableEq, Repr

namespace DumpStyle

/-- Trivia, no spans. -/
def standard : DumpStyle := ⟨true, false⟩

/-- The code alone. -/
def codeOnly : DumpStyle := ⟨false, false⟩

end DumpStyle

def commaList (items : List String) : String :=
  String.intercalate ", " items

def Constant.dump : Constant → String
  | .int text => text
  | .float text => text
  | .str value => Text.quote value
  | .bool true => "True"
  | .bool false => "False"
  | .nothing => "None"

def HeaderForm.dump : HeaderForm → String
  | .angle => "angle"
  | .quoted => "quoted"
  | .bare => "bare"

/-- A payload whose expressions are already written out. -/
def Payload.dump : Payload String → String
  | .empty => "Empty"
  | .expression value => "Expression(" ++ value ++ ")"
  | .symbol name => "Symbol(" ++ Text.quote name ++ ")"
  | .definition name (some value) => "Definition(" ++ Text.quote name ++ ", " ++ value ++ ")"
  | .definition name none => "Definition(" ++ Text.quote name ++ ")"
  | .header path form => "Header(" ++ Text.quote path ++ ", " ++ form.dump ++ ")"
  | .clauses list => "Clauses(" ++ Text.quoteList (list.map Clause.text) ++ ")"
  | .raw text => "Raw(" ++ Text.quote text ++ ")"

/-- The attributes of a node, which are all that is in it beside its children. `payload` is the
written payload of a directive. -/
def Kind.attributes {α : Type} (payload : String) : Kind α → List String
  | .functionDef id _ _ => ["name=" ++ Text.quote id]
  | .augAssign _ op _ => ["op=" ++ op.name]
  | .binOp _ op _ => ["op=" ++ op.name]
  | .boolOp op _ => ["op=" ++ op.name]
  | .unaryOp op _ => ["op=" ++ op.name]
  | .compare _ ops _ => ["ops=[" ++ commaList (ops.map CompareOp.name) ++ "]"]
  | .attribute _ attr => ["attr=" ++ Text.quote attr]
  | .name id => ["id=" ++ Text.quote id]
  | .constant value => ["value=" ++ value.dump]
  | .arg id _ => ["name=" ++ Text.quote id]
  | .keyword (some id) _ => ["arg=Some(" ++ Text.quote id ++ ")"]
  | .keyword none _ => ["arg=None"]
  | .comment c =>
      ["payload=" ++ Text.quote c.payload, "eol=" ++ (if c.endOfLine then "true" else "false")]
  | .directive d => ["prefix=" ++ Text.quoteList d.keywords, "payload=" ++ payload]
  | _ => []

/-- A field with its children written out; each child goes with whether it is trivia. -/
def Field.dump (style : DumpStyle) (field : Field) (children : List (Bool × String)) : String :=
  field.name ++ "=" ++
    match field.shape with
    | .sequence =>
        let shown := children.filter fun child => style.trivia || !child.1
        "[" ++ commaList (shown.map (·.2)) ++ "]"
    | _ => (children.head?.map (·.2)).getD "None"

namespace Node

def spanSuffix (style : DumpStyle) (n : Node) : String :=
  match style.spans, n.span with
  | true, some span => "@" ++ span.text
  | _, _ => ""

/-- The dump of a tree. Payloads show their code only. -/
def dump (n : Node) (style : DumpStyle) : String :=
  let payload := n.kind.payload.mapMem fun e _ => e.dump .codeOnly
  let children := n.kind.contents.attach.map fun ⟨cs, _⟩ =>
    cs.attach.map fun ⟨c, _⟩ => (c.isTrivia, c.dump style)
  n.label ++ n.spanSuffix style ++ "(" ++
    commaList (n.kind.attributes payload.dump ++
      List.zipWith (Field.dump style) n.kind.fields children) ++ ")"
termination_by sizeOf n
decreasing_by
  · exact sizeOf_lt_of_mem_payload ‹_›
  · exact sizeOf_lt_of_mem_contents ‹_› ‹_›

end Node

end TriviaTree
