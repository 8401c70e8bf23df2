import TriviaTree.Json.Value
import TriviaTree.Placement.Plan
import TriviaTree.Tree.Walk

/-!
Trees and splicing events as JSON.

A node is an object with its kind and, if it has one, its span. A kind is an object with the name
of the kind as its one key, or that name alone when nothing is in it.
-/

set_option autoImplicit false

namespace TriviaTree

def Location.toJson (a : Location) : Json :=
  .obj [("line", .nat a.line), ("column", .nat a.column)]

def Span.toJson (a : Span) : Json :=
  .obj [("start", a.start.toJson), ("end", a.stop.toJson)]

def Constant.toJson : Constant → Json
  | .int text => .obj [("Int", .str text)]
  | .float text => .obj [("Float", .str text)]
  | .str value => .obj [("Str", .str value)]
  | .bool true => .str "True"
  | .bool false => .str "False"
  | .nothing => .str "None"

def HeaderForm.toJson : HeaderForm → Json
  | .angle => .str "Angle"
  | .quoted => .str "Quoted"
  | .bare => .str "Bare"

def Clause.toJson (clause : Clause) : Json :=
  .obj [("name", .str clause.name), ("arguments", .orNull (clause.arguments.map .str))]

/-- A payload whose expressions are already encoded. -/
def Payload.toJson : Payload Json → Json
  | .empty => .str "Empty"
  | .expression value => .obj [("Expression", value)]
  | .symbol name => .obj [("Symbol", .str name)]
  | .definition name value =>
      .obj [("Definition", .obj [("name", .str name), ("value", .orNull value)])]
  | .header path form =>
      .obj [("Header", .obj [("path", .str path), ("form", form.toJson)])]
  | .clauses list => .obj [("Clauses", .arr (list.map Clause.toJson))]
  | .raw text => .obj [("Raw", .str text)]

def Comment.members (c : Comment) : List (String × Json) :=
  [("payload", .str c.payload), ("end_of_line", .bool c.endOfLine)]

def Directive.members {α : Type} (d : Directive α) (payload : Json) : List (String × Json) :=
  [("family", .str d.family.shortName),
   ("prefix", .arr (d.keywords.map .str)),
   ("payload", payload),
   ("marker", .obj [("padded", .bool d.marker.padded), ("colon", .bool d.marker.colon)])]

namespace Kind

variable {α : Type}

/-- The name a kind has as a key; all directives share one. -/
def jsonName : Kind α → String
  | .directive _ => "Directive"
  | k => k.label

/-- The attributes of a kind, and the number of fields that come before them. `payload` is the
encoded payload of a directive. -/
def jsonAttributes (payload : Json) : Kind α → Nat × List (String × Json)
  | .functionDef id _ _ => (0, [("name", .str id)])
  | .augAssign _ op _ => (1, [("op", .str op.name)])
  | .boolOp op _ => (0, [("op", .str op.name)])
  | .binOp _ op _ => (1, [("op", .str op.name)])
  | .unaryOp op _ => (0, [("op", .str op.name)])
  | .compare _ ops _ => (1, [("ops", .arr (ops.map fun op => .str op.name))])
  | .attribute _ attr => (1, [("attr", .str attr)])
  | .name id => (0, [("id", .str id)])
  | .constant value => (0, [("value", value.toJson)])
  | .arg id _ => (0, [("name", .str id)])
  | .keyword id _ => (0, [("arg", .orNull (id.map .str))])
  | .comment c => (0, c.members)
  | .directive d => (0, d.members payload)
  | _ => (0, [])

/-- One layer of a tree, from its encoded payload and children. -/
def toJson (k : Kind α) (payload : Json) (children : List (List Json)) : Json :=
  let fields := List.zipWith (fun (field : Field) (children : List Json) =>
    match field.shape with
    | .sequence => (field.name, .arr children)
    | _ => (field.name, .orNull children.head?)) k.fields children
  let (before, attributes) := k.jsonAttributes payload
  match fields.take before ++ attributes ++ fields.drop before with
  | [] => .str k.jsonName
  | members => .obj [(k.jsonName, .obj members)]

end Kind

/-- A tree as JSON. -/
def Node.toJson (n : Node) : Json :=
  let payload := (n.kind.payload.mapMem fun e _ => e.toJson).toJson
  let children := n.kind.contents.attach.map fun ⟨cs, _⟩ => cs.attach.map fun ⟨c, _⟩ => c.toJson
  .obj (("kind", n.kind.toJson payload children) ::
    (n.span.map fun span => ("scope", span.toJson)).toList)
termination_by sizeOf n
decreasing_by
  · exact sizeOf_lt_of_mem_payload ‹_›
  · exact sizeOf_lt_of_mem_contents ‹_› ‹_›

def Trivia.toJson : Trivia → Json
  | .comment c => .obj [("Comment", .obj c.members)]
  | .directive d => .obj [("Directive", .obj (d.members (d.payload.mapMem fun e _ => e.toJson).toJson))]

/-- What happened, where, and how it turned out. -/
def SpliceEvent.toJson : SpliceEvent → Json
  | .classified span label =>
      .obj [("event", .str "classified"), ("scope", span.toJson), ("kind", .str label)]
  | .anchored span owner field index =>
      .obj [("event", .str "anchored"), ("scope", span.toJson), ("owner", .str owner),
        ("field", .str field), ("index", .nat index)]
  | .inserted span label endOfLine =>
      .obj [("event", .str "inserted"), ("scope", span.toJson), ("kind", .str label),
        ("end_of_line", .bool endOfLine)]

end TriviaTree
