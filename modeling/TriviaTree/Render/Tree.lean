import TriviaTree.Render.Item

/-!
A tree as source text.

`render` writes a node at a place: as a statement on a line, as an `elif` that continues a line
of conditions, or as an expression inside another, of a strength that decides on parentheses.
`Node.source` is the text of a whole tree, with its trivia or without.

Trivia among statements have lines of their own or follow the line before; comments at the end of
a block that belong to the code before an `else` are written before it.
-/

set_option autoImplicit false

namespace TriviaTree

/-- Where a node is written. -/
inductive Place where
  | line
  /-- In the place of an `else`: conditions start with `elif`. -/
  | elif
  /-- Inside an expression that binds this strongly. -/
  | inline (strength : Precedence)
deriving DecidableEq, Repr

/-- Expressions on a line of their own may be of any strength. -/
def Place.strength : Place → Precedence
  | .inline strength => strength
  | _ => .tuple

def Place.isInline : Place → Bool
  | .inline _ => true
  | _ => false

/-- A child, ready to be written at any place. -/
structure Child where
  node : Node
  write : Place → Action

namespace Child

def isTrivia (c : Child) : Bool := c.node.isTrivia

def isIf (c : Child) : Bool :=
  match c.node.kind with
  | .ifStmt .. => true
  | _ => false

def inline (strength : Precedence) (c : Child) : Action :=
  c.write (.inline strength)

/-- As an entry of a list with commas. -/
def item (c : Child) : Item :=
  ⟨c.isTrivia, c.inline .test⟩

end Child

def items (children : List Child) : List Item :=
  children.map Child.item

/-- The children that are code. -/
def solid (children : List Child) : List Child :=
  children.filter (!·.isTrivia)

/-- Statements one level deeper. -/
def writeBlock (body : List Child) : Action :=
  .indented (.all (body.map (·.write .line)))

/-- The number of comments at the start of an `orelse` that end the last line of the block before
it. One that starts on a later line than the block ends belongs to the `else`. -/
def hoisted (detail : Detail) (body orelse : List Child) : Nat :=
  match detail with
  | .code => 0
  | .trivia =>
      let lastLine := (body.reverse.findSome? (·.node.span)).map (·.stop.line)
      let belongs (c : Child) : Bool :=
        let later := match c.node.span, lastLine with
          | some span, some line => line < span.start.line
          | _, _ => false
        c.node.isEndOfLineComment && !later
      (orelse.takeWhile belongs).length

/-- The statement that an `orelse` can be written as an `elif` for: it is alone there. -/
def elifOf? (detail : Detail) (orelse : List Child) : Option Child :=
  let shown := match detail with
    | .code => solid orelse
    | .trivia => orelse
  match shown with
  | [c] => if c.isIf then some c else none
  | _ => none

/-- An `else` with its block. Trivia alone make no block, they follow as statements. -/
def writeElse (orelse : List Child) : Action :=
  if orelse.any (!·.isTrivia) then .all [.fill "else:", writeBlock orelse]
  else .all (orelse.map (·.write .line))

/-- What follows the block of a condition or a loop. -/
def writeOrelse (detail : Detail) (conditions : Bool) (body orelse : List Child) : Action :=
  let count := hoisted detail body orelse
  let rest := orelse.drop count
  let tail := match if conditions then elifOf? detail rest else none with
    | some c => c.write .elif
    | none => writeElse rest
  .all ((orelse.take count).map (·.write .line) ++ [tail])

/-- The parameters of a function: a star alone marks that what follows is passed by name. -/
def parameterItems (args : List Child) (vararg : Option Child) (kwonlyargs : List Child)
    (kwarg : Option Child) : List Item :=
  let starred (star : String) (c : Child) : Item :=
    ⟨false, .all [.text star, c.inline .test]⟩
  let star := match vararg with
    | some c => [starred "*" c]
    | none => if kwonlyargs.any (!·.isTrivia) then [⟨false, .text "*"⟩] else []
  items args ++ star ++ items kwonlyargs ++ (kwarg.map (starred "**")).toList

def isIntLiteral (n : Node) : Bool :=
  match n.kind with
  | .constant (.int _) => true
  | _ => false

/-- A comment or directive; with the code alone nothing is written. -/
def writeTrivia (detail : Detail) (place : Place) (endOfLine : Bool) (line statement : Action) :
    Action :=
  match detail with
  | .code => .skip
  | .trivia => if place.isInline then writeBracketed endOfLine line else statement

mutual

/-- Write a node at a place. -/
def render (detail : Detail) (n : Node) (place : Place) : Action :=
  match n with
  | ⟨.module body, _⟩ => .all ((renderAll detail body).map (·.write .line))
  | ⟨.functionDef name args body, _⟩ =>
      .all [.fill "def ", .text name, .text "(", render detail args (.inline .tuple), .text "):",
        writeBlock (renderAll detail body)]
  | ⟨.returnStmt value, _⟩ =>
      match renderOption detail value with
      | none => .fill "return"
      | some c => .all [.fill "return", .text " ", c.inline .tuple]
  | ⟨.assign targets value, _⟩ =>
      .all ([.fill ""] ++
        (solid (renderAll detail targets)).map (fun c => .all [c.inline .tuple, .text " = "]) ++
        [render detail value (.inline .tuple)])
  | ⟨.augAssign target op value, _⟩ =>
      .all [.fill "", render detail target (.inline .tuple), .text (" " ++ op.symbol ++ "= "),
        render detail value (.inline .tuple)]
  | ⟨.forLoop target iter body orelse, _⟩ =>
      let body := renderAll detail body
      .all [.fill "for ", render detail target (.inline .tuple), .text " in ",
        render detail iter (.inline .tuple), .text ":", writeBlock body,
        writeOrelse detail false body (renderAll detail orelse)]
  | ⟨.whileLoop test body orelse, _⟩ =>
      let body := renderAll detail body
      .all [.fill "while ", render detail test (.inline .test), .text ":", writeBlock body,
        writeOrelse detail false body (renderAll detail orelse)]
  | ⟨.ifStmt test body orelse, _⟩ =>
      let body := renderAll detail body
      .all [.fill (if place = .elif then "elif " else "if "), render detail test (.inline .test),
        .text ":", writeBlock body, writeOrelse detail true body (renderAll detail orelse)]
  | ⟨.exprStmt value, _⟩ => .all [.fill "", render detail value (.inline .tuple)]
  | ⟨.pass, _⟩ => .fill "pass"
  | ⟨.breakStmt, _⟩ => .fill "break"
  | ⟨.continueStmt, _⟩ => .fill "continue"
  | ⟨.boolOp op values, _⟩ =>
      .parens (op.precedence < place.strength)
        (.separated (" " ++ op.symbol ++ " ")
          ((solid (renderAll detail values)).map (·.inline op.precedence.next)))
  | ⟨.binOp left op right, _⟩ =>
      let (leftStrength, rightStrength) :=
        if op = .pow then (Precedence.await, Precedence.factor)
        else (op.precedence, op.precedence.next)
      .parens (op.precedence < place.strength)
        (.all [render detail left (.inline leftStrength), .text (" " ++ op.symbol ++ " "),
          render detail right (.inline rightStrength)])
  | ⟨.unaryOp op operand, _⟩ =>
      .parens (op.precedence < place.strength)
        (.all [.text op.symbol, render detail operand (.inline op.precedence)])
  | ⟨.compare left ops comparators, _⟩ =>
      let tail := (ops.zip (solid (renderAll detail comparators))).map fun (op, c) =>
        Action.all [.text (" " ++ op.symbol ++ " "), c.inline Precedence.compare.next]
      .parens (.compare < place.strength)
        (.all (render detail left (.inline Precedence.compare.next) :: tail))
  | ⟨.ifExp test body orelse, _⟩ =>
      .parens (.test < place.strength)
        (.all [render detail body (.inline Precedence.test.next), .text " if ",
          render detail test (.inline Precedence.test.next), .text " else ",
          render detail orelse (.inline .test)])
  | ⟨.call func args keywords, _⟩ =>
      .all [render detail func (.inline .atom), .text "(",
        writeItems detail (items (renderAll detail args) ++ items (renderAll detail keywords)),
        .text ")"]
  | ⟨.attribute value attr, _⟩ =>
      .all [.parens (isIntLiteral value) (render detail value (.inline .atom)), .text ".",
        .text attr]
  | ⟨.subscript value ⟨.tuple elts, _⟩, _⟩ =>
      .all [render detail value (.inline .atom), .text "[",
        writeTuple detail (!elts.any (!·.isTrivia)) (items (renderAll detail elts)), .text "]"]
  | ⟨.subscript value index, _⟩ =>
      .all [render detail value (.inline .atom), .text "[", render detail index (.inline .tuple),
        .text "]"]
  | ⟨.slice lower upper step, _⟩ =>
      let part (c : Option Child) : Action := match c with
        | some c => c.inline .test
        | none => .skip
      .all [part (renderOption detail lower), .text ":", part (renderOption detail upper),
        match renderOption detail step with
        | some c => .all [.text ":", c.inline .test]
        | none => .skip]
  | ⟨.starred value, _⟩ => .all [.text "*", render detail value (.inline .bitOr)]
  | ⟨.name id, _⟩ => .text id
  | ⟨.constant value, _⟩ => .text value.source
  | ⟨.list elts, _⟩ =>
      .all [.text "[", writeItems detail (items (renderAll detail elts)), .text "]"]
  | ⟨.tuple elts, _⟩ => writeTuple detail true (items (renderAll detail elts))
  | ⟨.set elts, _⟩ =>
      .all [.text "\x7b", writeItems detail (items (renderAll detail elts)), .text "\x7d"]
  | ⟨.dict keys values, _⟩ =>
      .all [.text "\x7b",
        joinItems (dictItems detail (items (renderAll detail keys))
          (items (renderAll detail values))), .text "\x7d"]
  | ⟨.arguments args vararg kwonlyargs kwarg, _⟩ =>
      writeItems detail (parameterItems (renderAll detail args) (renderOption detail vararg)
        (renderAll detail kwonlyargs) (renderOption detail kwarg))
  | ⟨.arg name default, _⟩ =>
      match renderOption detail default with
      | none => .text name
      | some c => .all [.text name, .text "=", c.inline .test]
  | ⟨.keyword (some name) value, _⟩ =>
      .all [.text name, .text "=", render detail value (.inline .test)]
  | ⟨.keyword none value, _⟩ => .all [.text "**", render detail value (.inline .bitOr)]
  | ⟨.comment c, _⟩ => writeTrivia detail place c.endOfLine (.text c.line) (writeComment c)
  | ⟨.directive d, _⟩ =>
      let line := writeDirective d (renderPayload d.payload)
      writeTrivia detail place false line (.all [.fill "", line])
termination_by structural n

def renderAll (detail : Detail) (ns : List Node) : List Child :=
  match ns with
  | [] => []
  | n :: ns => ⟨n, render detail n⟩ :: renderAll detail ns
termination_by structural ns

def renderOption (detail : Detail) (n : Option Node) : Option Child :=
  match n with
  | none => none
  | some n => some ⟨n, render detail n⟩
termination_by structural n

/-- The payload of a directive with its expressions ready to be written. -/
def renderPayload (p : Payload Node) : Payload Action :=
  match p with
  | .empty => .empty
  | .expression value => .expression (render .trivia value (.inline .tuple))
  | .symbol name => .symbol name
  | .definition name none => .definition name none
  | .definition name (some value) =>
      .definition name (some (render .trivia value (.inline .tuple)))
  | .header path form => .header path form
  | .clauses list => .clauses list
  | .raw text => .raw text
termination_by structural p

end

/-- The text of a tree. -/
def Node.source (n : Node) (detail : Detail) (options : PageOptions) : String :=
  (render detail n .line (.blank options)).finish

/-- The line of a directive, from its `#` on. -/
def Directive.line (d : Directive Node) (options : PageOptions) : String :=
  String.ofList (writeDirective d (renderPayload d.payload) (.blank options)).written.reverse

end TriviaTree
