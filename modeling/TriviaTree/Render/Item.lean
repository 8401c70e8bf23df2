import TriviaTree.Render.Page
import TriviaTree.Text.Literal
import TriviaTree.Tree.Node

/-!
The pieces that a rendering is put together from.

An `Action` writes something on a page. An `Item` is one entry of a list with commas and knows
whether it is trivia; `writeItems` puts the commas, `writeTuple` and `dictItems` deal with the
brackets' own rules. Trivia between brackets end their line, so what follows starts a new one.
-/

set_option autoImplicit false

namespace TriviaTree

abbrev Action := Page → Page

namespace Action

def skip : Action := id

/-- One after the other. -/
def all (actions : List Action) : Action := fun page =>
  actions.foldl (fun page action => action page) page

def text (s : String) : Action := (·.write s)

def fill (s : String) : Action := (·.fill s)

/-- Between parentheses, when they are needed. -/
def parens (needed : Bool) (action : Action) : Action :=
  if needed then all [text "(", action, text ")"] else action

/-- One level deeper. -/
def indented (action : Action) : Action := fun page =>
  (action page.indent).dedent

/-- With a fixed text between each two. -/
def separated (separator : String) : List Action → Action
  | [] => skip
  | [action] => action
  | action :: rest => all [action, text separator, separated separator rest]

end Action

/-- How much of a tree is written: the code alone, or its trivia too. -/
inductive Detail where
  | code
  | trivia
deriving DecidableEq, Repr

/-- An entry of a list with commas. -/
structure Item where
  isTrivia : Bool
  write : Action

/-- The entries that are written. -/
def Detail.visible (detail : Detail) (items : List Item) : List Item :=
  match detail with
  | .code => items.filter (!·.isTrivia)
  | .trivia => items

/-- Entries with commas between them. Trivia take no comma: they end their line. -/
def joinItems : List Item → Action
  | [] => .skip
  | [item] => item.write
  | item :: rest =>
      .all [item.write, if item.isTrivia then .skip else .text ", ", joinItems rest]

def writeItems (detail : Detail) (items : List Item) : Action :=
  joinItems (detail.visible items)

/-- A tuple with one entry has a comma after it; trivia after the entry have one before them
already. -/
def writeTuple (detail : Detail) (parenthesize : Bool) (items : List Item) : Action :=
  let shown := detail.visible items
  let single := shown.countP (!·.isTrivia) = 1 && shown.getLast?.any (!·.isTrivia)
  .parens parenthesize (.all [joinItems shown, if single then .text "," else .skip])

/-- Each entry that is no trivia with the trivia right before it, and the trivia at the end. -/
def groupTrivia : List Item → List Item → List (List Item × Item) × List Item
  | pending, [] => ([], pending)
  | pending, item :: rest =>
      if item.isTrivia then groupTrivia (pending ++ [item]) rest
      else
        let (groups, tail) := groupTrivia [] rest
        ((pending, item) :: groups, tail)

/-- The entries of a dictionary: pairs of a key and a value with the trivia around them. Trivia
before a value come between the colon and the value. -/
def dictItems (detail : Detail) (keys values : List Item) : List Item :=
  let (keyGroups, keyTail) := groupTrivia [] (detail.visible keys)
  let (valueGroups, valueTail) := groupTrivia [] (detail.visible values)
  let pairs := (keyGroups.zip valueGroups).flatMap fun ((keyTrivia, key), (valueTrivia, value)) =>
    keyTrivia ++
      [⟨false, .all ([key.write, .text ": "] ++ valueTrivia.map (·.write) ++ [value.write])⟩]
  pairs ++ keyTail ++ valueTail

/-- The text of a comment. -/
def Comment.line (c : Comment) : String :=
  "#" ++ c.payload

/-- The text of a literal. -/
def Constant.source : Constant → String
  | .int text => text
  | .float text => text
  | .str value => Text.quoteString value
  | .bool true => "True"
  | .bool false => "False"
  | .nothing => "None"

/-- A comment among statements. -/
def writeComment (c : Comment) : Action := fun page =>
  if c.endOfLine then page.writePadded c.line else page.fill c.line

/-- Trivia between brackets: at the end of the line or on a line of its own, and then a new line.
On a fresh line it stays where it is. -/
def writeBracketed (endOfLine : Bool) (write : Action) : Action := fun page =>
  let fresh := page.atLineStart
  let page := if fresh then page else page.trimTrailingSpaces
  let page :=
    if fresh then page
    else if endOfLine then { page with written := Page.spaces page.options.eolPadding ++ page.written }
    else page.continuation
  (write page).continuation

/-- The line of a directive, from its `#` on; the expressions of its payload are written by
`payload`. -/
def writeDirective {α : Type} (d : Directive α) (payload : Payload Action) : Action :=
  let marker := if d.marker.colon then ":" else ""
  let keywords : List Action := match d.keywords with
    | [] => [.text marker]
    | first :: rest => .text (first ++ marker) :: rest.map fun word => .text (" " ++ word)
  let body : List Action := match payload with
    | .empty => []
    | .expression value => [.text " ", value]
    | .symbol name => [.text (" " ++ name)]
    | .definition name none => [.text (" " ++ name)]
    | .definition name (some value) => [.text (" " ++ name ++ " "), value]
    | .header path .angle => [.text (" <" ++ path ++ ">")]
    | .header path .quoted => [.text (" \"" ++ path ++ "\"")]
    | .header path .bare => [.text (" " ++ path)]
    | .clauses list => list.map fun clause => .text (" " ++ clause.text)
    | .raw text => [.text (" " ++ text)]
  .all ([.text (if d.marker.padded then "# " else "#")] ++ keywords ++ body)

end TriviaTree
