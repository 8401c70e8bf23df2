import TriviaTree.Source.Location
import TriviaTree.Text.Classes

/-!
The lines of a source text: byte offsets to locations and back.

Only a line feed starts a new line. `LineIndex.location` is total, since offsets past the end
stand for the end; `LineIndex.offset?` refuses lines that do not exist and offsets past the end
of the text. `textLines` gives the lines themselves.
-/

set_option autoImplicit false

namespace TriviaTree

/-- Where the lines of a text begin, and where the text ends, in bytes. -/
structure LineIndex where
  starts : List Nat
  size : Nat
deriving DecidableEq, Repr

namespace LineIndex

/-- Offsets right after each line feed of `cs`, when `cs` begins at `offset`. -/
def startsFrom (offset : Nat) : List Char → List Nat
  | [] => []
  | c :: cs =>
      let next := offset + c.utf8Size
      if c = '\n' then next :: startsFrom next cs else startsFrom next cs

def ofText (source : String) : LineIndex :=
  { starts := 0 :: startsFrom 0 source.toList
    size := Text.byteSize source.toList }

/-- The number of lines; a text that ends in a line feed has an empty last line. -/
def count (index : LineIndex) : Nat :=
  index.starts.length

/-- The location of a byte offset: the lines begun by then, and the distance to the last of
their starts. -/
def location (index : LineIndex) (offset : Nat) : Location :=
  let offset := min offset index.size
  let begun := index.starts.takeWhile (· ≤ offset)
  ⟨begun.length, offset - begun.getLast?.getD 0⟩

/-- The byte offset `column` bytes into line `line`. -/
def offset? (index : LineIndex) (place : Location) : Option Nat :=
  match place.line with
  | 0 => none
  | line + 1 =>
      match index.starts[line]? with
      | none => none
      | some start =>
          if start + place.column ≤ index.size then some (start + place.column) else none

/-- The span between two byte offsets. -/
def span (index : LineIndex) (start stop : Nat) : Span :=
  ⟨index.location start, index.location stop⟩

end LineIndex

/-- The lines of a text without their ends, which are a line feed and a carriage return right
before it. What follows the last line feed is a line only when it is not empty. -/
def textLines (cs : List Char) : List (List Char) :=
  let pieces := cs.splitOn '\n'
  let whole := pieces.dropLast.map fun piece =>
    if piece.getLast? = some '\r' then piece.dropLast else piece
  whole ++ (pieces.getLast?.filter (· ≠ [])).toList

/-- The text of a line. -/
def lineText? (source : String) (line : Nat) : Option (List Char) :=
  (textLines source.toList)[line - 1]?

end TriviaTree
