import TriviaTree.Report.Paint

/-!
The difference of two texts, line by line.

The lines kept are a longest common subsequence. Between two of them all lines that go come before
all lines that come. Three kept lines are shown around every change, and a longer stretch of them
is cut.
-/

set_option autoImplicit false

namespace TriviaTree

/-- The lines of a text with their ends: a line feed, a carriage return, or both. The first
argument is the line so far, last character first. -/
def linesWithEnds : List Char → List Char → List (List Char)
  | [], [] => []
  | line, [] => [line.reverse]
  | line, '\r' :: '\n' :: cs => ('\n' :: '\r' :: line).reverse :: linesWithEnds [] cs
  | line, c :: cs =>
      if c = '\n' || c = '\r' then (c :: line).reverse :: linesWithEnds [] cs
      else linesWithEnds (c :: line) cs

namespace LineDiff

inductive Change (α : Type) where
  | keep (line : α)
  | delete (line : α)
  | insert (line : α)
deriving DecidableEq, Repr

variable {α : Type} [DecidableEq α]

/-- Lengths of longest common subsequences of `a :: old` with every end of `new`, from those of
`old`. The list for an empty `old` is one longer than `new`, and so is every other. -/
def nextRow (a : α) : List α → List Nat → List Nat
  | b :: new, below :: diagonal :: row =>
      let rest := nextRow a new (diagonal :: row)
      let length := if a = b then diagonal + 1 else max below (rest.head?.getD 0)
      length :: rest
  | _, _ => [0]

/-- A row for every end of `old`, the whole of `old` first. -/
def table (old new : List α) : List (List Nat) :=
  match old with
  | [] => [List.replicate (new.length + 1) 0]
  | a :: old =>
      let rows := table old new
      nextRow a new (rows.head?.getD []) :: rows

/-- A shortest way from one list to the other. Equal heads are always kept; `rows` is the table
of what is left of both. -/
def changes : List α → List α → List (List Nat) → List (Change α)
  | old, [], _ => old.map .delete
  | [], new, _ => new.map .insert
  | a :: old, b :: new, rows =>
      if a = b then .keep a :: changes old new (rows.tail.map List.tail)
      else
        let afterDelete := ((rows.tail.head?).bind List.head?).getD 0
        let afterInsert := ((rows.head?.map List.tail).bind List.head?).getD 0
        if afterInsert ≤ afterDelete then .delete a :: changes old (b :: new) rows.tail
        else .insert b :: changes (a :: old) new (rows.map List.tail)
termination_by old new => old.length + new.length

/-- Kept lines, or lines that go and lines that come. -/
inductive Group (α : Type) where
  | kept (lines : List α)
  | changed (deleted inserted : List α)
deriving DecidableEq, Repr

/-- Put a change before groups. -/
def addChange (change : Change α) (groups : List (Group α)) : List (Group α) :=
  match change, groups with
  | .keep line, .kept lines :: rest => .kept (line :: lines) :: rest
  | .keep line, rest => .kept [line] :: rest
  | .delete line, .changed deleted inserted :: rest => .changed (line :: deleted) inserted :: rest
  | .delete line, rest => .changed [line] [] :: rest
  | .insert line, .changed deleted inserted :: rest => .changed deleted (line :: inserted) :: rest
  | .insert line, rest => .changed [] [line] :: rest

/-- Kept lines and changes in turn. -/
def groups (old new : List α) : List (Group α) :=
  (changes old new (table old new)).foldr addChange []

/-- Kept lines shown before or after a change. -/
def context : Nat := 3

def lastLines (lines : List α) : List α :=
  lines.drop (lines.length - context)

/-- Kept lines between two changes. -/
def between (lines : List α) : List α :=
  if lines.length ≤ 2 * context then lines else lines.take context ++ lastLines lines

/-- The changes after the first change of a difference. -/
def shownAfter : List (Group α) → List (Change α)
  | [] => []
  | [.kept lines] => (lines.take context).map .keep
  | .kept lines :: rest => (between lines).map .keep ++ shownAfter rest
  | .changed deleted inserted :: rest =>
      deleted.map .delete ++ inserted.map .insert ++ shownAfter rest

/-- What is shown of a difference: nothing when there is no change. -/
def shown : List (Group α) → List (Change α)
  | [.kept _] => []
  | .kept lines :: rest => (lastLines lines).map .keep ++ shownAfter rest
  | groups => shownAfter groups

/-- A line without an end gets one. -/
def ended (line : List Char) (painted : String) : String :=
  match line.getLast? with
  | some '\n' => painted
  | some '\r' => painted
  | _ => painted ++ "\n"

def writeChange (paint : Paint) : Change (List Char) → String
  | .keep line => ended line (" " ++ String.ofList line)
  | .delete line => ended line (paint.apply .red ("-" ++ String.ofList line))
  | .insert line => ended line (paint.apply .green ("+" ++ String.ofList line))

end LineDiff

/-- The difference of two texts of the file at `path`. -/
def renderDiff (paint : Paint) (path old new : String) : String :=
  let groups := LineDiff.groups (linesWithEnds [] old.toList) (linesWithEnds [] new.toList)
  paint.apply .red ("--- " ++ path ++ "\n") ++ paint.apply .green ("+++ " ++ path ++ "\n") ++
    String.join ((LineDiff.shown groups).map (LineDiff.writeChange paint))

end TriviaTree
