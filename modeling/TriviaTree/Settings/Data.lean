import TriviaTree.Settings.Basic

/-!
What a settings file says, whatever its format, and the settings it stands for.

A record is written as a table, or as a list of its values in order. Keys that no record knows
are passed over; a known key may occur once. A file whose data do not fit stands for nothing.
-/

set_option autoImplicit false

namespace TriviaTree

inductive Data where
  | null
  | bool (value : Bool)
  | natural (value : Nat)
  /-- Any other number. -/
  | number
  /-- A string literal, and the text it denotes, if it denotes one. -/
  | text (value : Option String)
  | list (items : List Data)
  | table (members : List (Option String × Data))

namespace Data

/-- Where formats differ. -/
structure Dialect where
  /-- A list may hold more values than the record it stands for has. -/
  longLists : Bool
  /-- What may stand beside the name of a family when the two form a table. -/
  isUnit : Data → Bool

/-- The only value of `name` in a table, if there is one; nothing when there are several. -/
def unique? (members : List (Option String × Data)) (name : String) : Option (Option Data) :=
  match members.filter (·.1 = some name) with
  | [] => some none
  | [member] => some (some member.2)
  | _ => none

/-- The values of a record, in the order of its names. -/
def record? (dialect : Dialect) (names : List String) : Data → Option (List (Option Data))
  | .table members =>
      if members.all (·.1.isSome) then names.mapM (unique? members) else none
  | .list items =>
      if items.length = names.length || (dialect.longLists && names.length ≤ items.length) then
        some ((items.take names.length).map some)
      else none
  | _ => none

/-- A value that may be left open. -/
def optional? {α : Type} (decode : Data → Option α) : Option Data → Option (Option α)
  | none => some none
  | some .null => some none
  | some data => (decode data).map some

def bool? : Data → Option Bool
  | .bool value => some value
  | _ => none

def text? : Data → Option String
  | .text value => value
  | _ => none

/-- Sizes have sixty-four bits. -/
def size? : Data → Option Nat
  | .natural value => if value < 1 <<< 64 then some value else none
  | _ => none

def family? (dialect : Dialect) : Data → Option Family
  | .text (some name) => Family.ofShortName? name
  | .table [(some name, beside)] =>
      if dialect.isUnit beside then Family.ofShortName? name else none
  | _ => none

def families? (dialect : Dialect) : Data → Option (List Family)
  | .list items => items.mapM (family? dialect)
  | _ => none

def classifier? (dialect : Dialect) (data : Data) : Option ClassifierSettings := do
  match ← data.record? dialect ["enabled", "families"] with
  | [enabled, families] =>
      return ⟨← optional? bool? enabled, ← optional? (families? dialect) families⟩
  | _ => none

def printer? (dialect : Dialect) (data : Data) : Option PrinterSettings := do
  match ← data.record? dialect ["indentSize", "eolPadding"] with
  | [indentSize, eolPadding] =>
      return ⟨← optional? size? indentSize, ← optional? size? eolPadding⟩
  | _ => none

/-- The settings that data stand for. -/
def settings? (dialect : Dialect) (data : Data) : Option Settings := do
  match ← data.record? dialect ["$schema", "classifier", "printer"] with
  | [schema, classifier, printer] =>
      return ⟨← optional? text? schema, ← optional? (classifier? dialect) classifier,
        ← optional? (printer? dialect) printer⟩
  | _ => none

end Data

end TriviaTree
