/-!
Places in a source text and the stretches between them.

A `Location` is a line and a column, ordered line first; a `Span` runs from one location to
another. `Span.contains`, `Span.endsBefore` and `Span.startsAfter` are the three ways two spans
of a well-nested tree can stand to each other.
-/

set_option autoImplicit false

namespace TriviaTree

/-- A place in a source text: lines count from 1, columns are byte offsets and count from 0. -/
structure Location where
  line : Nat
  column : Nat
deriving DecidableEq, Repr, Inhabited

namespace Location

/-- Where every text begins. -/
def origin : Location := ⟨1, 0⟩

instance : LE Location where
  le a b := a.line < b.line ∨ (a.line = b.line ∧ a.column ≤ b.column)

instance : LT Location where
  lt a b := a.line < b.line ∨ (a.line = b.line ∧ a.column < b.column)

theorem le_iff {a b : Location} :
    a ≤ b ↔ a.line < b.line ∨ (a.line = b.line ∧ a.column ≤ b.column) := Iff.rfl

theorem lt_iff {a b : Location} :
    a < b ↔ a.line < b.line ∨ (a.line = b.line ∧ a.column < b.column) := Iff.rfl

instance (a b : Location) : Decidable (a ≤ b) := decidable_of_iff _ le_iff.symm

instance (a b : Location) : Decidable (a < b) := decidable_of_iff _ lt_iff.symm

/-- Lines are compared first, columns within a line. -/
instance : Ord Location where
  compare a b := (compare a.line b.line).then (compare a.column b.column)

instance : Min Location where
  min a b := if a ≤ b then a else b

instance : Max Location where
  max a b := if a ≤ b then b else a

theorem le_refl (a : Location) : a ≤ a := .inr ⟨rfl, Nat.le_refl _⟩

theorem le_trans {a b c : Location} (hab : a ≤ b) (hbc : b ≤ c) : a ≤ c := by
  simp only [le_iff] at *
  omega

theorem le_total (a b : Location) : a ≤ b ∨ b ≤ a := by
  simp only [le_iff]
  omega

theorem le_antisymm {a b : Location} (hab : a ≤ b) (hba : b ≤ a) : a = b := by
  obtain ⟨la, ca⟩ := a
  obtain ⟨lb, cb⟩ := b
  simp only [le_iff, mk.injEq] at *
  omega

/-- `line:column`. -/
def text (a : Location) : String :=
  toString a.line ++ ":" ++ toString a.column

end Location

/-- A stretch of a source text. -/
structure Span where
  start : Location
  stop : Location
deriving DecidableEq, Repr, Inhabited

namespace Span

/-- `b` lies inside `a`, ends included. -/
def contains (a b : Span) : Bool :=
  a.start ≤ b.start && b.stop ≤ a.stop

/-- `a` is over when `b` begins. -/
def endsBefore (a b : Span) : Bool :=
  a.stop ≤ b.start

/-- `a` begins once `b` is over. -/
def startsAfter (a b : Span) : Bool :=
  b.stop ≤ a.start

/-- The smallest span around both. -/
def cover (a b : Span) : Span :=
  ⟨min a.start b.start, max a.stop b.stop⟩

/-- `start-stop`. -/
def text (a : Span) : String :=
  a.start.text ++ "-" ++ a.stop.text

end Span

end TriviaTree
