import Mathlib
import TriviaTree.Source.Lines

/-!
The order of places in a text.

Locations are linearly ordered, line first, and `LineIndex.location` carries the order of byte
offsets over to them: offsets that differ, up to the end of the text, stand at different places.
-/

set_option autoImplicit false

namespace TriviaTree

namespace Location

theorem lt_iff_le_not_ge {a b : Location} : a < b ↔ a ≤ b ∧ ¬ b ≤ a := by
  simp only [le_iff, lt_iff]
  omega

theorem compare_eq {a b : Location} : compare a b = compareOfLessAndEq a b := by
  obtain ⟨line, column⟩ := a
  obtain ⟨line', column'⟩ := b
  show (compare line line').then (compare column column') = _
  simp only [compareOfLessAndEq, lt_iff, mk.injEq]
  rcases Nat.lt_trichotomy line line' with hline | rfl | hline
  · simp [Nat.compare_eq_lt.2 hline, hline]
  · rcases Nat.lt_trichotomy column column' with hcolumn | rfl | hcolumn
    · simp [Nat.compare_eq_lt.2 hcolumn, hcolumn]
    · simp
    · simp [Nat.compare_eq_gt.2 hcolumn, Nat.not_lt.2 hcolumn.le, hcolumn.ne']
  · simp [Nat.compare_eq_gt.2 hline, Nat.not_lt.2 hline.le, hline.ne']

instance : LinearOrder Location where
  le_refl := le_refl
  le_trans _ _ _ := le_trans
  le_antisymm _ _ := le_antisymm
  le_total := le_total
  lt_iff_le_not_ge _ _ := lt_iff_le_not_ge
  min_def _ _ := rfl
  max_def _ _ := rfl
  compare_eq_compareOfLessAndEq _ _ := compare_eq
  toDecidableLE := inferInstance

end Location

namespace LineIndex

/-- A line is begun at a later offset when it is begun at an earlier one. -/
theorem takeWhile_le_isPrefix (starts : List Nat) {a b : Nat} (hab : a ≤ b) :
    starts.takeWhile (· ≤ a) <+: starts.takeWhile (· ≤ b) := by
  induction starts with
  | nil => simp
  | cons start starts ih =>
      by_cases ha : start ≤ a
      · simpa [ha, ha.trans hab] using ih
      · simp [ha]

theorem getLast?_takeWhile_le (starts : List Nat) (offset : Nat) :
    (starts.takeWhile (· ≤ offset)).getLast?.getD 0 ≤ offset := by
  cases hlast : (starts.takeWhile (· ≤ offset)).getLast? with
  | none => simp
  | some start =>
      simpa using List.mem_takeWhile_imp (List.mem_of_getLast? hlast)

/-- Within the text, a later offset is at a later place. -/
theorem location_strictMono (index : LineIndex) {a b : Nat} (hab : a < b)
    (hb : b ≤ index.size) : index.location a < index.location b := by
  simp only [location, Nat.min_eq_left hb, Nat.min_eq_left (hab.le.trans hb), Location.lt_iff]
  have hstartsWith := takeWhile_le_isPrefix index.starts hab.le
  rcases hstartsWith.length_le.lt_or_eq with hshorter | hsame
  · exact .inl hshorter
  · -- no line begins in between, so both count columns from the same start
    have hbegun := hstartsWith.eq_of_length hsame
    have hstart := getLast?_takeWhile_le index.starts a
    refine .inr ⟨hsame, ?_⟩
    rw [← hbegun]
    omega

theorem location_mono (index : LineIndex) {a b : Nat} (hab : a ≤ b) (hb : b ≤ index.size) :
    index.location a ≤ index.location b := by
  rcases hab.lt_or_eq with hlt | rfl
  · exact (index.location_strictMono hlt hb).le
  · exact le_rfl

/-- Every place of a text is at or after its origin. -/
theorem origin_le_location (source : String) (offset : Nat) :
    Location.origin ≤ (ofText source).location offset := by
  have hbegun : 1 ≤ ((ofText source).location offset).line := by
    simp [location, ofText]
  rcases hbegun.lt_or_eq with hlater | hfirst
  · exact .inl hlater
  · exact .inr ⟨hfirst, Nat.zero_le _⟩

end LineIndex

end TriviaTree
