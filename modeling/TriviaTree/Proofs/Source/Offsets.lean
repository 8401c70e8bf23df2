import Mathlib
import TriviaTree.Proofs.Source.LineText

/-!
Byte offsets and places of a text, there and back.

Lines begin in order, so the line of an offset is known by its start and by the start of the next one
(`location_of_start`). Within a text places keep the order of offsets and lead back to them
(`location_order_inverse`). The other way round, a column may run past the end of its line: the offset
is then on a later line, and it leads back to another place (`location_offset?_iff`).
-/

set_option autoImplicit false

namespace TriviaTree.LineIndex

variable {source : String} {offset : Nat}

theorem offset?_location (hoffset : offset ≤ (ofText source).size) :
    (ofText source).offset? ((ofText source).location offset) = some offset := by
  have hne : (ofText source).starts.takeWhile (· ≤ offset) ≠ [] := by simp [ofText]
  obtain ⟨begun, start, hbegun⟩ := (List.eq_nil_or_concat' _).resolve_left hne
  have hle : start ≤ offset := by
    have hmem : start ∈ (ofText source).starts.takeWhile (· ≤ offset) := by simp [hbegun]
    simpa using List.mem_takeWhile_imp hmem
  have hstart : (ofText source).starts[begun.length]? = some start := by
    rw [← List.takeWhile_append_dropWhile (p := (· ≤ offset)) (l := (ofText source).starts), hbegun]
    simp
  simp [location, hbegun, offset?, hstart, hle, hoffset]

/-- Places keep the order of offsets and lead back to them; past the end there is only the end. -/
theorem location_order_inverse (source : String) : let index := ofText source
    let size := Text.byteSize source.toList
    (∀ a b, a ≤ size → b ≤ size → (index.location a < index.location b ↔ a < b)) ∧
      (∀ a ≤ size, index.offset? (index.location a) = some a) ∧
      ∀ a, size < a → index.location a = index.location size := by
  refine ⟨fun a b ha hb => ⟨fun hlt => ?_, fun hab => location_strictMono _ hab hb⟩,
    fun a ha => offset?_location ha, fun a ha => ?_⟩
  · by_contra hba
    exact absurd hlt (location_mono _ (Nat.not_lt.1 hba) ha).not_gt
  · simp [location, ofText, ha.le]

theorem location_order_inverse_blank_line : let index := ofText "é\n\nb"
    index.location 3 < index.location 4 ∧ index.offset? (index.location 4) = some 4 ∧
      index.location 9 = index.location 5 := by
  obtain ⟨hlt, hback, hend⟩ := location_order_inverse "é\n\nb"
  exact ⟨(hlt 3 4 (by decide) (by decide)).2 (by decide), hback 4 (by decide), hend 9 (by decide)⟩

end TriviaTree.LineIndex
