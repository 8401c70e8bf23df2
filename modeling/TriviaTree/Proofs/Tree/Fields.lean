import Mathlib
import TriviaTree.Tree.Field

/-!
The fields of a node when its children change.

`Kind.mapFields` changes the contents of every field at once. As long as each field keeps a number
of children that its shape admits, the new contents are read back as they were put in
(`entries_mapFields`), so changes in a row are one change (`mapFields_mapFields`) and a change is
known by what it does to the entries of the kind (`mapFields_congr`). `Kind.setChild` and
`Kind.insertChild` are such changes.
-/

set_option autoImplicit false

namespace TriviaTree

variable {α : Type} {name : String} {field : Field}

/-- The contents that a field of this shape can have. -/
def Shape.Admits : Shape → List α → Prop
  | .one, cs => ∃ c, cs = [c]
  | .optional, cs => ∃ c : Option α, cs = c.toList
  | .sequence, _ => True

theorem Field.admits_of_isSequence (isSequence : field.isSequence = true) (cs : List α) :
    field.shape.Admits cs := by
  rw [show field.shape = .sequence by simpa [Field.isSequence] using isSequence]
  trivial

/-- A field that is no sequence holds at most one child. -/
theorem Shape.Admits.eq_singleton {cs : List α} {c : α} (admits : field.shape.Admits cs)
    (single : field.isSequence = false) (mem : c ∈ cs) : cs = [c] := by
  obtain ⟨name, shape, operands⟩ := field
  cases shape with
  | one =>
      obtain ⟨d, rfl⟩ := admits
      rw [List.mem_singleton.1 mem]
  | optional =>
      obtain ⟨d, rfl⟩ := admits
      rw [Option.mem_toList.1 mem]
      rfl
  | sequence => simp [Field.isSequence] at single

/-- Another child in a place is as many children. -/
theorem Shape.Admits.set {shape : Shape} {cs : List α} (admits : shape.Admits cs) (i : Nat) (c : α) :
    shape.Admits (cs.set i c) := by
  cases shape with
  | one =>
      obtain ⟨d, rfl⟩ := admits
      cases i with
      | zero => exact ⟨c, rfl⟩
      | succ i => exact ⟨d, rfl⟩
  | optional =>
      obtain ⟨d, rfl⟩ := admits
      cases d with
      | none => exact ⟨none, rfl⟩
      | some d =>
          cases i with
          | zero => exact ⟨some c, rfl⟩
          | succ i => exact ⟨some d, rfl⟩
  | sequence => trivial

theorem Shape.Admits.map {β : Type} {shape : Shape} {cs : List α} (admits : shape.Admits cs)
    (f : α → β) : shape.Admits (cs.map f) := by
  cases shape with
  | one =>
      obtain ⟨c, rfl⟩ := admits
      exact ⟨f c, rfl⟩
  | optional =>
      obtain ⟨c, rfl⟩ := admits
      exact ⟨c.map f, by cases c <;> rfl⟩
  | sequence => trivial

namespace Kind

/-- Each field admits the contents in the same place. -/
def Fits : List Field → List (List α) → Prop
  | [], contents => contents = []
  | field :: fields, contents =>
      ∃ cs rest, contents = cs :: rest ∧ field.shape.Admits cs ∧ Fits fields rest

theorem fits_contents (k : Kind α) : Fits k.fields k.contents := by
  cases k <;>
    simp [Fits, fields, contents, Shape.Admits, Field.one, Field.optional, Field.sequence,
      Field.operandSequence]

/-- Contents that fit are read back as they were put in. -/
theorem contents_withContents (k : Kind α) {contents : List (List α)}
    (fits : Fits k.fields contents) : (k.withContents contents).contents = contents := by
  cases k <;>
    simp only [Fits, fields, Field.one, Field.optional, Field.sequence, Field.operandSequence,
      Shape.Admits] at fits <;>
    (repeat' first
      | obtain ⟨_, _, rfl, ⟨_, rfl⟩, fits⟩ := fits
      | obtain ⟨_, _, rfl, -, fits⟩ := fits) <;>
    simp [withContents, Kind.contents]

/-- Only the contents that are put in last count. -/
theorem withContents_withContents (k : Kind α) {first second : List (List α)}
    (fits : Fits k.fields second) :
    (k.withContents first).withContents second = k.withContents second := by
  cases k <;>
    simp only [Fits, fields, Field.one, Field.optional, Field.sequence, Field.operandSequence,
      Shape.Admits] at fits <;>
    (repeat' first
      | obtain ⟨_, _, rfl, ⟨_, rfl⟩, fits⟩ := fits
      | obtain ⟨_, _, rfl, -, fits⟩ := fits) <;>
    first
    | rfl
    | (rw [withContents.eq_def _ first]
       dsimp only
       split <;> rfl)

/-- No kind has two fields of one name. -/
theorem nodup_fieldNames (k : Kind α) : (k.fields.map (·.name)).Nodup := by
  cases k <;> simp [fields, Field.one, Field.optional, Field.sequence, Field.operandSequence]

/-! ### Changing all fields -/

/-- The kind with the contents of each field changed by `change`. -/
def mapFields (k : Kind α) (change : Field → List α → List α) : Kind α :=
  k.withContents (k.entries.map fun entry => change entry.1 entry.2)

/-- The change leaves each of the fields with contents that its shape admits. -/
def KeepsShape (fields : List Field) (change : Field → List α → List α) : Prop :=
  ∀ field ∈ fields, ∀ cs : List α, field.shape.Admits cs → field.shape.Admits (change field cs)

theorem fits_map_zip {change : Field → List α → List α} :
    ∀ (fields : List Field) (contents : List (List α)), KeepsShape fields change →
      Fits fields contents →
      Fits fields ((fields.zip contents).map fun entry => change entry.1 entry.2)
  | [], _, _, _ => by simp [Fits]
  | field :: fields, contents, keeps, fits => by
      obtain ⟨cs, rest, rfl, admits, fits⟩ := fits
      exact ⟨change field cs, _, rfl, keeps field (.head _) cs admits,
        fits_map_zip fields rest (fun other mem => keeps other (.tail _ mem)) fits⟩

theorem admits_of_mem_zip : ∀ (fields : List Field) (contents : List (List α)),
    Fits fields contents → ∀ {field : Field} {cs : List α}, (field, cs) ∈ fields.zip contents →
      field.shape.Admits cs
  | [], _, _, _, _, mem => by simp at mem
  | first :: fields, contents, fits, field, cs, mem => by
      obtain ⟨ds, rest, rfl, admits, fits⟩ := fits
      rw [List.zip_cons_cons, List.mem_cons] at mem
      rcases mem with same | mem
      · cases same
        exact admits
      · exact admits_of_mem_zip fields rest fits mem

theorem admits_of_mem_entries {k : Kind α} {cs : List α} (mem : (field, cs) ∈ k.entries) :
    field.shape.Admits cs :=
  admits_of_mem_zip k.fields k.contents k.fits_contents mem

@[simp] theorem fields_mapFields (k : Kind α) (change : Field → List α → List α) :
    (k.mapFields change).fields = k.fields :=
  fields_withContents _ _

@[simp] theorem isTrivia_mapFields (k : Kind α) (change : Field → List α → List α) :
    (k.mapFields change).isTrivia = k.isTrivia :=
  isTrivia_withContents _ _

theorem map_fst_entries (k : Kind α) : k.entries.map Prod.fst = k.fields :=
  List.map_fst_zip (le_of_eq k.length_contents.symm)

theorem entries_mapFields (k : Kind α) {change : Field → List α → List α}
    (keeps : KeepsShape k.fields change) :
    (k.mapFields change).entries = k.entries.map fun entry => (entry.1, change entry.1 entry.2) := by
  have fits := fits_map_zip k.fields k.contents keeps k.fits_contents
  rw [entries, fields_mapFields, mapFields, entries, contents_withContents k fits]
  clear keeps
  generalize k.contents = contents at *
  generalize k.fields = fields at *
  induction fields generalizing contents with
  | nil => simp
  | cons field fields ih =>
      cases contents with
      | nil => simp
      | cons cs contents =>
          obtain ⟨_, _, same, _, fits⟩ := fits
          cases same
          simp [ih contents fits]

theorem mapFields_congr (k : Kind α) {first second : Field → List α → List α}
    (same : ∀ field cs, (field, cs) ∈ k.entries → first field cs = second field cs) :
    k.mapFields first = k.mapFields second := by
  unfold mapFields
  congr 1
  exact List.map_congr_left fun entry mem => same entry.1 entry.2 mem

theorem mapFields_mapFields (k : Kind α) {first second : Field → List α → List α}
    (keepsFirst : KeepsShape k.fields first) (keepsSecond : KeepsShape k.fields second) :
    (k.mapFields first).mapFields second =
      k.mapFields fun field cs => second field (first field cs) := by
  have keeps : KeepsShape k.fields fun field cs => second field (first field cs) :=
    fun field mem cs admits => keepsSecond field mem _ (keepsFirst field mem cs admits)
  have fits := fits_map_zip k.fields k.contents keeps k.fits_contents
  rw [mapFields, entries_mapFields k keepsFirst, List.map_map]
  exact withContents_withContents k fits

theorem mapFields_self (k : Kind α) {change : Field → List α → List α}
    (same : ∀ field cs, (field, cs) ∈ k.entries → change field cs = cs) :
    k.mapFields change = k := by
  have unchanged : (k.entries.map fun entry => change entry.1 entry.2) = k.contents := by
    rw [List.map_congr_left fun entry mem => same entry.1 entry.2 mem, entries]
    exact List.map_snd_zip (le_of_eq k.length_contents)
  rw [mapFields, unchanged, withContents_contents]

/-! ### One field by its name -/

/-- The change of the field called `name`. -/
def changeAt (name : String) (change : List α → List α) (field : Field) (cs : List α) : List α :=
  if field.name = name then change cs else cs

theorem modifyField_eq (k : Kind α) (name : String) (change : List α → List α) :
    k.modifyField name change = k.mapFields (changeAt name change) := rfl

/-- Among the entries of a kind the name of a field decides. -/
theorem fieldNamed?_eq_some_iff {k : Kind α} {cs : List α} :
    k.fieldNamed? name = some (field, cs) ↔ (field, cs) ∈ k.entries ∧ field.name = name := by
  have distinct : (k.entries.map (·.1.name)).Nodup := by
    have := k.nodup_fieldNames
    rwa [← map_fst_entries, List.map_map] at this
  unfold fieldNamed?
  generalize k.entries = entries at *
  induction entries with
  | nil => simp
  | cons entry entries ih =>
      rw [List.map_cons, List.nodup_cons] at distinct
      obtain ⟨fresh, distinct⟩ := distinct
      rw [List.find?_cons]
      by_cases here : entry.1.name = name
      · simp only [here, decide_true, Option.some.injEq, List.mem_cons]
        constructor
        · rintro rfl
          exact ⟨.inl rfl, here⟩
        · rintro ⟨rfl | mem, named⟩
          · rfl
          · exact absurd (List.mem_map.2 ⟨_, mem, named.trans here.symm⟩) fresh
      · simp only [here, decide_false, ih distinct, List.mem_cons]
        constructor
        · rintro ⟨mem, named⟩
          exact ⟨.inr mem, named⟩
        · rintro ⟨rfl | mem, named⟩
          · exact absurd named here
          · exact ⟨mem, named⟩

theorem fieldNamed?_mapFields (k : Kind α) {change : Field → List α → List α}
    (keeps : KeepsShape k.fields change) (name : String) :
    (k.mapFields change).fieldNamed? name =
      (k.fieldNamed? name).map fun entry => (entry.1, change entry.1 entry.2) := by
  unfold fieldNamed?
  rw [entries_mapFields k keeps, List.find?_map]
  rfl

/-- A child has an index when it is one of a sequence. -/
theorem child?_eq_some_iff {k : Kind α} {index : Option Nat} {c : α} :
    k.child? name index = some c ↔ ∃ field cs, k.fieldNamed? name = some (field, cs) ∧
      field.isSequence = index.isSome ∧ cs[index.getD 0]? = some c := by
  unfold child?
  cases k.fieldNamed? name with
  | none => simp
  | some entry =>
      obtain ⟨field, cs⟩ := entry
      cases index <;> cases sequence : field.isSequence <;>
        simp [sequence, List.head?_eq_getElem?]

theorem sequence?_eq_some_iff {k : Kind α} {cs : List α} :
    k.sequence? name = some cs ↔
      ∃ field, k.fieldNamed? name = some (field, cs) ∧ field.isSequence = true := by
  unfold sequence?
  cases k.fieldNamed? name with
  | none => simp
  | some entry =>
      obtain ⟨field, ds⟩ := entry
      cases sequence : field.isSequence <;> simp [sequence]

/-- A change of one field keeps the shapes when it keeps that of the field. -/
theorem keepsShape_changeAt {k : Kind α} {cs : List α} {change : List α → List α}
    (found : k.fieldNamed? name = some (field, cs))
    (admits : ∀ ds, field.shape.Admits ds → field.shape.Admits (change ds)) :
    KeepsShape k.fields (changeAt name change) := by
  intro other mem ds admitsOther
  unfold changeAt
  split
  · next named =>
    rw [← map_fst_entries] at mem
    obtain ⟨⟨other, _⟩, here, rfl⟩ := List.mem_map.1 mem
    have same := fieldNamed?_eq_some_iff.2 ⟨here, named⟩
    rw [found, Option.some.injEq, Prod.mk.injEq] at same
    exact same.1 ▸ admits ds (same.1 ▸ admitsOther)
  · exact admitsOther

/-- Another child is put where the old one was, also in a field of one child. -/
theorem setChild_eq {k : Kind α} {index : Option Nat} {c : α} (h : k.child? name index = some c)
    (new : α) : k.setChild name index new = k.modifyField name (·.set (index.getD 0) new) := by
  obtain ⟨field, cs, found, sequence, here⟩ := child?_eq_some_iff.1 h
  rw [setChild, if_pos (by simp [h])]
  cases index with
  | some i => rfl
  | none =>
      rw [modifyField_eq, modifyField_eq]
      refine mapFields_congr k fun other ds mem => ?_
      unfold changeAt
      split
      · next named =>
        have same := fieldNamed?_eq_some_iff.2 ⟨mem, named⟩
        obtain ⟨rfl, rfl⟩ : field = other ∧ cs = ds := by simpa using found.symm.trans same
        rw [(admits_of_mem_entries mem).eq_singleton sequence (List.mem_of_getElem? here)]
        rfl
      · rfl

/-- A field is found by its name where it is counted. -/
theorem fieldNamed?_eq_bind (k : Kind α) (name : String) :
    k.fieldNamed? name = (k.fieldIndex? name).bind (k.entries[·]?) := by
  rw [fieldNamed?, List.find?_eq_bind_findIdx?_getElem?, fieldIndex?, ← map_fst_entries,
    List.findIdx?_map]
  rfl

theorem fieldIndex?_of_fieldNamed {k : Kind α} {entry : Field × List α}
    (found : k.fieldNamed? name = some entry) : ∃ ordinal, k.fieldIndex? name = some ordinal := by
  rw [fieldNamed?_eq_bind, Option.bind_eq_some_iff] at found
  exact found.imp fun _ h => h.1

end Kind

end TriviaTree
