import Mathlib
import TriviaTree.Proofs.Grammar.Retention
import TriviaTree.Proofs.Tree.Walks
import TriviaTree.Tree.Edit

/-!
Children read and written by name.

`Kind.childMut?` finds a child for writing by counting: the position of its field, then its place in
the field. It finds what `Kind.child?` finds by name, and it writes as `Kind.setChild` does
(`childMut?_eq`). Another child changes what is read in its own place and nowhere else
(`child?_setChild`), and every place that can be read is listed once (`child_lens`).
-/

set_option autoImplicit false

namespace TriviaTree

namespace Kind

variable {α : Type} {k : Kind α} {name : String} {index : Option Nat} {c : α}

/-- A child for writing: the one that is there, and the layer with another one in its place. -/
def childMut? (k : Kind α) (name : String) (index : Option Nat) : Option (α × (α → Kind α)) := do
  let position ← k.fieldIndex? name
  let (field, children) ← k.entries[position]?
  guard (field.isSequence = index.isSome)
  let child ← children[index.getD 0]?
  return (child, fun new =>
    k.withContents (k.contents.set position (children.set (index.getD 0) new)))

/-- To change the field of a name is to change the one at its position. -/
theorem modifyField_eq_set {position : Nat} {field : Field} {cs : List α}
    (hentry : k.entries[position]? = some (field, cs)) (change : List α → List α) :
    k.modifyField field.name change = k.withContents (k.contents.set position (change cs)) := by
  rw [modifyField, ← map_snd_entries]
  congr 1
  refine List.ext_getElem? fun j => ?_
  rw [List.getElem?_map, List.getElem?_set, List.length_map, List.getElem?_map]
  obtain rfl | hne := eq_or_ne position j
  · rw [hentry, if_pos rfl, if_pos (List.getElem?_eq_some_iff.1 hentry).1]
    exact congrArg some (if_pos rfl)
  · rw [if_neg hne]
    refine Option.map_congr fun entry hother => if_neg fun hname => hne ?_
    have hnames := k.nodup_fieldNames
    rw [← map_fst_entries, List.map_map] at hnames
    have hlt := (List.getElem?_eq_some_iff.1 hentry).1
    refine (List.getElem?_inj (by simpa using hlt) hnames).1 ?_
    simp [hentry, Option.mem_def.1 hother, hname]

theorem childMut?_eq (k : Kind α) (name : String) (index : Option Nat) :
    k.childMut? name index = (k.child? name index).map fun c => (c, k.setChild name index) := by
  have hfound := k.fieldNamed?_eq_bind name
  cases hchild : k.child? name index with
  | some c =>
      obtain ⟨field, cs, hnamed, hsequence, hc⟩ := child?_eq_some_iff.1 hchild
      obtain ⟨position, hposition, hentry⟩ := Option.bind_eq_some_iff.1 (hfound.symm.trans hnamed)
      have hput : ∀ new, k.setChild name index new =
          k.withContents (k.contents.set position (cs.set (index.getD 0) new)) := fun new => by
        rw [setChild_eq hchild, ← (fieldNamed?_eq_some_iff.1 hnamed).2, modifyField_eq_set hentry]
      simp [childMut?, hposition, hentry, hsequence, hc, funext hput]
  | none =>
      rw [Option.map_none, Option.eq_none_iff_forall_ne_some]
      rintro ⟨c, put⟩ hsome
      simp only [childMut?, Option.bind_eq_bind, Option.bind_eq_some_iff] at hsome
      obtain ⟨position, hposition, ⟨field, cs⟩, hentry, _, hguard, c, hc, -⟩ := hsome
      have hnamed := hfound.trans (by rw [hposition, Option.bind_some, hentry])
      rw [child?_eq_some_iff.2 ⟨field, cs, hnamed, by simpa using hguard, hc⟩] at hchild
      cases hchild

theorem keepsShape_setChild (h : k.child? name index = some c) (new : α) :
    KeepsShape k.fields (changeAt name (·.set (index.getD 0) new)) := by
  obtain ⟨field, cs, hnamed, -⟩ := child?_eq_some_iff.1 h
  exact keepsShape_changeAt hnamed fun _ admits => admits.set _ new

/-- Another child is read in its own place, and what is read elsewhere stays. -/
theorem child?_setChild (h : k.child? name index = some c) (new : α) (name' : String)
    (index' : Option Nat) : (k.setChild name index new).child? name' index' =
      if (name', index') = (name, index) then some new else k.child? name' index' := by
  obtain ⟨field, cs, hnamed, hsequence, hc⟩ := child?_eq_some_iff.1 h
  have hread : ∀ d, (k.setChild name index new).child? name' index' = some d ↔ ∃ field ds,
      k.fieldNamed? name' = some (field, ds) ∧ field.isSequence = index'.isSome ∧
        (changeAt name (·.set (index.getD 0) new) field ds)[index'.getD 0]? = some d := by
    intro d
    rw [setChild_eq h, modifyField_eq, child?_eq_some_iff,
      fieldNamed?_mapFields k (keepsShape_setChild h new)]
    simp
  split
  · next hsame =>
    cases hsame
    refine (hread new).2 ⟨field, cs, hnamed, hsequence, ?_⟩
    rw [changeAt, if_pos (fieldNamed?_eq_some_iff.1 hnamed).2,
      List.getElem?_set_self (List.getElem?_eq_some_iff.1 hc).1]
  · next hother =>
    refine Option.ext fun d => (hread d).trans (.trans ?_ child?_eq_some_iff.symm)
    refine exists_congr fun other => exists_congr fun ds => and_congr_right fun hnamed' =>
      and_congr_right fun hsequence' => ?_
    unfold changeAt
    split
    · next hname =>
      obtain rfl : name' = name := (fieldNamed?_eq_some_iff.1 hnamed').2.symm.trans hname
      obtain ⟨rfl, rfl⟩ : field = other ∧ cs = ds := by simpa using hnamed.symm.trans hnamed'
      rw [List.getElem?_set_ne]
      intro hplace
      cases index <;> cases index' <;> simp_all
    · rfl

/-- Apart from its children the layer stays as it was. -/
theorem map_const_setChild (h : k.child? name index = some c) (new d : α) :
    (k.setChild name index new).map (fun _ => d) = k.map fun _ => d := by
  have hmap : ∀ k : Kind α, k.map (fun _ => d) = k.mapFields fun _ cs => cs.map fun _ => d := by
    intro k
    rw [map_eq_withContents, mapFields, ← map_snd_entries, List.map_map]
    rfl
  rw [setChild_eq h, modifyField_eq, hmap, hmap, mapFields_mapFields k (keepsShape_setChild h new)
    fun _ _ _ admits => admits.map _]
  refine mapFields_congr k fun field cs _ => ?_
  unfold changeAt
  split <;> simp

theorem nodup_slotNames (k : Kind α) :
    (k.slots.map fun entry => (entry.1.field.name, entry.1.index)).Nodup := by
  have hfound : ∀ slot ∈ k.slots.map (·.1), ∃ cs,
      k.fieldNamed? slot.field.name = some (slot.field, cs) := by
    intro slot hslot
    obtain ⟨entry, hmem, rfl⟩ := List.mem_map.1 hslot
    obtain ⟨cs, hentry, -⟩ := mem_slots_iff.1 hmem
    exact ⟨cs, fieldNamed?_eq_some_iff.2 ⟨hentry, rfl⟩⟩
  have hnames := k.nodup_slots.map_on (f := fun slot => (slot.field.name, slot.index))
    fun slot hslot slot' hslot' hsame => ?_
  · simpa [Function.comp_def] using hnames
  · obtain ⟨field, index⟩ := slot
    obtain ⟨field', index'⟩ := slot'
    obtain ⟨hname, rfl⟩ : field.name = field'.name ∧ index = index' := by simpa using hsame
    obtain ⟨cs, hcs⟩ := hfound _ hslot
    obtain ⟨cs', hcs'⟩ := hfound _ hslot'
    simp_all

end Kind

/-- The second node is the first with another child in one place. -/
structure Node.Replaced (n n' : Node) (name : String) (index : Option Nat) (new : Node) : Prop where
  span : n'.span = n.span
  child : n'.kind.child? name index = some new
  others : ∀ name' index', (name', index') ≠ (name, index) →
    n'.kind.child? name' index' = n.kind.child? name' index'
  attributes : ∀ c, n'.kind.map (fun _ => c) = n.kind.map fun _ => c

/-- Children are read and written through one lens, and all of them are listed. -/
theorem Node.child_lens (n : Node) (name : String) (index : Option Nat) :
    (n.kind.childMut? name index).map Prod.fst = n.kind.child? name index ∧
      (∀ c put, n.kind.childMut? name index = some (c, put) → ∀ new,
        n.replaceAt [(name, index)] new = .ok ⟨put new, n.span⟩ ∧
          n.Replaced ⟨put new, n.span⟩ name index new) ∧
      (n.kind.slots.map fun entry => (entry.1.field.name, entry.1.index)).Nodup ∧
      ∀ c, n.kind.child? name index = some c ↔
        ∃ slot, (slot, c) ∈ n.kind.slots ∧ slot.field.name = name ∧ slot.index = index := by
  refine ⟨?_, fun c put hput new => ?_, ?_, fun c => ?_⟩
  · simp [Kind.childMut?_eq, Function.comp_def]
  · obtain ⟨c, hchild, hpair⟩ := Option.map_eq_some_iff.1 ((Kind.childMut?_eq _ _ _).symm.trans hput)
    cases hpair
    have hread := Kind.child?_setChild hchild new
    refine ⟨by simp [replaceAt, modifyAt?, hchild], rfl, by simp [hread],
      fun name' index' hne => by simp [hread, hne], Kind.map_const_setChild hchild new⟩
  · exact n.kind.nodup_slotNames
  · constructor
    · intro hchild
      obtain ⟨field, cs, hnamed, hplace⟩ := Kind.child?_eq_some_iff.1 hchild
      obtain ⟨hentry, rfl⟩ := Kind.fieldNamed?_eq_some_iff.1 hnamed
      exact ⟨⟨field, index⟩, Kind.mem_slots_iff.2 ⟨cs, hentry, hplace⟩, rfl, rfl⟩
    · rintro ⟨slot, hslot, rfl, rfl⟩
      exact Kind.child?_of_mem_slots hslot

theorem Node.child_lens_argument : let a := Node.bare (.name "a")
    let b := Node.bare (.name "b")
    let put : Node → Kind Node := fun new => .call a [b, new] []
    let n := Node.bare (put b)
    n.kind.childMut? "args" (some 1) = some (b, put) ∧
      n.replaceAt [("args", some 1)] a = .ok ⟨put a, none⟩ ∧
      n.Replaced ⟨put a, none⟩ "args" (some 1) a := by
  intro a b put n
  have hput : n.kind.childMut? "args" (some 1) = some (b, put) := rfl
  exact ⟨hput, (n.child_lens "args" (some 1)).2.1 b put hput a⟩

end TriviaTree
