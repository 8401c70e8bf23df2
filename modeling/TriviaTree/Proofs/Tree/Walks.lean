import Mathlib
import TriviaTree.Proofs.Tree.Paths

/-!
What a change of one field does to the walks over a tree.

A tree with the contents of one field changed has the same nodes elsewhere (`children_modifyField`),
so whatever adds up over a tree changes by what it changes in that field. Stripping works field by
field (`strip_eq_mapFields`), and so does the search for trivia in the wrong place
(`ownProblems_eq_nil_iff`).
-/

set_option autoImplicit false

namespace TriviaTree

namespace Kind

variable {α : Type} {k : Kind α} {name : String} {field : Field} {cs : List α}

theorem map_snd_entries (k : Kind α) : k.entries.map Prod.snd = k.contents :=
  List.map_snd_zip (le_of_eq k.length_contents)

theorem children_eq (k : Kind α) : k.children = k.entries.flatMap Prod.snd := by
  rw [children, ← map_snd_entries, List.flatMap_def]

theorem mem_children_of_mem_entries (hentry : (field, cs) ∈ k.entries) {c : α} (hc : c ∈ cs) :
    c ∈ k.children := by
  rw [children_eq]
  exact List.mem_flatMap.2 ⟨(field, cs), hentry, hc⟩

theorem exists_slot_of_mem_entries (hentry : (field, cs) ∈ k.entries) {c : α} (hc : c ∈ cs) :
    ∃ index, (⟨field, index⟩, c) ∈ k.slots := by
  obtain ⟨i, hi⟩ := List.mem_iff_getElem?.1 hc
  cases hsequence : field.isSequence with
  | true => exact ⟨some i, mem_slots_iff.2 ⟨cs, hentry, hsequence, hi⟩⟩
  | false =>
      have hone := (admits_of_mem_entries hentry).eq_singleton hsequence hc
      exact ⟨none, mem_slots_iff.2 ⟨cs, hentry, hsequence, by simp [hone]⟩⟩

/-- The children outside the changed field stay. -/
theorem children_modifyField (found : k.fieldNamed? name = some (field, cs))
    (change : List α → List α)
    (admits : ∀ ds, field.shape.Admits ds → field.shape.Admits (change ds)) :
    ∃ others, k.children.Perm (cs ++ others) ∧
      (k.modifyField name change).children.Perm (change cs ++ others) := by
  obtain ⟨hmem, rfl⟩ := fieldNamed?_eq_some_iff.1 found
  obtain ⟨front, back, hsplit⟩ := List.append_of_mem hmem
  have hnames : (k.entries.map fun entry => entry.1.name).Nodup := by
    have h := k.nodup_fieldNames
    rwa [← map_fst_entries, List.map_map] at h
  rw [hsplit, List.map_append, List.map_cons, List.nodup_middle, List.nodup_cons] at hnames
  have hother : ∀ entry ∈ front ++ back, changeAt field.name change entry.1 entry.2 = entry.2 := by
    intro entry hentry
    refine if_neg fun hname => hnames.1 ?_
    rw [← List.map_append]
    exact List.mem_map.2 ⟨entry, hentry, hname⟩
  have hsame : (front ++ back).flatMap (fun entry => changeAt field.name change entry.1 entry.2) =
      (front ++ back).flatMap Prod.snd := List.flatMap_congr hother
  refine ⟨(front ++ back).flatMap Prod.snd, ?_, ?_⟩
  · rw [children_eq, hsplit]
    exact List.perm_middle.flatMap_right Prod.snd
  · rw [modifyField_eq, children_eq, entries_mapFields k (keepsShape_changeAt found admits), hsplit,
      List.flatMap_map, ← hsame]
    have hmiddle : (front ++ (field, cs) :: back).Perm ((field, cs) :: (front ++ back)) :=
      List.perm_middle
    have hperm := hmiddle.flatMap_right fun entry => changeAt field.name change entry.1 entry.2
    rwa [List.flatMap_cons, changeAt, if_pos rfl] at hperm

/-- Another child in a slot takes the place of the one that was there. -/
theorem children_setChild {place : Option Nat} {c : α} (h : k.child? name place = some c)
    (new : α) : ∃ others, k.children.Perm (c :: others) ∧
      (k.setChild name place new).children.Perm (new :: others) := by
  obtain ⟨field, cs, found, -, hc⟩ := child?_eq_some_iff.1 h
  obtain ⟨others, hold, hnew⟩ := children_modifyField found (·.set (place.getD 0) new)
    fun _ admits => admits.set _ _
  obtain ⟨hi, rfl⟩ := List.getElem?_eq_some_iff.1 hc
  rw [setChild_eq h]
  refine ⟨cs.eraseIdx (place.getD 0) ++ others, hold.trans ?_, hnew.trans ?_⟩
  · exact (List.getElem_cons_eraseIdx_perm hi).symm.append_right others
  · exact (List.set_perm_cons_eraseIdx hi new).append_right others

/-- A new child in a sequence is added to the others. -/
theorem children_insertChild (h : k.sequence? name = some cs) {i : Nat} (hi : i ≤ cs.length)
    (new : α) : (k.insertChild name i new).children.Perm (new :: k.children) := by
  obtain ⟨field, found, sequence⟩ := sequence?_eq_some_iff.1 h
  obtain ⟨others, hold, hnew⟩ := children_modifyField found
    (fun children => children.insertIdx i new) fun _ _ => field.admits_of_isSequence sequence _
  refine hnew.trans (((List.perm_insertIdx new cs hi).append_right others).trans ?_)
  exact hold.symm.cons new

end Kind

namespace Node

/-! ### Counting trivia -/

/-- Trivia have no children. -/
theorem children_eq_nil_of_isTrivia {n : Node} (h : n.isTrivia = true) : n.children = [] := by
  obtain ⟨kind, _⟩ := n
  cases kind <;> first | rfl | cases h

theorem preorder_of_isTrivia {n : Node} (h : n.isTrivia = true) : n.preorder = [n] := by
  rw [preorder_eq, children_eq_nil_of_isTrivia h]
  rfl

theorem mem_preorder_iff {n m : Node} :
    m ∈ n.preorder ↔ m = n ∨ ∃ c ∈ n.children, m ∈ c.preorder := by
  rw [preorder_eq, List.mem_cons, List.mem_flatten]
  simp

/-- What holds of all nodes of a tree holds of its root, and of all nodes below each child. -/
theorem forall_mem_preorder {n : Node} {p : Node → Prop} : (∀ m ∈ n.preorder, p m) ↔
    p n ∧ ∀ c ∈ n.children, ∀ m ∈ c.preorder, p m := by
  simp only [mem_preorder_iff (n := n), forall_eq_or_imp, forall_exists_index, and_imp]
  exact and_congr_right fun _ => ⟨fun h c hc m => h m c hc, fun h m c hc => h c hc m⟩

/-- The trivia of a tree are the root, if it is trivia, and those below it. -/
theorem triviaCount_eq (n : Node) :
    n.triviaCount = n.isTrivia.toNat + (n.children.map triviaCount).sum := by
  rw [triviaCount, preorder_eq, List.countP_cons, List.countP_flatten, List.map_map, Nat.add_comm]
  cases n.isTrivia <;> rfl

theorem triviaCount_of_isTrivia {n : Node} (h : n.isTrivia = true) : n.triviaCount = 1 := by
  rw [triviaCount_eq, h, children_eq_nil_of_isTrivia h]
  rfl

/-- The list of numbered nodes holds the nodes in preorder. -/
theorem map_node_flattenFrom (n : Node) : ∀ (id : Nat) (way : Path),
    (n.flattenFrom id way).map (·.node) = n.preorder := by
  induction n with
  | step n ih =>
    intro id way
    rw [flattenFrom_eq, preorder_eq, List.map_cons, children, ← Kind.map_snd_slots, List.map_map]
    congr 1
    have hslots : ∀ entry ∈ n.kind.slots, entry.2 ∈ n.children :=
      fun entry h => Kind.mem_children_of_mem_slots h
    generalize n.kind.slots = slots at *
    generalize id + 1 = first
    induction slots generalizing first with
    | nil => rfl
    | cons entry slots ih' =>
        simp only [List.map_cons, numberFrom, List.map_append, List.flatten_cons]
        rw [ih entry.2 (hslots entry List.mem_cons_self),
          ih' (List.forall_mem_cons.1 hslots).2]
        rfl

theorem triviaCount_flatten (n : Node) : n.flatten.triviaCount = n.triviaCount := by
  have h : (n.flatten.nodes.map (·.node)).countP isTrivia = n.preorder.countP isTrivia :=
    congrArg _ (map_node_flattenFrom n 0 [])
  rwa [List.countP_map] at h

/-! ### Stripping -/

/-- A field is stripped by leaving out the trivia in it and stripping the rest. -/
theorem strip_eq_mapFields (n : Node) :
    n.strip = ⟨n.kind.mapFields fun field cs => field.dropTrivia (cs.map strip), n.span⟩ := by
  rw [strip_eq]
  simp only [Kind.mapFields, Kind.entries, List.zip, List.map_zipWith, List.zipWith_map_right]

/-! ### Trivia in their places -/

/-- No node of the tree is trivia. -/
def Plain (n : Node) : Prop :=
  ∀ m ∈ n.preorder, m.isTrivia = false

theorem plain_iff {n : Node} : n.Plain ↔ n.isTrivia = false ∧ ∀ c ∈ n.children, c.Plain :=
  forall_mem_preorder

theorem Plain.strip_eq {n : Node} (plain : n.Plain) : n.strip = n := by
  induction n with
  | step n ih =>
    have hself : (n.kind.mapFields fun field cs => field.dropTrivia (cs.map strip)) = n.kind := by
      refine Kind.mapFields_self _ fun field cs hentry => ?_
      have hchild : ∀ c ∈ cs, c.isTrivia = false ∧ c.strip = c := by
        intro c hc
        have hmem := Kind.mem_children_of_mem_entries hentry hc
        have hplain := (plain_iff.1 plain).2 c hmem
        exact ⟨(plain_iff.1 hplain).1, ih c hmem hplain⟩
      have hmap : cs.map strip = cs :=
        (List.map_congr_left fun c hc => (hchild c hc).2).trans (List.map_id cs)
      rw [hmap, Field.dropTrivia]
      split
      · exact List.filter_eq_self.2 fun c hc => by simp [hchild c hc]
      · rfl
    rw [strip_eq_mapFields, hself]
    cases n
    rfl

/-- A comment is on one line and a directive has keywords. -/
def WellFormed (n : Node) : Prop :=
  match n.kind with
  | .comment c => '\n' ∉ c.payload.toList
  | .directive d => d.keywords ≠ []
  | _ => True

/-- Nothing is wrong at a node when the trivia in its fields may stand there and it is well formed
itself. -/
theorem ownProblems_eq_nil_iff {n : Node} : n.ownProblems = [] ↔
    (∀ field cs, (field, cs) ∈ n.kind.entries → ∀ c ∈ cs, c.isTrivia = true →
      field.acceptsTrivia = true) ∧ n.WellFormed := by
  rw [ownProblems, List.append_eq_nil_iff, List.filterMap_eq_nil_iff]
  refine and_congr ?_ ?_
  · constructor
    · intro h field cs hentry c hc htrivia
      obtain ⟨index, hslot⟩ := Kind.exists_slot_of_mem_entries hentry hc
      have hown := h (⟨field, index⟩, c) hslot
      simp only [htrivia, Bool.true_and] at hown
      by_contra hrefuses
      simp [hrefuses] at hown
    · rintro h ⟨slot, c⟩ hslot
      obtain ⟨cs, hentry, hplace⟩ := Kind.mem_slots_iff.1 hslot
      have hc : c ∈ cs := List.mem_of_getElem? hplace.2
      cases htrivia : c.isTrivia with
      | false => simp [htrivia]
      | true => simp [htrivia, h slot.field cs hentry c hc htrivia]
  · obtain ⟨kind, _⟩ := n
    cases kind <;> simp [WellFormed]

theorem wellPlaced_iff {n : Node} :
    n.WellPlaced ↔ n.isTrivia = false ∧ ∀ m ∈ n.preorder, m.ownProblems = [] := by
  rw [WellPlaced, placementProblems, List.append_eq_nil_iff, List.flatMap_eq_nil_iff]
  cases n.isTrivia <;> simp

end Node

end TriviaTree
