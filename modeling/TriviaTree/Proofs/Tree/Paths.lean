import Mathlib
import TriviaTree.Placement.Slot
import TriviaTree.Proofs.Tree.Fields

/-!
The numbered nodes of a tree and the ways to them.

The number of a node is its place in the list (`FlatTree.id_of_get?`). A node other than the root
stands in a slot of another, and its way is the way to that node with the slot added
(`exists_parent`); so whatever passes from nodes to the children in their slots holds of all nodes
(`flatten_induction`). Following a way from the root leads to its node (`descend?_way`), and every
entry on it names a node above (`exists_ancestor`).
-/

set_option autoImplicit false

namespace TriviaTree

variable {f : FlatNode} {n : Node} {id : Nat}

/-! ### Slots -/

namespace Kind

variable {α : Type} {k : Kind α} {slot : Slot} {c : α}

/-- A slot names a field of the kind; in a sequence it also names a place. -/
theorem mem_slots_iff : (slot, c) ∈ k.slots ↔ ∃ cs, (slot.field, cs) ∈ k.entries ∧
    slot.field.isSequence = slot.index.isSome ∧ cs[slot.index.getD 0]? = some c := by
  obtain ⟨field, index⟩ := slot
  simp only [slots, List.mem_flatMap, Prod.exists]
  constructor
  · rintro ⟨field', cs, hentry, hslot⟩
    unfold slotsOf at hslot
    split at hslot
    · next hsequence =>
      obtain ⟨i, hi, hpair⟩ := List.mem_mapIdx.1 hslot
      cases hpair
      exact ⟨cs, hentry, hsequence, List.getElem?_eq_getElem hi⟩
    · next hsequence =>
      obtain ⟨c', hc', hpair⟩ := List.mem_map.1 hslot
      cases hpair
      rw [Bool.not_eq_true] at hsequence
      rw [(admits_of_mem_entries hentry).eq_singleton hsequence hc'] at hentry
      exact ⟨[c], hentry, hsequence, rfl⟩
  · rintro ⟨cs, hentry, hsequence, hc⟩
    refine ⟨field, cs, hentry, ?_⟩
    cases index with
    | some i =>
        obtain ⟨hlength, rfl⟩ := List.getElem?_eq_some_iff.1 hc
        rw [slotsOf, if_pos (by simp [hsequence])]
        exact List.mem_mapIdx.2 ⟨i, hlength, rfl⟩
    | none =>
        rw [slotsOf, if_neg (by simp [hsequence])]
        exact List.mem_map_of_mem (List.mem_of_getElem? hc)

/-- The child in a slot is found by the names of the slot. -/
theorem child?_of_mem_slots (h : (slot, c) ∈ k.slots) :
    k.child? slot.field.name slot.index = some c := by
  obtain ⟨cs, hentry, hplace⟩ := mem_slots_iff.1 h
  exact child?_eq_some_iff.2 ⟨slot.field, cs, fieldNamed?_eq_some_iff.2 ⟨hentry, rfl⟩, hplace⟩

theorem field_of_mem_slotsOf {field : Field} {cs : List α} (h : (slot, c) ∈ slotsOf field cs) :
    slot.field = field := by
  unfold slotsOf at h
  split at h
  · obtain ⟨i, hi, hpair⟩ := List.mem_mapIdx.1 h
    cases hpair
    rfl
  · obtain ⟨c', hc', hpair⟩ := List.mem_map.1 h
    cases hpair
    rfl

theorem nodup_slotsOf {field : Field} {cs : List α} (admits : field.shape.Admits cs) :
    ((slotsOf field cs).map (·.1)).Nodup := by
  unfold slotsOf
  split
  · have hindices : (cs.mapIdx fun i c => ((⟨field, some i⟩ : Slot), c)).map (·.1) =
        (List.range cs.length).map fun i => ⟨field, some i⟩ := by
      refine List.ext_getElem? fun i => ?_
      cases hi : cs[i]? with
      | none => simp [List.getElem?_eq_none_iff.1 hi]
      | some c => simp [(List.getElem?_eq_some_iff.1 hi).1]
    rw [hindices]
    exact List.nodup_range.map fun i j h => by simpa using h
  · next hsequence =>
    cases cs with
    | nil => simp
    | cons c cs => simp [admits.eq_singleton (by simpa using hsequence) List.mem_cons_self]

/-- No two children are in the same slot. -/
theorem nodup_slots (k : Kind α) : (k.slots.map (·.1)).Nodup := by
  have hfields : k.entries.Pairwise (·.1 ≠ ·.1) := by
    rw [← List.pairwise_map, map_fst_entries]
    exact List.Nodup.of_map _ k.nodup_fieldNames
  rw [slots, List.map_flatMap, List.nodup_flatMap]
  refine ⟨fun entry hentry => nodup_slotsOf (admits_of_mem_entries hentry), ?_⟩
  refine hfields.imp fun {a b} hne => List.disjoint_left.2 fun slot ha hb => hne ?_
  obtain ⟨entry, hentry, rfl⟩ := List.mem_map.1 ha
  obtain ⟨entry', hentry', hslot⟩ := List.mem_map.1 hb
  rw [← field_of_mem_slotsOf hentry, ← field_of_mem_slotsOf hentry', hslot]

theorem map_snd_slots (k : Kind α) : k.slots.map (·.2) = k.children := by
  have hcontents : k.entries.map (·.2) = k.contents :=
    List.map_snd_zip (le_of_eq k.length_contents)
  rw [slots, List.map_flatMap, children, ← hcontents, ← List.flatMap_def]
  simp only [map_snd_slotsOf]

end Kind

/-! ### Numbered lists -/

section NumberFrom

variable {β : Type}

/-- What is numbered comes from one of the lists, which is there as a whole. -/
theorem exists_of_mem_numberFrom {makes : List (Nat → List β)} {first : Nat} {b : β}
    (h : b ∈ numberFrom first makes) : ∃ make ∈ makes, ∃ i, first ≤ i ∧ b ∈ make i ∧
      ∀ b' ∈ make i, b' ∈ numberFrom first makes := by
  induction makes generalizing first with
  | nil => simp [numberFrom] at h
  | cons make makes ih =>
      simp only [numberFrom, List.mem_append] at h ⊢
      rcases h with h | h
      · exact ⟨make, List.mem_cons_self, first, le_rfl, h, fun b' hb' => .inl hb'⟩
      · obtain ⟨make', hmake', i, hi, hb, hall⟩ := ih h
        exact ⟨make', List.mem_cons_of_mem _ hmake', i, by omega, hb, fun b' hb' => .inr (hall b' hb')⟩

/-- Every list is there as a whole. -/
theorem exists_mem_numberFrom {makes : List (Nat → List β)} {make : Nat → List β}
    (h : make ∈ makes) (first : Nat) : ∃ i, ∀ b ∈ make i, b ∈ numberFrom first makes := by
  induction makes generalizing first with
  | nil => simp at h
  | cons made makes ih =>
      simp only [numberFrom, List.mem_append]
      rcases List.mem_cons.1 h with rfl | h
      · exact ⟨first, fun b hb => .inl hb⟩
      · obtain ⟨i, hi⟩ := ih h (first + (made first).length)
        exact ⟨i, fun b hb => .inr (hi b hb)⟩

theorem pairwise_numberFrom {R : β → β → Prop} {makes : List (Nat → List β)}
    (hwithin : ∀ make ∈ makes, ∀ i, (make i).Pairwise R)
    (hbetween : makes.Pairwise fun make make' => ∀ i j, ∀ b ∈ make i, ∀ b' ∈ make' j, R b b')
    (first : Nat) : (numberFrom first makes).Pairwise R := by
  induction makes generalizing first with
  | nil => exact .nil
  | cons make makes ih =>
      obtain ⟨hfirst, hrest⟩ := List.pairwise_cons.1 hbetween
      refine List.pairwise_append.2 ⟨hwithin make List.mem_cons_self first, ?_, ?_⟩
      · exact ih (List.forall_mem_cons.1 hwithin).2 hrest _
      · intro b hb b' hb'
        obtain ⟨make', hmake', j, _, hj, _⟩ := exists_of_mem_numberFrom hb'
        exact hfirst make' hmake' first j b hb b' hj

end NumberFrom

namespace Node

/-- The nodes of a tree are its root and the nodes of the trees in its slots. -/
theorem flattenFrom_eq (n : Node) (id : Nat) (way : Path) :
    n.flattenFrom id way = ⟨id, n, way⟩ :: numberFrom (id + 1) (n.kind.slots.map fun entry i =>
      entry.2.flattenFrom i (way ++ [⟨id, some entry.1.field, entry.1.index⟩])) := by
  rw [flattenFrom]
  congr 2
  exact map_attach (fun entry i =>
    entry.2.flattenFrom i (way ++ [⟨id, some entry.1.field, entry.1.index⟩])) n.kind.slots

/-- Numbers go up by one. -/
theorem map_id_flattenFrom (n : Node) : ∀ (id : Nat) (way : Path),
    (n.flattenFrom id way).map (·.id) = List.range' id (n.flattenFrom id way).length := by
  induction n with
  | step n ih =>
    intro id way
    rw [flattenFrom_eq, List.map_cons, List.length_cons, List.range'_succ]
    congr 1
    have hslots : ∀ entry ∈ n.kind.slots, entry.2 ∈ n.children :=
      fun entry h => Kind.mem_children_of_mem_slots h
    generalize n.kind.slots = slots at *
    generalize id + 1 = first
    induction slots generalizing first with
    | nil => simp [numberFrom]
    | cons entry slots ih' =>
        simp only [List.map_cons, numberFrom, List.map_append, List.length_append]
        rw [ih entry.2 (hslots entry List.mem_cons_self),
          ih' (List.forall_mem_cons.1 hslots).2, List.range'_append_1]

/-- A node other than the root stands in a slot of a node before it. -/
theorem exists_parent (n : Node) : ∀ (id : Nat) (way : Path), ∀ f ∈ n.flattenFrom id way,
    f = ⟨id, n, way⟩ ∨ ∃ p ∈ n.flattenFrom id way, ∃ slot, (slot, f.node) ∈ p.node.kind.slots ∧
      f.way = p.way ++ [⟨p.id, some slot.field, slot.index⟩] := by
  induction n with
  | step n ih =>
    intro id way f hf
    have hroot : (⟨id, n, way⟩ : FlatNode) ∈ n.flattenFrom id way := by
      rw [flattenFrom_eq]
      exact List.mem_cons_self
    rw [flattenFrom_eq, List.mem_cons] at hf
    refine hf.imp_right fun hf => ?_
    obtain ⟨make, hmake, i, _, hfi, hall⟩ := exists_of_mem_numberFrom hf
    obtain ⟨⟨slot, c⟩, hslot, rfl⟩ := List.mem_map.1 hmake
    rcases ih c (Kind.mem_children_of_mem_slots hslot) i _ f hfi with rfl | ⟨p, hp, slot', h⟩
    · exact ⟨_, hroot, slot, hslot, rfl⟩
    · refine ⟨p, ?_, slot', h⟩
      rw [flattenFrom_eq]
      exact List.mem_cons_of_mem _ (hall p hp)

/-- Every child of a node is a node, by way of its slot. -/
theorem exists_child (n : Node) : ∀ (id : Nat) (way : Path), ∀ p ∈ n.flattenFrom id way,
    ∀ {slot : Slot} {c : Node}, (slot, c) ∈ p.node.kind.slots →
      ∃ f ∈ n.flattenFrom id way, f.node = c ∧
        f.way = p.way ++ [⟨p.id, some slot.field, slot.index⟩] := by
  induction n with
  | step n ih =>
    intro id way p hp slot c hslot
    rw [flattenFrom_eq, List.mem_cons] at hp
    simp only [flattenFrom_eq n, List.mem_cons]
    rcases hp with rfl | hp
    · obtain ⟨i, hi⟩ := exists_mem_numberFrom (List.mem_map.2 ⟨(slot, c), hslot, rfl⟩) (id + 1)
      have hroot : (⟨i, c, way ++ [⟨id, some slot.field, slot.index⟩]⟩ : FlatNode) ∈
          c.flattenFrom i (way ++ [⟨id, some slot.field, slot.index⟩]) := by
        rw [flattenFrom_eq]
        exact List.mem_cons_self
      exact ⟨_, .inr (hi _ hroot), rfl, rfl⟩
    · obtain ⟨make, hmake, i, _, hpi, hall⟩ := exists_of_mem_numberFrom hp
      obtain ⟨⟨slot', c'⟩, hslot', rfl⟩ := List.mem_map.1 hmake
      obtain ⟨f, hf, hnode, hway⟩ :=
        ih c' (Kind.mem_children_of_mem_slots hslot') i _ p hpi hslot
      exact ⟨f, .inr (hall f hf), hnode, hway⟩

theorem isPrefix_way {way : Path} (h : f ∈ n.flattenFrom id way) : way <+: f.way := by
  induction hlength : f.way.length using Nat.strong_induction_on generalizing f with
  | _ length ih =>
    rcases n.exists_parent id way f h with rfl | ⟨p, hp, slot, _, hway⟩
    · exact List.prefix_rfl
    · refine (ih p.way.length (by simp [← hlength, hway]) hp rfl).trans ?_
      rw [hway]
      exact List.prefix_append _ _

/-- No two nodes are reached by the same way. -/
theorem pairwise_way (n : Node) : ∀ (id : Nat) (way : Path),
    (n.flattenFrom id way).Pairwise (·.way ≠ ·.way) := by
  induction n with
  | step n ih =>
    intro id way
    rw [flattenFrom_eq, List.pairwise_cons]
    refine ⟨fun f hf => ?_, pairwise_numberFrom ?_ ?_ _⟩
    · obtain ⟨make, hmake, i, _, hfi, _⟩ := exists_of_mem_numberFrom hf
      obtain ⟨⟨slot, c⟩, _, rfl⟩ := List.mem_map.1 hmake
      intro heq
      have hlength := (isPrefix_way hfi).length_le
      simp [← heq] at hlength
    · intro make hmake i
      obtain ⟨⟨slot, c⟩, hslot, rfl⟩ := List.mem_map.1 hmake
      exact ih c (Kind.mem_children_of_mem_slots hslot) i _
    · rw [List.pairwise_map]
      refine (List.pairwise_map.1 n.kind.nodup_slots).imp ?_
      rintro ⟨slot, c⟩ ⟨slot', c'⟩ hne i j f hf g hg heq
      -- the ways part where the slots do
      have hsame := List.prefix_of_prefix_length_le (isPrefix_way hf) (heq ▸ isPrefix_way hg)
        (by simp)
      have hentry := List.append_cancel_left (hsame.eq_of_length (by simp))
      simp only [List.cons.injEq, PathEntry.mk.injEq, Option.some.injEq, true_and,
        and_true] at hentry
      exact hne (by
        cases slot
        cases slot'
        simp_all)

theorem le_id_of_mem {way : Path} (h : f ∈ n.flattenFrom id way) : id ≤ f.id := by
  have hid : f.id ∈ (n.flattenFrom id way).map (·.id) := List.mem_map_of_mem h
  rw [map_id_flattenFrom] at hid
  exact (List.mem_range'_1.1 hid).1

theorem lt_id_of_mem_tail {way : Path} (h : f ∈ (n.flattenFrom id way).tail) : id < f.id := by
  have hid : f.id ∈ ((n.flattenFrom id way).map (·.id)).tail := by
    rw [← List.map_tail]
    exact List.mem_map_of_mem h
  rw [map_id_flattenFrom, List.tail_range'] at hid
  exact (List.mem_range'_1.1 hid).1

/-- In a tree right below the node with number `id` only the root has it as its parent. -/
theorem countP_parent_below (n : Node) {first : Nat} (hfirst : id < first) (way : Path)
    (slot : Slot) :
    (n.flattenFrom first (way ++ [⟨id, some slot.field, slot.index⟩])).countP
      (·.parent? = some id) = 1 := by
  have hbelow : ∀ f ∈ (n.flattenFrom first (way ++ [⟨id, some slot.field, slot.index⟩])).tail,
      ¬ decide (f.parent? = some id) = true := by
    intro f hf
    have hid := lt_id_of_mem_tail hf
    rcases n.exists_parent _ _ f (List.mem_of_mem_tail hf) with rfl | ⟨p, hp, slot', _, hway⟩
    · exact absurd hid (lt_irrefl _)
    · have hle := le_id_of_mem hp
      simp only [FlatNode.parent?, hway, List.getLast?_append, List.getLast?_singleton,
        Option.some_or, Option.map_some, Option.some.injEq, decide_eq_true_eq]
      omega
  have hnone := List.countP_eq_zero.2 hbelow
  rw [flattenFrom_eq] at hnone ⊢
  rw [List.tail_cons] at hnone
  rw [List.countP_cons, hnone]
  simp [FlatNode.parent?]

/-- The nodes whose parent is the root are its children. -/
theorem countP_parent_flattenFrom (n : Node) (id : Nat) (way : Path) :
    (n.flattenFrom id way).tail.countP (·.parent? = some id) = n.children.length := by
  rw [flattenFrom_eq, List.tail_cons]
  show _ = n.kind.children.length
  rw [← n.kind.map_snd_slots, List.length_map]
  have hfirst : id < id + 1 := id.lt_succ_self
  generalize id + 1 = first at hfirst
  generalize n.kind.slots = slots
  induction slots generalizing first with
  | nil => simp [numberFrom]
  | cons entry slots ih =>
      simp only [List.map_cons, numberFrom, List.countP_append, List.length_cons]
      rw [countP_parent_below _ hfirst, ih _ (by omega), Nat.add_comm]

end Node

namespace FlatTree

/-- The number of a node is its place. -/
theorem id_of_get? (h : n.flatten.get? id = some f) : f.id = id := by
  have hids := congrArg (·[id]?) (n.map_id_flattenFrom 0 [])
  have hlt : id < (n.flattenFrom 0 []).length := (List.getElem?_eq_some_iff.1 h).1
  simp only [List.getElem?_map, List.getElem?_range' hlt] at hids
  rw [show (n.flattenFrom 0 [])[id]? = some f from h] at hids
  simpa using hids

theorem get?_id (h : f ∈ n.flatten.nodes) : n.flatten.get? f.id = some f := by
  obtain ⟨id, hget⟩ := List.getElem?_of_mem h
  rwa [id_of_get? hget]

/-- A node is told by its number. -/
theorem eq_of_id_eq {g : FlatNode} (hf : f ∈ n.flatten.nodes) (hg : g ∈ n.flatten.nodes)
    (hid : f.id = g.id) : f = g := by
  have hget := get?_id hf
  rw [hid, get?_id hg] at hget
  exact (Option.some.inj hget).symm

theorem mem_of_get? (h : n.flatten.get? id = some f) : f ∈ n.flatten.nodes :=
  List.mem_of_getElem? h

theorem root_mem (n : Node) : (⟨0, n, []⟩ : FlatNode) ∈ n.flatten.nodes := by
  rw [Node.flatten, Node.flattenFrom_eq]
  exact List.mem_cons_self

theorem get?_zero (n : Node) : n.flatten.get? 0 = some ⟨0, n, []⟩ :=
  get?_id (root_mem n)

/-- What holds of the root, and of every node in a slot of a node of which it holds, holds of all
nodes of the tree. -/
theorem flatten_induction {motive : FlatNode → Prop} (root : motive ⟨0, n, []⟩)
    (child : ∀ p ∈ n.flatten.nodes, motive p → ∀ f ∈ n.flatten.nodes, ∀ slot,
      (slot, f.node) ∈ p.node.kind.slots →
      f.way = p.way ++ [⟨p.id, some slot.field, slot.index⟩] → motive f) :
    ∀ f ∈ n.flatten.nodes, motive f := by
  intro f
  induction hlength : f.way.length generalizing f with
  | zero =>
      intro hf
      rcases n.exists_parent 0 [] f hf with rfl | ⟨p, _, slot, _, hway⟩
      · exact root
      · simp [hway] at hlength
  | succ length ih =>
      intro hf
      rcases n.exists_parent 0 [] f hf with rfl | ⟨p, hp, slot, hslot, hway⟩
      · exact root
      · exact child p hp (ih p (by simpa [hway] using hlength) hp) f hf slot hslot hway

theorem descend?_append (n : Node) (steps more : List (String × Option Nat)) :
    n.descend? (steps ++ more) = (n.descend? steps).bind (·.descend? more) := by
  induction steps generalizing n with
  | nil => rfl
  | cons step steps ih =>
      simp only [List.cons_append, Node.descend?]
      cases n.kind.child? step.1 step.2 with
      | none => rfl
      | some c => exact ih c

theorem eq_root_of_way_eq_nil (hf : f ∈ n.flatten.nodes) (hway : f.way = []) : f = ⟨0, n, []⟩ := by
  rcases n.exists_parent 0 [] f hf with hroot | ⟨p, _, slot, _, hparent⟩
  · exact hroot
  · simp [hway] at hparent

/-- A node is told by the way to it. -/
theorem eq_of_way_eq {g : FlatNode} (hf : f ∈ n.flatten.nodes) (hg : g ∈ n.flatten.nodes)
    (hway : f.way = g.way) : f = g := by
  by_contra hne
  have : Std.Symm fun f g : FlatNode => f.way ≠ g.way := ⟨fun _ _ h => h.symm⟩
  exact (n.pairwise_way 0 []).forall hf hg hne hway

/-- The steps of a way from the root lead to its node. -/
theorem descend?_way : ∀ f ∈ n.flatten.nodes,
    n.descend? (f.way.filterMap (·.step?)) = some f.node := by
  refine flatten_induction rfl ?_
  intro p _ ih f _ slot hslot hway
  rw [hway, List.filterMap_append, descend?_append, ih]
  simp [PathEntry.step?, Node.descend?, Kind.child?_of_mem_slots hslot]

/-- Every entry on a way names a node above, and the slot taken there. -/
theorem exists_ancestor : ∀ f ∈ n.flatten.nodes, ∀ (above below : Path)
    (entry : PathEntry), f.way = above ++ entry :: below →
      ∃ a ∈ n.flatten.nodes, a.way = above ∧
        ∃ slot c, (slot, c) ∈ a.node.kind.slots ∧ entry = ⟨a.id, some slot.field, slot.index⟩ := by
  refine flatten_induction ?_ ?_
  · intro above below entry hway
    simp at hway
  · intro p hp ih f hf slot hslot hfway above below entry hway
    rw [hfway] at hway
    rcases List.eq_nil_or_concat below with rfl | ⟨below, last, rfl⟩
    · obtain ⟨rfl, hentry⟩ := List.append_inj' hway rfl
      exact ⟨p, hp, rfl, slot, f.node, hslot, by simpa using hentry.symm⟩
    · rw [List.concat_eq_append, ← List.cons_append, ← List.append_assoc] at hway
      exact ih above below entry (List.append_inj' hway rfl).1

/-- A way through a slot leads through the node there, which is the node itself when nothing comes
after. -/
theorem exists_through (hf : f ∈ n.flatten.nodes) {above below : Path} {entry : PathEntry}
    (hway : f.way = above ++ entry :: below) :
    ∃ a ∈ n.flatten.nodes, ∃ y ∈ n.flatten.nodes, ∃ slot, a.way = above ∧
      (slot, y.node) ∈ a.node.kind.slots ∧ entry = ⟨a.id, some slot.field, slot.index⟩ ∧
      y.way = above ++ [entry] ∧ (below = [] → y = f) := by
  have ⟨y, hy, hyway, hself⟩ : ∃ y ∈ n.flatten.nodes, y.way = above ++ [entry] ∧
      (below = [] → y = f) := by
    cases below with
    | nil => exact ⟨f, hf, hway, fun _ => rfl⟩
    | cons next below =>
        obtain ⟨y, hy, hyway, _⟩ := exists_ancestor f hf (above ++ [entry]) below next (by simp [hway])
        exact ⟨y, hy, hyway, by simp⟩
  rcases n.exists_parent 0 [] y hy with rfl | ⟨a, ha, slot, hslot, haway⟩
  · simp at hyway
  · obtain ⟨rfl, hentry⟩ := List.append_inj' (haway.symm.trans hyway) rfl
    exact ⟨a, ha, y, hy, slot, rfl, hslot, by simpa using hentry.symm, hyway, hself⟩

end FlatTree

end TriviaTree
