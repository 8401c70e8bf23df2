import Mathlib
import TriviaTree.Placement.Plan
import TriviaTree.Proofs.Tree.Fields

/-!
Insertions one after the other, and all at once.

`Node.insertEach` makes insertions in a row, each into the tree that the one before has left, so an
insertion can move the slots of those still to come. `Node.insertTogether` makes them all at once:
every slot is a slot of the tree as it was, and a sequence with children `c₀ … cₙ₋₁` becomes
`T₀ c₀' T₁ c₁' … cₙ₋₁' Tₙ`, where `Tᵢ` are the nodes for slot `i` and `cᵢ'` is `cᵢ` with its own
insertions made.

The two agree when the row runs from the greatest key down (`insertEach_reverse`). What carries the
argument is a single insertion into a tree that has received only insertions of greater or equal
key (`insertBelow_insertTogether`): its slot, and every child on the way to it, still is where it
was.
-/

set_option autoImplicit false

namespace TriviaTree

variable {point : InsertionPoint} {i : Nat} {plan : List Planned} {field : String}

/-! ### Insertions all at once -/

/-- A node to be inserted, its slot, and the place in the source text that orders it among the
nodes for one slot. -/
structure Insertion where
  point : InsertionPoint
  node : Node
  start : Location

namespace Insertion

/-- The insertion goes right before place `i` of a sequence of the node itself. -/
def isHere (field : String) (i : Nat) (e : Insertion) : Bool :=
  e.point.steps = [] && e.point.field = field && e.point.index = i

/-- The insertion as the child in a slot sees it, when it goes through that slot. -/
def below? (step : String × Option Nat) (e : Insertion) : Option Insertion :=
  match e.point.steps with
  | [] => none
  | first :: rest =>
      if first = step then some { e with point := { e.point with steps := rest } } else none

end Insertion

/-- The nodes for one slot. -/
def nodesFor (es : List Insertion) (field : String) (i : Nat) : List Node :=
  (es.filter (·.isHere field i)).map (·.node)

/-- The insertions that go through one slot. -/
def insertionsBelow (es : List Insertion) (step : String × Option Nat) : List Insertion :=
  es.filterMap (·.below? step)

/-- `groups i` right before the item in place `i`, and the last group at the end. -/
def weave {α : Type} (groups : Nat → List α) : List α → List α
  | [] => groups 0
  | x :: xs => groups 0 ++ x :: weave (fun i => groups (i + 1)) xs

/-- A tree with all insertions made at once. -/
def Node.insertTogether (n : Node) (es : List Insertion) : Node :=
  { n with
    kind := n.kind.withContents (n.kind.entries.attach.map fun ⟨(field, cs), _⟩ =>
      if field.isSequence then
        weave (nodesFor es field.name) (cs.attach.mapIdx fun i ⟨c, _⟩ =>
          c.insertTogether (insertionsBelow es (field.name, some i)))
      else
        cs.attach.map fun ⟨c, _⟩ => c.insertTogether (insertionsBelow es (field.name, none))) }
termination_by sizeOf n
decreasing_by
  all_goals exact sizeOf_lt_of_mem_contents (List.of_mem_zip ‹_›).2 ‹_›

/-- The contents of a field with the insertions into it and below it made. -/
def Field.insertTogether (es : List Insertion) (field : Field) (cs : List Node) : List Node :=
  if field.isSequence then
    weave (nodesFor es field.name) (cs.mapIdx fun i c =>
      c.insertTogether (insertionsBelow es (field.name, some i)))
  else cs.map fun c => c.insertTogether (insertionsBelow es (field.name, none))

theorem mapIdx_attach {α β : Type} (f : Nat → α → β) (xs : List α) :
    (xs.attach.mapIdx fun i x => f i x.1) = xs.mapIdx f :=
  List.ext_getElem (by simp) (by simp)

theorem Node.insertTogether_eq (n : Node) (es : List Insertion) :
    n.insertTogether es = { n with kind := n.kind.mapFields (Field.insertTogether es) } := by
  rw [Node.insertTogether]
  congr 1
  unfold Kind.mapFields
  congr 1
  refine Eq.trans (List.map_congr_left fun entry _ => ?_) (List.attach_map_val
    (f := fun entry : Field × List Node => Field.insertTogether es entry.1 entry.2))
  obtain ⟨⟨field, cs⟩, mem⟩ := entry
  simp only [Field.insertTogether]
  split
  · exact congrArg (weave _) (mapIdx_attach
      (fun i (c : Node) => c.insertTogether (insertionsBelow es (field.name, some i))) cs)
  · exact List.attach_map_val
      (f := fun c : Node => c.insertTogether (insertionsBelow es (field.name, none)))

theorem Field.keepsShape_insertTogether (fields : List Field) (es : List Insertion) :
    Kind.KeepsShape fields (Field.insertTogether es) := by
  rintro ⟨name, shape, operands⟩ - cs admits
  cases shape with
  | sequence => trivial
  | _ => exact admits.map fun c => c.insertTogether (insertionsBelow es (name, none))

theorem Node.entries_insertTogether (n : Node) (es : List Insertion) :
    (n.insertTogether es).kind.entries =
      n.kind.entries.map fun entry => (entry.1, entry.1.insertTogether es entry.2) := by
  rw [Node.insertTogether_eq]
  exact Kind.entries_mapFields _ (Field.keepsShape_insertTogether _ es)

/-! ### Weaving -/

section Weave

variable {α : Type}

theorem length_le_length_weave (groups : Nat → List α) (xs : List α) :
    xs.length ≤ (weave groups xs).length := by
  induction xs generalizing groups with
  | nil => simp
  | cons x xs ih =>
      have := ih fun i => groups (i + 1)
      simp only [weave, List.length_append, List.length_cons]
      omega

theorem weave_empty (xs : List α) : weave (fun _ => []) xs = xs := by
  induction xs with
  | nil => rfl
  | cons x xs ih => simp [weave, ih]

/-- A place before which every group is empty is still the place it was. -/
theorem getElem?_weave {groups : Nat → List α} {xs : List α} (empty : ∀ j ≤ i, groups j = [])
    (inside : i < xs.length) : (weave groups xs)[i]? = xs[i]? := by
  induction xs generalizing groups i with
  | nil => simp at inside
  | cons x xs ih =>
      rw [weave, empty 0 (Nat.zero_le i), List.nil_append]
      cases i with
      | zero => rfl
      | succ i =>
          simp only [List.getElem?_cons_succ]
          exact ih (fun j hj => empty (j + 1) (by omega)) (by simpa using inside)

theorem set_weave {groups : Nat → List α} {xs : List α} (y : α) (empty : ∀ j ≤ i, groups j = [])
    (inside : i < xs.length) : (weave groups xs).set i y = weave groups (xs.set i y) := by
  induction xs generalizing groups i with
  | nil => simp at inside
  | cons x xs ih =>
      have none := empty 0 (Nat.zero_le i)
      cases i with
      | zero => simp [weave, none]
      | succ i =>
          have later : ∀ j ≤ i, groups (j + 1) = [] := fun j hj => empty (j + 1) (by omega)
          have := ih later (by simpa using inside)
          simp [weave, none, this]

/-- An insertion at place `i` opens group `i`, when the groups before it are empty. -/
theorem insertIdx_weave {groups : Nat → List α} {xs : List α} (y : α)
    (empty : ∀ j < i, groups j = []) (inside : i ≤ xs.length) :
    (weave groups xs).insertIdx i y =
      weave (fun j => if j = i then y :: groups i else groups j) xs := by
  induction xs generalizing groups i with
  | nil =>
      obtain rfl : i = 0 := by simpa using inside
      simp [weave]
  | cons x xs ih =>
      cases i with
      | zero => simp [weave]
      | succ i =>
          have none := empty 0 (Nat.succ_pos i)
          have later : ∀ j < i, groups (j + 1) = [] := fun j hj => empty (j + 1) (by omega)
          have := ih later (by simpa using inside)
          simp [weave, none, this]

end Weave

/-- Without insertions a tree stays as it is. -/
theorem Node.insertTogether_nil (n : Node) : n.insertTogether [] = n := by
  induction n with
  | step n ih =>
      have same : n.kind.mapFields (Field.insertTogether []) = n.kind := by
        refine Kind.mapFields_self _ fun field cs mem => ?_
        have child : ∀ c ∈ cs, c.insertTogether [] = c := fun c hc =>
          ih c (List.mem_flatten.2 ⟨cs, (List.of_mem_zip mem).2, hc⟩)
        unfold Field.insertTogether
        split
        · refine (weave_empty _).trans (List.ext_getElem (by simp) fun i inside _ => ?_)
          rw [List.getElem_mapIdx]
          exact child _ (List.getElem_mem _)
        · exact (List.map_congr_left child).trans (List.map_id _)
      rw [Node.insertTogether_eq, same]
      cases n
      rfl

/-! ### Slots and their keys -/

/-- The slot is in a sequence of the node that the steps lead to, at most right after the last
child. -/
def InsertionPoint.Fits (point : InsertionPoint) (n : Node) : Prop :=
  ∃ owner children, n.descend? point.steps = some owner ∧
    owner.kind.sequence? point.field = some children ∧ point.index ≤ children.length

/-- The slot as the node sees it that the first step leads to. -/
def InsertionPoint.advance (point : InsertionPoint) : InsertionPoint :=
  { point with steps := point.steps.tail }

/-- The place of a slot in a tree. -/
def InsertionPoint.place (point : InsertionPoint) (n : Node) : List (Nat × Nat) :=
  match point.key n with
  | .ok key => key
  | .error _ => []

/-- A slot of the node itself: the sequence, and where it stands among the fields. -/
theorem InsertionPoint.Fits.here {n : Node} (fits : point.Fits n) (own : point.steps = []) :
    ∃ field cs ordinal, n.kind.fieldNamed? point.field = some (field, cs) ∧
      field.isSequence = true ∧ point.index ≤ cs.length ∧
      n.kind.fieldIndex? point.field = some ordinal ∧
      point.key n = .ok [(ordinal, point.index)] := by
  obtain ⟨owner, cs, descends, sequence, inside⟩ := fits
  rw [own, Node.descend?, Option.some.injEq] at descends
  subst descends
  obtain ⟨field, found, isSequence⟩ := Kind.sequence?_eq_some_iff.1 sequence
  obtain ⟨ordinal, indexed⟩ := Kind.fieldIndex?_of_fieldNamed found
  exact ⟨field, cs, ordinal, found, isSequence, inside, indexed,
    by rw [InsertionPoint.key, own, Node.slotKey, indexed]⟩

/-- A slot below the node: the child on the way to it, and the key in terms of that child's. -/
theorem InsertionPoint.Fits.below {n : Node} {name : String} {place : Option Nat}
    {rest : List (String × Option Nat)} (fits : point.Fits n)
    (through : point.steps = (name, place) :: rest) :
    ∃ child ordinal, n.kind.child? name place = some child ∧ point.advance.Fits child ∧
      n.kind.fieldIndex? name = some ordinal ∧
      ∀ key, point.advance.key child = .ok key →
        point.key n = .ok ((ordinal, place.getD 0) :: key) := by
  obtain ⟨owner, cs, descends, sequence, inside⟩ := fits
  rw [through, Node.descend?] at descends
  cases stepped : n.kind.child? name place with
  | none => simp [stepped] at descends
  | some child =>
      rw [stepped] at descends
      have found : ∃ entry, n.kind.fieldNamed? name = some entry := by
        unfold Kind.child? at stepped
        cases found : n.kind.fieldNamed? name with
        | none => simp [found] at stepped
        | some entry => exact ⟨entry, rfl⟩
      obtain ⟨entry, found⟩ := found
      obtain ⟨ordinal, indexed⟩ := Kind.fieldIndex?_of_fieldNamed found
      refine ⟨child, ordinal, rfl, ⟨owner, cs, ?_, sequence, inside⟩, indexed, ?_⟩
      · rw [InsertionPoint.advance, through]
        exact descends
      · intro key keyed
        rw [InsertionPoint.advance, InsertionPoint.key, through] at keyed
        rw [InsertionPoint.key, through, Node.slotKey, indexed, stepped]
        simp only [List.tail_cons] at keyed
        simp [keyed, Except.map]

/-- Every slot that fits has a key, which is never empty. -/
theorem InsertionPoint.Fits.key_eq {n : Node} (fits : point.Fits n) :
    point.key n = .ok (point.place n) ∧ point.place n ≠ [] := by
  suffices ∃ key, point.key n = .ok key ∧ key ≠ [] by
    obtain ⟨key, keyed, nonempty⟩ := this
    have : point.place n = key := by rw [InsertionPoint.place, keyed]
    exact ⟨this ▸ keyed, this ▸ nonempty⟩
  generalize steps : point.steps = path
  induction path generalizing point n with
  | nil =>
      obtain ⟨_, _, ordinal, -, -, -, -, keyed⟩ := fits.here steps
      exact ⟨_, keyed, by simp⟩
  | cons step path ih =>
      obtain ⟨name, place⟩ := step
      obtain ⟨child, ordinal, -, fitsChild, -, keyed⟩ := fits.below steps
      obtain ⟨key, keyedChild, -⟩ := ih fitsChild (by rw [InsertionPoint.advance, steps]; rfl)
      exact ⟨_, keyed key keyedChild, by simp⟩

theorem InsertionPoint.place_eq {n : Node} {key : List (Nat × Nat)}
    (keyed : point.key n = .ok key) : point.place n = key := by
  rw [InsertionPoint.place, keyed]

/-- Keys that start at one field: the place decides, then what follows. -/
theorem keyOrder_cons_ne_gt {ordinal j : Nat} {as bs : List (Nat × Nat)} :
    keyOrder ((ordinal, i) :: as) ((ordinal, j) :: bs) ≠ .gt ↔
      i < j ∨ (i = j ∧ keyOrder as bs ≠ .gt) := by
  rcases Nat.lt_trichotomy i j with less | rfl | greater
  · simp [keyOrder, Nat.compare_eq_lt.2 less, less]
  · simp [keyOrder]
  · have : ¬ i < j ∧ i ≠ j := by omega
    simp [keyOrder, Nat.compare_eq_gt.2 greater, this]

/-! ### One insertion after the others -/

section Step

variable {e : Insertion} {es : List Insertion} {n : Node}

/-- How one more insertion into the node itself shows in the nodes for its slots. -/
theorem nodesFor_cons (own : e.point.steps = []) :
    nodesFor (e :: es) e.point.field =
      fun j => if j = e.point.index then e.node :: nodesFor es e.point.field e.point.index
        else nodesFor es e.point.field j := by
  funext j
  by_cases here : j = e.point.index
  · subst here
    simp [nodesFor, Insertion.isHere, own]
  · simp [nodesFor, Insertion.isHere, own, here, Ne.symm here]

theorem nodesFor_cons_of_ne (other : e.point.steps ≠ [] ∨ e.point.field ≠ field) :
    nodesFor (e :: es) field = nodesFor es field := by
  funext j
  rcases other with h | h <;> simp [nodesFor, Insertion.isHere, h]

theorem insertionsBelow_cons_of_ne {step : String × Option Nat}
    (other : ∀ rest, e.point.steps ≠ step :: rest) :
    insertionsBelow (e :: es) step = insertionsBelow es step := by
  have absent : e.below? step = none := by
    unfold Insertion.below?
    split
    · rfl
    · next first rest steps =>
      refine if_neg fun same => other rest ?_
      rw [steps, same]
  rw [insertionsBelow, List.filterMap_cons, absent]
  rfl

theorem insertionsBelow_cons {step : String × Option Nat} {rest : List (String × Option Nat)}
    (through : e.point.steps = step :: rest) :
    insertionsBelow (e :: es) step =
      { e with point := e.point.advance } :: insertionsBelow es step := by
  have present : e.below? step = some { e with point := e.point.advance } := by
    simp [Insertion.below?, InsertionPoint.advance, through]
  rw [insertionsBelow, List.filterMap_cons, present]
  rfl

/-- A field that an insertion neither goes into nor goes through. -/
theorem Field.insertTogether_cons {field : Field}
    (slots : e.point.steps ≠ [] ∨ e.point.field ≠ field.name)
    (through : ∀ place rest, e.point.steps ≠ (field.name, place) :: rest) (cs : List Node) :
    field.insertTogether (e :: es) cs = field.insertTogether es cs := by
  have below : ∀ place, insertionsBelow (e :: es) (field.name, place) =
      insertionsBelow es (field.name, place) :=
    fun place => insertionsBelow_cons_of_ne (through place)
  simp only [Field.insertTogether, below, nodesFor_cons_of_ne slots]

/-- A change of one field makes one more insertion when it does so in that field and the other
fields do not see it. -/
theorem modifyField_insertTogether {name : String} {field : Field} {cs : List Node}
    {change : List Node → List Node} (found : n.kind.fieldNamed? name = some (field, cs))
    (admits : ∀ ds, field.shape.Admits ds → field.shape.Admits (change ds))
    (here : change (field.insertTogether es cs) = field.insertTogether (e :: es) cs)
    (slots : e.point.steps ≠ [] ∨ e.point.field = name)
    (through : ∀ step rest, e.point.steps = step :: rest → step.1 = name) :
    (n.kind.mapFields (Field.insertTogether es)).modifyField name change =
      n.kind.mapFields (Field.insertTogether (e :: es)) := by
  rw [Kind.modifyField_eq, Kind.mapFields_mapFields _ (Field.keepsShape_insertTogether _ es)
    (Kind.keepsShape_changeAt found admits)]
  refine Kind.mapFields_congr _ fun other ds mem => ?_
  by_cases named : other.name = name
  · have same := Kind.fieldNamed?_eq_some_iff.2 ⟨mem, named⟩
    rw [found, Option.some.injEq, Prod.mk.injEq] at same
    obtain ⟨rfl, rfl⟩ := same
    rw [Kind.changeAt, if_pos named, here]
  · rw [Kind.changeAt, if_neg named, Field.insertTogether_cons]
    · exact slots.imp_right fun field same => named (same.symm.trans field)
    · exact fun place rest steps => named (through _ rest steps)

/-- The key of an insertion into a sequence of the node itself. -/
theorem InsertionPoint.Fits.place_of_isHere {j ordinal : Nat} (fits : e.point.Fits n)
    (here : e.isHere field j = true) (indexed : n.kind.fieldIndex? field = some ordinal) :
    e.point.place n = [(ordinal, j)] := by
  simp only [Insertion.isHere, Bool.and_eq_true, decide_eq_true_eq] at here
  obtain ⟨⟨own, rfl⟩, rfl⟩ := here
  obtain ⟨_, _, ordinal', -, -, -, indexed', keyed⟩ := fits.here own
  rw [indexed, Option.some.injEq] at indexed'
  rw [InsertionPoint.place_eq keyed, indexed']

/-- An insertion below one child of a sequence changes that child alone. -/
theorem mapIdx_insertTogether_cons {name : String} {rest : List (String × Option Nat)}
    {cs : List Node} {child : Node} (through : e.point.steps = (name, some i) :: rest)
    (atPlace : cs[i]? = some child) :
    (cs.mapIdx fun j c => c.insertTogether (insertionsBelow es (name, some j))).set i
        (child.insertTogether (insertionsBelow (e :: es) (name, some i))) =
      cs.mapIdx fun j c => c.insertTogether (insertionsBelow (e :: es) (name, some j)) := by
  obtain ⟨inside, rfl⟩ := List.getElem?_eq_some_iff.1 atPlace
  refine List.ext_getElem? fun j => ?_
  by_cases atChild : i = j
  · subst atChild
    simp [inside]
  · rw [List.getElem?_set_ne atChild, List.getElem?_mapIdx, List.getElem?_mapIdx,
      insertionsBelow_cons_of_ne fun rest' same => by
        rw [through, List.cons.injEq, Prod.mk.injEq, Option.some.injEq] at same
        exact atChild same.1.2]

variable (fits : e.point.Fits n) (others : ∀ x ∈ es, x.point.Fits n)
  (least : ∀ x ∈ es, keyOrder (e.point.place n) (x.point.place n) ≠ .gt)

include fits others least

/-- Nothing has been put before the slot of the least insertion. -/
theorem nodesFor_eq_nil_of_lt (own : e.point.steps = []) {j : Nat} (before : j < e.point.index) :
    nodesFor es e.point.field j = [] := by
  obtain ⟨_, _, ordinal, -, -, -, indexed, keyed⟩ := fits.here own
  rw [nodesFor, List.map_eq_nil_iff, List.filter_eq_nil_iff]
  intro x mem here
  have := least x mem
  rw [InsertionPoint.place_eq keyed, (others x mem).place_of_isHere here indexed,
    keyOrder_cons_ne_gt] at this
  omega

/-- The least insertion, when it goes into a sequence of the node itself. -/
theorem insertHere_insertTogether (own : e.point.steps = []) :
    (n.insertTogether es).insertHere e.point.field e.point.index e.node =
      .ok (n.insertTogether (e :: es)) := by
  obtain ⟨field, cs, -, found, isSequence, inside, -, -⟩ := fits.here own
  have named := (Kind.fieldNamed?_eq_some_iff.1 found).2
  have keeps := Field.keepsShape_insertTogether n.kind.fields es
  have woven : (n.kind.mapFields (Field.insertTogether es)).sequence? e.point.field =
      some (field.insertTogether es cs) :=
    Kind.sequence?_eq_some_iff.2
      ⟨field, by rw [Kind.fieldNamed?_mapFields _ keeps, found, Option.map_some], isSequence⟩
  have insideWoven : e.point.index ≤ (field.insertTogether es cs).length := by
    have := length_le_length_weave (nodesFor es field.name) (cs.mapIdx fun i c =>
      c.insertTogether (insertionsBelow es (field.name, some i)))
    rw [Field.insertTogether, if_pos isSequence]
    simp only [List.length_mapIdx] at this
    omega
  have kinds : (n.kind.mapFields (Field.insertTogether es)).insertChild e.point.field
      e.point.index e.node = n.kind.mapFields (Field.insertTogether (e :: es)) := by
    refine modifyField_insertTogether found (fun _ _ => Field.admits_of_isSequence isSequence _) ?_ (.inr rfl)
      (by simp [own])
    have belowSame : ∀ step, insertionsBelow (e :: es) step = insertionsBelow es step :=
      fun step => insertionsBelow_cons_of_ne fun rest => by simp [own]
    rw [Field.insertTogether, Field.insertTogether, if_pos isSequence, if_pos isSequence, named,
      nodesFor_cons own]
    simp only [belowSame]
    exact insertIdx_weave _ (fun j before => nodesFor_eq_nil_of_lt fits others least own before)
      (by simpa using inside)
  rw [Node.insertTogether_eq, Node.insertTogether_eq, Node.insertHere]
  simp only [woven, if_pos insideWoven, kinds]

/-- Nothing has been put before the child that the least insertion goes through, nor right before
it, since a slot comes before the slots below it. -/
theorem nodesFor_eq_nil_of_le {name : String} {rest : List (String × Option Nat)}
    (through : e.point.steps = (name, some i) :: rest) {j : Nat} (before : j ≤ i) :
    nodesFor es name j = [] := by
  obtain ⟨child, ordinal, -, fitsChild, indexed, keyed⟩ := fits.below through
  obtain ⟨keyedChild, nonempty⟩ := fitsChild.key_eq
  rw [nodesFor, List.map_eq_nil_iff, List.filter_eq_nil_iff]
  intro x mem here
  have := least x mem
  rw [InsertionPoint.place_eq (keyed _ keyedChild), (others x mem).place_of_isHere here indexed,
    keyOrder_cons_ne_gt] at this
  rcases this with less | ⟨-, notAfter⟩
  · simp only [Option.getD_some] at less
    omega
  · obtain ⟨first, tail, key⟩ := List.exists_cons_of_ne_nil nonempty
    rw [key] at notAfter
    exact notAfter rfl

section Through

variable {name : String} {place : Option Nat} {rest : List (String × Option Nat)} {child : Node}
  (through : e.point.steps = (name, place) :: rest)
  (stepped : n.kind.child? name place = some child)

include through stepped

/-- The insertions below the child that the least one goes through fit it, and the least one is
the least of them. -/
theorem least_below :
    e.point.advance.Fits child ∧ ∀ x ∈ insertionsBelow es (name, place), x.point.Fits child ∧
      keyOrder (e.point.advance.place child) (x.point.place child) ≠ .gt := by
  obtain ⟨_, ordinal, steppedE, fitsChild, indexed, keyed⟩ := fits.below through
  rw [stepped, Option.some.injEq] at steppedE
  subst steppedE
  refine ⟨fitsChild, fun x mem => ?_⟩
  obtain ⟨original, planned, below⟩ := List.mem_filterMap.1 mem
  obtain ⟨restX, throughX⟩ : ∃ restX, original.point.steps = (name, place) :: restX := by
    unfold Insertion.below? at below
    split at below
    · simp at below
    · next first restX steps =>
      split at below
      · next same => exact ⟨restX, by rw [steps, same]⟩
      · simp at below
  obtain rfl : { original with point := original.point.advance } = x := by
    simpa [Insertion.below?, InsertionPoint.advance, throughX] using below
  obtain ⟨_, ordinalX, steppedX, fitsX, indexedX, keyedX⟩ := (others original planned).below throughX
  rw [stepped, Option.some.injEq] at steppedX
  rw [indexed, Option.some.injEq] at indexedX
  subst steppedX indexedX
  refine ⟨fitsX, ?_⟩
  have := least original planned
  rw [InsertionPoint.place_eq (keyed _ fitsChild.key_eq.1),
    InsertionPoint.place_eq (keyedX _ fitsX.key_eq.1), keyOrder_cons_ne_gt] at this
  rcases this with less | ⟨-, notAfter⟩
  · omega
  · exact notAfter

/-- The child that the least insertion goes through is where it was, with its own insertions
made. -/
theorem child?_insertTogether :
    (n.kind.mapFields (Field.insertTogether es)).child? name place =
      some (child.insertTogether (insertionsBelow es (name, place))) := by
  have keeps := Field.keepsShape_insertTogether n.kind.fields es
  obtain ⟨field, cs, found, isSequence, atPlace⟩ := Kind.child?_eq_some_iff.1 stepped
  have named := (Kind.fieldNamed?_eq_some_iff.1 found).2
  refine Kind.child?_eq_some_iff.2 ⟨field, field.insertTogether es cs, ?_, isSequence, ?_⟩
  · rw [Kind.fieldNamed?_mapFields _ keeps, found, Option.map_some]
  · cases place with
    | none =>
        rw [Field.insertTogether, isSequence, named, if_neg (by simp), List.getElem?_map, atPlace]
        rfl
    | some i =>
        simp only [Option.isSome_some, Option.getD_some] at isSequence atPlace ⊢
        have inside : i < cs.length := (List.getElem?_eq_some_iff.1 atPlace).1
        rw [Field.insertTogether, if_pos isSequence, named, getElem?_weave
          (fun j before => nodesFor_eq_nil_of_le fits others least through before)
          (by simpa using inside), List.getElem?_mapIdx, atPlace]
        rfl

/-- Putting the child back with the least insertion made makes all insertions of the node. -/
theorem setChild_insertTogether :
    (n.kind.mapFields (Field.insertTogether es)).setChild name place
        (child.insertTogether (insertionsBelow (e :: es) (name, place))) =
      n.kind.mapFields (Field.insertTogether (e :: es)) := by
  have present := child?_insertTogether fits others least through stepped
  have slots : e.point.steps ≠ [] := by simp [through]
  have first : ∀ step rest, e.point.steps = step :: rest → step.1 = name := by
    simp only [through, List.cons.injEq]
    rintro step rest ⟨rfl, -⟩
    rfl
  obtain ⟨field, cs, found, isSequence, atPlace⟩ := Kind.child?_eq_some_iff.1 stepped
  obtain ⟨entry, named⟩ := Kind.fieldNamed?_eq_some_iff.1 found
  rw [Kind.setChild_eq present]
  refine modifyField_insertTogether found (fun _ admits => admits.set _ _) ?_ (.inl slots) first
  cases place with
  | none =>
      have single := (Kind.admits_of_mem_entries entry).eq_singleton isSequence
        (List.mem_of_getElem? atPlace)
      rw [Field.insertTogether, Field.insertTogether, isSequence, named, single]
      rfl
  | some i =>
      simp only [Option.isSome_some, Option.getD_some] at isSequence atPlace ⊢
      have inside : i < cs.length := (List.getElem?_eq_some_iff.1 atPlace).1
      rw [Field.insertTogether, Field.insertTogether, if_pos isSequence, if_pos isSequence, named,
        nodesFor_cons_of_ne (.inl slots),
        set_weave _ (fun j before => nodesFor_eq_nil_of_le fits others least through before)
          (by simpa using inside), mapIdx_insertTogether_cons through atPlace]

end Through

/-- An insertion into a tree that has received only insertions of greater or equal key. -/
theorem insertBelow_insertTogether :
    (n.insertTogether es).insertBelow e.point.steps e.point.field e.point.index e.node =
      .ok (n.insertTogether (e :: es)) := by
  generalize steps : e.point.steps = path
  -- The induction is on the way down: below the first step the argument is the same with the
  -- insertions that take that step, seen from the child.
  induction path generalizing n e es with
  | nil => exact insertHere_insertTogether fits others least steps
  | cons step path ih =>
      obtain ⟨name, place⟩ := step
      obtain ⟨child, -, stepped, -⟩ := fits.below steps
      obtain ⟨fitsChild, below⟩ := least_below fits others least steps stepped
      have inChild := ih (e := { e with point := e.point.advance })
        fitsChild (fun x mem => (below x mem).1) (fun x mem => (below x mem).2)
        (by rw [InsertionPoint.advance, steps]; rfl)
      rw [← insertionsBelow_cons steps] at inChild
      have present := child?_insertTogether fits others least steps stepped
      have restored := setChild_insertTogether fits others least steps stepped
      rw [Node.insertTogether_eq, Node.insertTogether_eq, Node.insertBelow]
      simp only [present]
      have inChild' : (child.insertTogether (insertionsBelow es (name, place))).insertBelow path
          e.point.field e.point.index e.node =
          .ok (child.insertTogether (insertionsBelow (e :: es) (name, place))) := inChild
      rw [inChild', Except.map, restored]

end Step

/-! ### Insertions in a row -/

/-- Insertions one after the other, each into the tree that the one before has left. -/
def Node.insertEach (n : Node) : List Insertion → Except InsertionFault Node
  | [] => .ok n
  | e :: es => (n.insertAt e.point e.node).bind (·.insertEach es)

theorem Node.insertEach_append (n : Node) (es fs : List Insertion) :
    n.insertEach (es ++ fs) = (n.insertEach es).bind (·.insertEach fs) := by
  induction es generalizing n with
  | nil => rfl
  | cons e es ih =>
      simp only [List.cons_append, Node.insertEach]
      cases n.insertAt e.point e.node with
      | error fault => rfl
      | ok n => exact ih n

/-- From the greatest key down, insertions in a row are the insertions all at once. -/
theorem Node.insertEach_reverse {n : Node} {es : List Insertion}
    (trivia : ∀ e ∈ es, e.node.isTrivia = true) (fits : ∀ e ∈ es, e.point.Fits n)
    (sorted : es.Pairwise fun a b => keyOrder (a.point.place n) (b.point.place n) ≠ .gt) :
    n.insertEach es.reverse = .ok (n.insertTogether es) := by
  induction es with
  | nil => rw [Node.insertTogether_nil]; rfl
  | cons e es ih =>
      obtain ⟨least, sorted⟩ := List.pairwise_cons.1 sorted
      have others : ∀ x ∈ es, x.point.Fits n := fun x mem => fits x (.tail _ mem)
      have last := insertBelow_insertTogether (fits e (.head _)) others least
      rw [List.reverse_cons, Node.insertEach_append,
        ih (fun x mem => trivia x (.tail _ mem)) others sorted]
      simp only [Except.bind, Node.insertEach, Node.insertAt, trivia e (.head _), if_true, last]

/-! ### Stable sorting -/

section Sorting

variable {α : Type}

/-- A stable sort puts one more element, which came first, before all that it may come before. -/
theorem mergeSort_cons_eq {le : α → α → Bool}
    (trans : ∀ a b c, le a b = true → le b c = true → le a c = true)
    (total : ∀ a b, (le a b || le b a) = true) (a : α) (xs : List α) :
    (a :: xs).mergeSort le =
      (xs.mergeSort le).filter (!le a ·) ++ a :: (xs.mergeSort le).filter (le a ·) := by
  obtain ⟨before, after, sorted, rest, smaller⟩ := List.mergeSort_cons trans total a xs
  have ordered := List.pairwise_mergeSort trans total (a :: xs)
  rw [sorted, List.pairwise_append, List.pairwise_cons] at ordered
  have greater : ∀ b ∈ after, le a b = true := ordered.2.1.1
  rw [rest, List.filter_append, List.filter_append,
    List.filter_eq_self.2 fun b mem => by simpa using smaller b mem,
    List.filter_eq_nil_iff.2 fun b mem => by simp [greater b mem],
    List.filter_eq_nil_iff.2 fun b mem => by simpa using smaller b mem,
    List.filter_eq_self.2 fun b mem => by simpa using greater b mem, sorted]
  simp

/-- Two stable sorts that agree on the elements in `p` put them in the same order. -/
theorem filter_mergeSort_congr {first second : α → α → Bool} {p : α → Bool}
    (transFirst : ∀ a b c, first a b = true → first b c = true → first a c = true)
    (totalFirst : ∀ a b, (first a b || first b a) = true)
    (transSecond : ∀ a b c, second a b = true → second b c = true → second a c = true)
    (totalSecond : ∀ a b, (second a b || second b a) = true)
    (xs : List α) (agree : ∀ a ∈ xs, ∀ b ∈ xs, p a = true → p b = true → first a b = second a b) :
    (xs.mergeSort first).filter p = (xs.mergeSort second).filter p := by
  induction xs with
  | nil => simp
  | cons a xs ih =>
      have same := ih fun b hb c hc => agree b (.tail _ hb) c (.tail _ hc)
      by_cases here : p a = true
      · have cut : ∀ q r : α → Bool, (∀ b ∈ xs, p b = true → q b = r b) →
            ((xs.mergeSort first).filter q).filter p = ((xs.mergeSort second).filter r).filter p := by
          intro q r agrees
          rw [List.filter_comm, same, List.filter_comm (p := p) (q := r)]
          refine List.filter_congr fun b mem => ?_
          rw [List.mem_filter, List.mem_mergeSort] at mem
          exact agrees b mem.1 mem.2
        have atFirst : ∀ b ∈ xs, p b = true → first a b = second a b :=
          fun b mem => agree a (.head _) b (.tail _ mem) here
        rw [mergeSort_cons_eq transFirst totalFirst, mergeSort_cons_eq transSecond totalSecond,
          List.filter_append, List.filter_append, List.filter_cons_of_pos here,
          List.filter_cons_of_pos here, cut _ _ atFirst,
          cut (!first a ·) (!second a ·) fun b mem held => by rw [atFirst b mem held]]
      · have skip : ∀ le : α → α → Bool,
            (∀ a b c, le a b = true → le b c = true → le a c = true) →
            (∀ a b, (le a b || le b a) = true) →
            ((a :: xs).mergeSort le).filter p = (xs.mergeSort le).filter p := by
          intro le trans total
          obtain ⟨before, after, sorted, rest, -⟩ := List.mergeSort_cons trans total a xs
          rw [sorted, rest, List.filter_append, List.filter_append, List.filter_cons_of_neg here]
        rw [skip first transFirst totalFirst, skip second transSecond totalSecond, same]

/-- What a comparison does not put after an element can be sorted by. -/
theorem ne_gt_trans {cmp : α → α → Ordering} [Std.TransCmp cmp] (a b c : α)
    (hab : (cmp a b ≠ .gt : Bool) = true) (hbc : (cmp b c ≠ .gt : Bool) = true) :
    (cmp a c ≠ .gt : Bool) = true := by
  simp only [decide_eq_true_eq, Ordering.ne_gt_iff_isLE] at *
  exact Std.TransCmp.isLE_trans hab hbc

theorem ne_gt_total {cmp : α → α → Ordering} [Std.OrientedCmp cmp] (a b : α) :
    ((cmp a b ≠ .gt : Bool) || (cmp b a ≠ .gt : Bool)) = true := by
  rw [show cmp b a = (cmp a b).swap from Std.OrientedCmp.eq_swap]
  cases cmp a b <;> rfl

end Sorting

instance : Std.TransCmp keyOrder := by
  have lexical : keyOrder = List.compareLex (compareLex (compareOn Prod.fst) (compareOn Prod.snd)) := by
    funext a b
    induction a generalizing b with
    | nil => cases b <;> simp [keyOrder, List.compareLex]
    | cons x a ih =>
        cases b with
        | nil => simp [keyOrder, List.compareLex]
        | cons y b =>
            simp only [keyOrder, List.compareLex_cons_cons, ih, compareLex, compareOn]
            rw [Ordering.then_assoc]
  rw [lexical]
  infer_instance

instance : Std.TransOrd Location :=
  inferInstanceAs (Std.TransCmp (compareLex (compareOn Location.line) (compareOn Location.column)))

namespace Insertion

/-- The insertion goes into this slot. -/
def isAt (steps : List (String × Option Nat)) (field : String) (i : Nat) (e : Insertion) : Bool :=
  e.point.steps = steps && e.point.field = field && e.point.index = i

/-- By slot, and in source order within a slot. -/
def slotOrder (n : Node) (a b : Insertion) : Ordering :=
  (keyOrder (a.point.place n) (b.point.place n)).then (compare a.start b.start)

/-- In source order. -/
def startOrder (a b : Insertion) : Ordering :=
  compare a.start b.start

instance (n : Node) : Std.TransCmp (slotOrder n) :=
  have : Std.TransCmp fun a b : Insertion => keyOrder (a.point.place n) (b.point.place n) :=
    { eq_swap := Std.OrientedCmp.eq_swap, isLE_trans := Std.TransCmp.isLE_trans }
  inferInstanceAs (Std.TransCmp (compareLex
    (fun a b : Insertion => keyOrder (a.point.place n) (b.point.place n))
    (compareOn Insertion.start)))

instance : Std.TransCmp startOrder :=
  inferInstanceAs (Std.TransCmp (compareOn Insertion.start))

/-- Within one slot the source order is all that counts. -/
theorem slotOrder_eq_startOrder {n : Node} {steps : List (String × Option Nat)} {a b : Insertion}
    (ha : a.isAt steps field i = true) (hb : b.isAt steps field i = true) :
    slotOrder n a b = startOrder a b := by
  simp only [isAt, Bool.and_eq_true, decide_eq_true_eq] at ha hb
  obtain ⟨⟨stepsA, fieldA⟩, indexA⟩ := ha
  obtain ⟨⟨stepsB, fieldB⟩, indexB⟩ := hb
  have same : a.point.place n = b.point.place n := by
    simp only [InsertionPoint.place, InsertionPoint.key, stepsA, fieldA, indexA, stepsB, fieldB,
      indexB]
  have self : keyOrder (b.point.place n) (b.point.place n) = .eq := Std.ReflCmp.compare_self
  rw [slotOrder, startOrder, same, self, Ordering.eq_then]

end Insertion

/-- Insertions sorted by slot, and in source order within a slot; ties keep their order. -/
def sortBySlot (n : Node) (es : List Insertion) : List Insertion :=
  es.mergeSort fun a b => a.slotOrder n b ≠ .gt

/-- Insertions in source order; ties keep their order. -/
def sortByStart (es : List Insertion) : List Insertion :=
  es.mergeSort fun a b => a.startOrder b ≠ .gt

theorem filter_sortBySlot (n : Node) (es : List Insertion) (steps : List (String × Option Nat))
    (field : String) (i : Nat) :
    (sortBySlot n es).filter (·.isAt steps field i) =
      (sortByStart es).filter (·.isAt steps field i) :=
  filter_mergeSort_congr ne_gt_trans ne_gt_total ne_gt_trans ne_gt_total es
    fun _ _ _ _ ha hb => by rw [Insertion.slotOrder_eq_startOrder ha hb]

/-- The insertions into a slot below a child are those whose steps start at that child. -/
theorem filter_insertionsBelow (es : List Insertion) (step : String × Option Nat)
    (steps : List (String × Option Nat)) (field : String) (i : Nat) :
    (insertionsBelow es step).filter (·.isAt steps field i) =
      insertionsBelow (es.filter (·.isAt (step :: steps) field i)) step := by
  induction es with
  | nil => rfl
  | cons e es ih =>
      cases path : e.point.steps with
      | nil =>
          have absent : e.below? step = none := by simp [Insertion.below?, path]
          rw [insertionsBelow, List.filterMap_cons, absent, List.filter_cons_of_neg
            (by simp [Insertion.isAt, path])]
          exact ih
      | cons first rest =>
          by_cases taken : first = step
          · subst taken
            have moved : ({ e with point := e.point.advance } : Insertion).isAt steps field i =
                e.isAt (first :: steps) field i := by
              simp [Insertion.isAt, InsertionPoint.advance, path]
            rw [insertionsBelow_cons path]
            by_cases here : e.isAt (first :: steps) field i = true
            · rw [List.filter_cons_of_pos (moved.trans here), List.filter_cons_of_pos here,
                insertionsBelow_cons path, ih]
            · rw [List.filter_cons_of_neg (by rw [moved]; exact here),
                List.filter_cons_of_neg here, ih]
          · rw [insertionsBelow_cons_of_ne fun rest' same => taken (by
              rw [path, List.cons.injEq] at same
              exact same.1), List.filter_cons_of_neg (by simp [Insertion.isAt, path, taken])]
            exact ih

/-- Insertions all at once depend on their order within each slot only. -/
theorem Node.insertTogether_congr {es fs : List Insertion}
    (same : ∀ steps field i, es.filter (·.isAt steps field i) = fs.filter (·.isAt steps field i))
    (n : Node) : n.insertTogether es = n.insertTogether fs := by
  induction n generalizing es fs with
  | step n ih =>
      have slots : ∀ field, nodesFor es field = nodesFor fs field := fun field =>
        funext fun i => congrArg (List.map Insertion.node) (same [] field i)
      have child : ∀ c ∈ n.children, ∀ step,
          c.insertTogether (insertionsBelow es step) = c.insertTogether (insertionsBelow fs step) :=
        fun c mem step => ih c mem fun steps field i => by
          rw [filter_insertionsBelow, filter_insertionsBelow, same]
      rw [Node.insertTogether_eq, Node.insertTogether_eq]
      congr 1
      refine Kind.mapFields_congr _ fun field cs mem => ?_
      have inField : ∀ c ∈ cs, c ∈ n.children := fun c hc =>
        List.mem_flatten.2 ⟨cs, (List.of_mem_zip mem).2, hc⟩
      unfold Field.insertTogether
      split
      · rw [slots]
        congr 1
        refine List.ext_getElem (by simp) fun i _ _ => ?_
        simp only [List.getElem_mapIdx]
        exact child _ (inField _ (List.getElem_mem _)) _
      · exact List.map_congr_left fun c hc => child c (inField c hc) _

/-- Sorted stably by slot and source order and made from the last to the first, insertions never
fail, and they are the insertions all at once, in source order within each slot. -/
theorem insertEach_sortBySlot (n : Node) (es : List Insertion)
    (trivia : ∀ e ∈ es, e.node.isTrivia = true) (fits : ∀ e ∈ es, e.point.Fits n) :
    n.insertEach (sortBySlot n es).reverse = .ok (n.insertTogether (sortByStart es)) := by
  have sorted : (sortBySlot n es).Pairwise
      fun a b => keyOrder (a.point.place n) (b.point.place n) ≠ .gt := by
    refine (List.pairwise_mergeSort ne_gt_trans ne_gt_total es).imp fun {a b} ordered => ?_
    have notAfter := of_decide_eq_true ordered
    rw [Insertion.slotOrder] at notAfter
    exact fun greater => notAfter (by rw [greater]; rfl)
  have members : ∀ e ∈ sortBySlot n es, e ∈ es := fun e mem => List.mem_mergeSort.1 mem
  rw [Node.insertEach_reverse (fun e mem => trivia e (members e mem))
    (fun e mem => fits e (members e mem)) sorted,
    Node.insertTogether_congr (filter_sortBySlot n es)]

/-- Two comments for one slot of a module, out of order, and one for a list inside the statement
after that slot. -/
theorem insertEach_sortBySlot_nested :
    let comment (text : String) : Node := .bare (.comment ⟨text, false⟩)
    let name (id : String) : Node := .bare (.name id)
    let tree : Node := .bare (.module [.bare (.exprStmt (.bare (.list [name "a", name "b"])))])
    let inList : List (String × Option Nat) := [("body", some 0), ("value", none)]
    let es : List Insertion :=
      [⟨⟨[], 0, "body", 0⟩, comment "second", ⟨2, 0⟩⟩, ⟨⟨inList, 2, "elts", 1⟩, comment "inner", ⟨3, 4⟩⟩,
       ⟨⟨[], 0, "body", 0⟩, comment "first", ⟨1, 0⟩⟩]
    (∀ e ∈ es, e.node.isTrivia = true) ∧ (∀ e ∈ es, e.point.Fits tree) ∧
      tree.insertEach (sortBySlot tree es).reverse = .ok (tree.insertTogether (sortByStart es)) := by
  intro comment name tree inList es
  have trivia : ∀ e ∈ es, e.node.isTrivia = true := by decide
  have fits : ∀ e ∈ es, e.point.Fits tree := by
    intro e mem
    simp only [es, List.mem_cons, List.not_mem_nil, or_false] at mem
    rcases mem with rfl | rfl | rfl
    · exact ⟨_, _, rfl, rfl, by decide⟩
    · exact ⟨_, _, rfl, rfl, by decide⟩
    · exact ⟨_, _, rfl, rfl, by decide⟩
  exact ⟨trivia, fits, insertEach_sortBySlot tree es trivia fits⟩

/-! ### The plan of a source text -/

/-- The insertion that an entry of a plan stands for. -/
def Planned.insertion (p : Planned) : Insertion :=
  ⟨p.point, p.node, p.span.start⟩

theorem carryOut_eq_insertEach (n : Node) (plan : List Planned) :
    carryOut n plan = n.insertEach (plan.map Planned.insertion) := by
  induction plan generalizing n with
  | nil => rfl
  | cons p plan ih =>
      simp only [carryOut, List.map_cons, Node.insertEach, Planned.insertion]
      cases n.insertAt p.point p.node with
      | error fault => rfl
      | ok n => exact ih n

theorem Planned.point_settle (before : List Planned) (p : Planned) :
    (p.settle before).point = p.point := by
  unfold Planned.settle
  dsimp only
  split
  · unfold Planned.markEndOfLine
    split <;> rfl
  · rfl

/-- Settling keeps what it does not look at, and the order is turned round. -/
theorem map_settleReversed {β : Type} {view : Planned → β}
    (keeps : ∀ before p, view (p.settle before) = view p) (plan : List Planned) :
    (settleReversed plan).map view = (plan.map view).reverse := by
  suffices ∀ before : List Planned,
      (plan.foldl (fun before p => p.settle before :: before) before).map view =
        (plan.map view).reverse ++ before.map view by
    simpa [settleReversed] using this []
  induction plan with
  | nil => simp
  | cons p plan ih =>
      intro before
      rw [List.foldl_cons, ih]
      simp [keeps]

theorem Planned.isTrivia_node (p : Planned) : p.node.isTrivia = true := by
  unfold Planned.node Trivia.toNode
  cases p.trivia <;> rfl

instance : Std.TransCmp Planned.order :=
  have : Std.TransCmp fun a b : Planned => keyOrder a.key b.key :=
    { eq_swap := Std.OrientedCmp.eq_swap, isLE_trans := Std.TransCmp.isLE_trans }
  inferInstanceAs (Std.TransCmp (compareLex (fun a b : Planned => keyOrder a.key b.key)
    (compareOn fun p : Planned => p.span.start)))

/-- What is scheduled are the entries of the plan, settled. -/
theorem exists_of_mem_schedule {q : Planned} (h : q ∈ schedule plan) :
    ∃ p ∈ plan, ∃ before, q = p.settle before := by
  suffices ∀ sorted before : List Planned,
      q ∈ sorted.foldl (fun before p => p.settle before :: before) before →
        q ∈ before ∨ ∃ p ∈ sorted, ∃ before, q = p.settle before by
    obtain habsent | ⟨p, hp, hq⟩ := this _ [] h
    · simp at habsent
    · exact ⟨p, List.mem_mergeSort.1 hp, hq⟩
  intro sorted
  induction sorted with
  | nil => exact fun before hq => .inl hq
  | cons p sorted ih =>
      intro before hq
      obtain hq | ⟨p', hp', hq⟩ := ih _ hq
      · obtain rfl | hq := List.mem_cons.1 hq
        · exact .inr ⟨p, List.mem_cons_self, before, rfl⟩
        · exact .inl hq
      · exact .inr ⟨p', List.mem_cons_of_mem _ hp', hq⟩

/-- A schedule runs from the greatest slot down. -/
theorem pairwise_schedule {n : Node} (keyed : ∀ p ∈ plan, p.point.key n = .ok p.key) :
    ((schedule plan).reverse.map Planned.insertion).Pairwise
      fun a b => keyOrder (a.point.place n) (b.point.place n) ≠ .gt := by
  let sorted := plan.mergeSort fun a b => Planned.order a b ≠ .gt
  have members : ∀ p ∈ sorted, p ∈ plan := fun p mem => List.mem_mergeSort.1 mem
  have points : ((schedule plan).reverse.map Planned.insertion).map Insertion.point =
      sorted.map Planned.point := by
    have := map_settleReversed Planned.point_settle sorted
    rw [List.map_map, List.map_reverse]
    exact (congrArg List.reverse this).trans (List.reverse_reverse _)
  have ordered : (sorted.map Planned.point).Pairwise
      fun a b => keyOrder (a.place n) (b.place n) ≠ .gt := by
    rw [List.pairwise_map]
    refine (List.pairwise_mergeSort ne_gt_trans ne_gt_total plan).imp_of_mem
      fun {a b} ha hb notAfter => ?_
    rw [InsertionPoint.place_eq (keyed a (members a ha)), InsertionPoint.place_eq (keyed b (members b hb))]
    have notAfter := of_decide_eq_true notAfter
    rw [Planned.order] at notAfter
    exact fun greater => notAfter (by rw [greater]; rfl)
  rw [← points] at ordered
  exact List.pairwise_map.1 ordered

/-- A plan whose slots are all slots of the tree, under their keys, is carried out. -/
theorem carryOut_schedule {n : Node} (fits : ∀ p ∈ plan, p.point.Fits n)
    (keyed : ∀ p ∈ plan, p.point.key n = .ok p.key) :
    carryOut n (schedule plan) =
      .ok (n.insertTogether ((schedule plan).reverse.map Planned.insertion)) := by
  rw [carryOut_eq_insertEach, ← Node.insertEach_reverse _ _ (pairwise_schedule keyed),
    List.map_reverse, List.reverse_reverse]
  · intro e mem
    obtain ⟨p, -, rfl⟩ := List.mem_map.1 mem
    exact p.isTrivia_node
  · intro e mem
    obtain ⟨q, scheduled, rfl⟩ := List.mem_map.1 mem
    obtain ⟨p, planned, before, rfl⟩ := exists_of_mem_schedule (List.mem_reverse.1 scheduled)
    rw [Planned.insertion, Planned.point_settle]
    exact fits p planned

end TriviaTree
