import Mathlib
import TriviaTree.Proofs.Placement.Neighbours

/-!
Comments and code in the order of the text.

The tree of a text with its comments is the tree of the text with every comment put into a slot
between its neighbours, and in every slot the comments keep their order (`exists_insertions`). What
that means for the tree is said node by node: each node of the tree with comments has a twin in the
tree that was read, with the same code below it and a span for every node (`Node.twins`), and in each
sequence of the node the comments stand where their spans say (`Interleaved`).

A comment behind a parameter that collects the rest is the exception: it goes to the front of the
parameters (`comment_before_parameters`).
-/

set_option autoImplicit false

namespace TriviaTree

/-- The nodes of a tree with comments, each with the node it is of a tree without: the code below the
two is the same, node by node. -/
def Node.twins (a b : Node) : List (Node × Node) :=
  (a, b) :: ((a.children.filter (!·.isTrivia)).zip b.children).attach.flatMap
    fun ⟨(c, d), _⟩ => c.twins d
termination_by sizeOf b
decreasing_by exact sizeOf_lt_of_mem_children (List.of_mem_zip ‹_›).2

theorem Node.mem_twins_iff {a b : Node} {pair : Node × Node} : pair ∈ a.twins b ↔
    pair = (a, b) ∨ ∃ c d, (c, d) ∈ (a.children.filter (!·.isTrivia)).zip b.children ∧
      pair ∈ c.twins d := by
  rw [twins]
  simp

/-! ### Sequences with trivia between -/

section Weave

variable {α : Type} {p : α → Bool} {groups : Nat → List α} {xs : List α}

theorem filter_weave (hgroups : ∀ i, ∀ x ∈ groups i, p x = false) :
    (weave groups xs).filter p = xs.filter p := by
  induction xs generalizing groups with
  | nil => simpa [weave] using hgroups 0
  | cons x xs ih =>
      have hgroup : (groups 0).filter p = [] := by simpa using hgroups 0
      rw [weave, List.filter_append, hgroup, List.nil_append, List.filter_cons, List.filter_cons,
        ih fun i => hgroups (i + 1)]

/-- What is not code stands in the group that the code before it leads to, right before the rest of
the group. -/
theorem exists_of_weave_eq (hgroups : ∀ i, ∀ x ∈ groups i, p x = false)
    (hxs : ∀ x ∈ xs, p x = true) {front back : List α} {c : α} (hc : p c = false)
    (h : weave groups xs = front ++ c :: back) :
    ∃ g g' rest, groups (front.countP p) = g ++ c :: g' ∧ back = g' ++ rest ∧
      ∀ x ∈ rest.head?, p x = true := by
  induction xs generalizing groups front with
  | nil =>
      have hnone : front.countP p = 0 := by
        refine List.countP_eq_zero.2 fun x hx => ?_
        have hmem : x ∈ groups 0 := by
          rw [show groups 0 = _ from h]
          exact List.mem_append_left _ hx
        simp [hgroups 0 x hmem]
      rw [hnone]
      exact ⟨front, back, [], h, by simp, by simp⟩
  | cons x xs ih =>
      rw [weave] at h
      have hx := hxs x List.mem_cons_self
      rcases List.append_eq_append_iff.1 h with ⟨front', rfl, htail⟩ | ⟨mine, hgroup, htail⟩
      · cases front' with
        | nil =>
            obtain ⟨rfl, _⟩ := List.cons.inj htail
            simp [hx] at hc
        | cons y front' =>
            obtain ⟨rfl, hrest⟩ := List.cons.inj htail
            have hcount : (groups 0 ++ x :: front').countP p = front'.countP p + 1 := by
              have hzero : (groups 0).countP p = 0 :=
                List.countP_eq_zero.2 fun y hy => by simp [hgroups 0 y hy]
              simp [List.countP_append, hx, hzero]
            rw [hcount]
            exact ih (fun i => hgroups (i + 1)) (fun y hy => hxs y (List.mem_cons_of_mem x hy)) hrest
      · cases mine with
        | nil =>
            obtain ⟨rfl, _⟩ := List.cons.inj htail
            simp [hx] at hc
        | cons y mine =>
            obtain ⟨rfl, rfl⟩ := List.cons.inj htail
            have hnone : front.countP p = 0 := by
              refine List.countP_eq_zero.2 fun y hy => ?_
              simp [hgroups 0 y (hgroup ▸ List.mem_append_left _ hy)]
            rw [hnone]
            exact ⟨front, mine, x :: weave (fun i => groups (i + 1)) xs, hgroup, rfl, by simp [hx]⟩

/-- Of two things that are not code with no code between, the second is in the same group, further
on. -/
theorem mem_of_append_eq {mid back g rest : List α} {c : α} (h : mid ++ c :: back = g ++ rest)
    (hmid : ∀ x ∈ mid, p x = false) (hc : p c = false) (hrest : ∀ x ∈ rest.head?, p x = true) :
    c ∈ g := by
  rcases List.append_eq_append_iff.1 h with ⟨mine, rfl, htail⟩ | ⟨mine, hmine, htail⟩
  · cases mine with
    | nil =>
        rw [List.nil_append] at htail
        have := hrest c (by simp [← htail])
        simp [hc] at this
    | cons y mine =>
        obtain ⟨rfl, _⟩ := List.cons.inj htail
        simp
  · cases mine with
    | nil =>
        have := hrest c (by simp [htail])
        simp [hc] at this
    | cons y mine =>
        have := hrest y (by simp [htail])
        simp [hmid y (by simp [hmine])] at this

end Weave

/-! ### The code of a tree with comments -/

theorem isTrivia_of_mem_nodesFor {es : List Insertion} (trivia : ∀ e ∈ es, e.node.isTrivia = true)
    {field : String} {i : Nat} {c : Node} (h : c ∈ nodesFor es field i) : c.isTrivia = true := by
  obtain ⟨e, he, rfl⟩ := List.mem_map.1 h
  exact trivia e (List.mem_of_mem_filter he)

theorem isTrivia_of_mem_insertionsBelow {es : List Insertion}
    (trivia : ∀ e ∈ es, e.node.isTrivia = true) (step : String × Option Nat) :
    ∀ e ∈ insertionsBelow es step, e.node.isTrivia = true := by
  intro x hx
  obtain ⟨e, he, _, _, rfl⟩ := exists_of_mem_insertionsBelow hx
  exact trivia e he

/-- Trivia that is put in is all that is stripped again. -/
theorem strip_insertTogether (n : Node) : ∀ {es : List Insertion},
    (∀ e ∈ es, e.node.isTrivia = true) → (n.insertTogether es).strip = n.strip := by
  induction n with
  | step n ih =>
    intro es trivia
    rw [Node.strip_eq_mapFields, n.strip_eq_mapFields, Node.insertTogether_eq]
    simp only [Kind.mapFields_mapFields n.kind (Field.keepsShape_insertTogether _ es)
      (keepsShape_strip _)]
    refine congrArg (Node.mk · n.span) (Kind.mapFields_congr _ fun field cs hentry => ?_)
    have hcode : ∀ c ∈ cs, ∀ step,
        (c.insertTogether (insertionsBelow es step)).strip = c.strip := fun c hc step =>
      ih c (Kind.mem_children_of_mem_entries hentry hc) (isTrivia_of_mem_insertionsBelow trivia step)
    unfold Field.insertTogether Field.dropTrivia
    split
    · have hmap : (cs.mapIdx fun i c => c.insertTogether
          (insertionsBelow es (field.name, some i))).map Node.strip = cs.map Node.strip := by
        refine List.ext_getElem (by simp) fun i h h' => ?_
        simp [hcode]
      have hcomm : (!·.isTrivia) ∘ Node.strip = (!·.isTrivia) := by
        funext c
        simp
      rw [List.filter_map, List.filter_map, hcomm, filter_weave, ← hcomm, ← List.filter_map,
        hmap, List.filter_map]
      intro i c hc
      simp [isTrivia_of_mem_nodesFor trivia hc]
    · rw [List.map_map]
      exact List.map_congr_left fun c hc => hcode c hc _

/-- The code below a node with comments is the code below it without, with the comments further
down. -/
theorem code_insertTogether {n : Node} (hcode : ∀ c ∈ n.children, c.isTrivia = false)
    {es : List Insertion} (trivia : ∀ e ∈ es, e.node.isTrivia = true) :
    (n.insertTogether es).children.filter (!·.isTrivia) = n.kind.slots.map fun entry =>
      entry.2.insertTogether (insertionsBelow es (entry.1.field.name, entry.1.index)) := by
  have hkind : (n.insertTogether es).children =
      n.kind.entries.flatMap fun entry => entry.1.insertTogether es entry.2 := by
    rw [Node.insertTogether_eq, Node.children, Kind.children_eq,
      Kind.entries_mapFields _ (Field.keepsShape_insertTogether _ es), List.flatMap_map]
  rw [hkind, List.filter_flatMap, Kind.slots, List.map_flatMap]
  refine List.flatMap_congr ?_
  rintro ⟨field, cs⟩ hentry
  have hkept : ∀ c ∈ cs, ∀ step,
      (c.insertTogether (insertionsBelow es step)).isTrivia = false := fun c hc step => by
    rw [Node.isTrivia_insertTogether]
    exact hcode c (Kind.mem_children_of_mem_entries hentry hc)
  simp only [Field.insertTogether, Kind.slotsOf]
  split
  · rw [filter_weave fun i c hc => by simp [isTrivia_of_mem_nodesFor trivia hc],
      List.filter_eq_self.2]
    · refine List.ext_getElem (by simp) fun i h h' => ?_
      simp
    · intro c hc
      obtain ⟨i, hi, rfl⟩ := List.mem_mapIdx.1 hc
      simp [hkept]
  · rw [List.filter_eq_self.2, List.map_map]
    · rfl
    · intro c hc
      obtain ⟨d, hd, rfl⟩ := List.mem_map.1 hc
      simp [hkept d hd]

/-! ### Insertions along a path -/

/-- The insertions below the node that the steps lead to. -/
def insertionsAlong (es : List Insertion) : List (String × Option Nat) → List Insertion
  | [] => es
  | step :: steps => insertionsAlong (insertionsBelow es step) steps

theorem exists_of_mem_insertionsAlong {es : List Insertion} {steps : List (String × Option Nat)}
    {x : Insertion} (h : x ∈ insertionsAlong es steps) :
    ∃ e ∈ es, e = { x with point := { x.point with steps := steps ++ x.point.steps } } := by
  induction steps generalizing es with
  | nil => exact ⟨x, h, rfl⟩
  | cons step steps ih =>
      obtain ⟨y, hy, rfl⟩ := ih h
      obtain ⟨e, he, rest, hsteps, hrest⟩ := exists_of_mem_insertionsBelow hy
      refine ⟨e, he, ?_⟩
      obtain ⟨⟨point, owner, field, index⟩, node, start⟩ := e
      simp only [InsertionPoint.advance, Insertion.mk.injEq, InsertionPoint.mk.injEq] at hrest hsteps
      subst hsteps
      simp only [List.tail_cons] at hrest
      obtain ⟨⟨rfl, rfl, rfl, rfl⟩, rfl, rfl⟩ := hrest
      rfl

theorem Insertion.below?_eq_some_iff {step : String × Option Nat} {e x : Insertion} :
    e.below? step = some x ↔
      ∃ rest, e.point.steps = step :: rest ∧ x = { e with point := e.point.advance } := by
  unfold Insertion.below?
  split
  · next hnil => simp [hnil]
  · next first rest hsteps =>
    simp only [hsteps, List.cons.injEq, InsertionPoint.advance, List.tail_cons]
    split <;> simp_all [eq_comm]

/-- In every slot the insertions are in the order of the text. -/
def SlotOrdered (es : List Insertion) : Prop :=
  es.Pairwise fun a b => a.point.steps = b.point.steps → a.point.field = b.point.field →
    a.point.index = b.point.index → a.start < b.start

theorem SlotOrdered.insertionsAlong {es : List Insertion} (ordered : SlotOrdered es)
    (steps : List (String × Option Nat)) : SlotOrdered (insertionsAlong es steps) := by
  induction steps generalizing es with
  | nil => exact ordered
  | cons step steps ih =>
      refine ih (List.Pairwise.filterMap _ ?_ ordered)
      intro a b hab x hx y hy hsteps
      obtain ⟨rest, hrest, rfl⟩ := Insertion.below?_eq_some_iff.1 hx
      obtain ⟨rest', hrest', rfl⟩ := Insertion.below?_eq_some_iff.1 hy
      simp only [InsertionPoint.advance, hrest, hrest', List.tail_cons] at hsteps
      exact hab (by rw [hrest, hrest', hsteps])

theorem Node.Plain.isTrivia_of_mem {n c : Node} (plain : n.Plain) (hc : c ∈ n.children) :
    c.isTrivia = false :=
  (Node.plain_iff.1 ((Node.plain_iff.1 plain).2 c hc)).1

theorem Node.Plain.descend {n b : Node} (plain : n.Plain) {steps : List (String × Option Nat)}
    (h : n.descend? steps = some b) : b.Plain := by
  induction steps generalizing n with
  | nil =>
      cases h
      exact plain
  | cons step steps ih =>
      unfold Node.descend? at h
      split at h
      · cases h
      · next c hc =>
        obtain ⟨others, hperm, _⟩ := Kind.children_setChild hc c
        exact ih ((Node.plain_iff.1 plain).2 c (hperm.mem_iff.2 List.mem_cons_self)) h

/-- Every node of a tree with comments is a node of the tree without them, with the insertions below
it made. -/
theorem exists_of_mem_twins {full : Node} (plain : full.Plain) : ∀ {es : List Insertion},
    (∀ e ∈ es, e.node.isTrivia = true) → ∀ {a b : Node},
      (a, b) ∈ (full.native.insertTogether es).twins full →
        ∃ steps, full.descend? steps = some b ∧ a = b.native.insertTogether (insertionsAlong es steps) := by
  induction full with
  | step full ih =>
    intro es trivia a b hab
    rcases Node.mem_twins_iff.1 hab with hself | ⟨c, d, hcd, hab⟩
    · cases hself
      exact ⟨[], rfl, rfl⟩
    · rw [code_insertTogether (fun c hc => plain.native.isTrivia_of_mem hc) trivia, Node.kind_native, Kind.slots_map, List.map_map,
        Node.children, ← Kind.map_snd_slots, List.zip_map', List.mem_map] at hcd
      obtain ⟨⟨slot, d⟩, hslot, hpair⟩ := hcd
      cases hpair
      have hchild := Kind.mem_children_of_mem_slots hslot
      obtain ⟨steps, hsteps, ha⟩ := ih d hchild ((Node.plain_iff.1 plain).2 d hchild)
        (isTrivia_of_mem_insertionsBelow trivia _) hab
      refine ⟨(slot.field.name, slot.index) :: steps, ?_, ha⟩
      simpa [Node.descend?, Kind.child?_of_mem_slots hslot] using hsteps

/-! ### Comments between their neighbours -/

/-- How the trivia of a sequence `cs` stands among its code: `ds` is that code, each node with its
span. -/
structure Interleaved (owner : Node) (field : Field) (cs ds : List Node) : Prop where
  between : ∀ front c back, cs = front ++ c :: back → c.isTrivia = true →
    ∃ target, c.span = some target ∧ owner.Between field ds (front.countP (!·.isTrivia)) target
  order : ∀ front c mid c' back, cs = front ++ c :: (mid ++ c' :: back) → c.isTrivia = true →
    c'.isTrivia = true → (∀ m ∈ mid, m.isTrivia = true) →
    ∀ s t, c.span = some s → c'.span = some t → s.start < t.start

/-- An insertion that is made where its span belongs. -/
structure Insertion.Lands (e : Insertion) (full : Node) : Prop where
  isTrivia : e.node.isTrivia = true
  span : ∃ target, e.node.span = some target ∧ e.start = target.start ∧ e.point.Lands full target

section Interleaved

variable {full : Node} {es : List Insertion} (lands : ∀ e ∈ es, e.Lands full)
  {steps : List (String × Option Nat)} {field : String} {i : Nat}

include lands

theorem exists_of_mem_nodesFor {c : Node} (hc : c ∈ nodesFor (insertionsAlong es steps) field i) :
    ∃ target, c.span = some target ∧ ∃ owner, full.descend? steps = some owner ∧
      ∃ found ds, owner.kind.fieldNamed? field = some (found, ds) ∧
        owner.Between found ds i target := by
  obtain ⟨x, hx, rfl⟩ := List.mem_map.1 hc
  obtain ⟨hmem, hhere⟩ := List.mem_filter.1 hx
  simp only [Insertion.isHere, Bool.and_eq_true, decide_eq_true_eq] at hhere
  obtain ⟨⟨hsteps, rfl⟩, rfl⟩ := hhere
  obtain ⟨e, he, rfl⟩ := exists_of_mem_insertionsAlong hmem
  obtain ⟨target, hspan, _, owner, found, ds, howner, hfound, between⟩ := (lands _ he).span
  rw [hsteps, List.append_nil] at howner
  exact ⟨target, hspan, owner, howner, found, ds, hfound, between⟩

theorem pairwise_nodesFor (ordered : SlotOrdered es) :
    (nodesFor (insertionsAlong es steps) field i).Pairwise fun c c' =>
      ∀ s t, c.span = some s → c'.span = some t → s.start < t.start := by
  refine List.pairwise_map.2 (((ordered.insertionsAlong steps).filter _).imp_of_mem ?_)
  intro x y hx hy hxy s t hs ht
  obtain ⟨hx, hhere⟩ := List.mem_filter.1 hx
  obtain ⟨hy, hhere'⟩ := List.mem_filter.1 hy
  simp only [Insertion.isHere, Bool.and_eq_true, decide_eq_true_eq] at hhere hhere'
  have hstart : ∀ z ∈ insertionsAlong es steps, ∀ u, z.node.span = some u → z.start = u.start := by
    intro z hz u hu
    obtain ⟨e, he, rfl⟩ := exists_of_mem_insertionsAlong hz
    obtain ⟨target, hspan, hstart, _⟩ := (lands _ he).span
    cases hu.symm.trans hspan
    exact hstart
  rw [← hstart x hx s hs, ← hstart y hy t ht]
  exact hxy (hhere.1.1.trans hhere'.1.1.symm) (hhere.1.2.trans hhere'.1.2.symm)
    (hhere.2.trans hhere'.2.symm)

/-- The insertions of a node leave the trivia of each of its sequences between its neighbours. -/
theorem interleaved_insertTogether (ordered : SlotOrdered es) {b : Node}
    (hb : full.descend? steps = some b) (plain : b.Plain) {field : Field}
    (hsequence : field.isSequence = true) {cs ds : List Node}
    (hcs : (field, cs) ∈ (b.native.insertTogether (insertionsAlong es steps)).kind.entries)
    (hds : (field, ds) ∈ b.kind.entries) : Interleaved b field cs ds := by
  have hnamed := Kind.fieldNamed?_eq_some_iff.2 ⟨hds, rfl⟩
  obtain ⟨xs, hxs, rfl⟩ : ∃ xs, (∀ x ∈ xs, x.isTrivia = false) ∧
      cs = weave (nodesFor (insertionsAlong es steps) field.name) xs := by
    rw [Node.insertTogether_eq] at hcs
    simp only [Kind.entries_mapFields _ (Field.keepsShape_insertTogether _ _), List.mem_map,
      Prod.mk.injEq, Prod.exists, Field.insertTogether] at hcs
    obtain ⟨_, ds', hds', rfl, rfl⟩ := hcs
    refine ⟨_, fun x hx => ?_, if_pos hsequence⟩
    obtain ⟨j, hj, rfl⟩ := List.mem_mapIdx.1 hx
    rw [Node.isTrivia_insertTogether]
    exact plain.native.isTrivia_of_mem
      (Kind.mem_children_of_mem_entries hds' (List.getElem_mem hj))
  have htrivia : ∀ j, ∀ c ∈ nodesFor (insertionsAlong es steps) field.name j,
      (!c.isTrivia) = false := by
    intro j c hc
    obtain ⟨x, hx, rfl⟩ := List.mem_map.1 hc
    obtain ⟨e, he, rfl⟩ := exists_of_mem_insertionsAlong (List.mem_of_mem_filter hx)
    simpa using (lands _ he).isTrivia
  have hxs' : ∀ x ∈ xs, (!x.isTrivia) = true := fun x hx => by simp [hxs x hx]
  constructor
  · intro front c back hsplit hc
    obtain ⟨g, g', rest, hgroup, _, _⟩ := exists_of_weave_eq htrivia hxs' (by simp [hc]) hsplit
    obtain ⟨target, hspan, owner, howner, found, ds', hfound, between⟩ :=
      exists_of_mem_nodesFor lands (hgroup ▸ List.mem_append_right g List.mem_cons_self)
    cases hb.symm.trans howner
    cases hnamed.symm.trans hfound
    exact ⟨target, hspan, between⟩
  · intro front c mid c' back hsplit hc hc' hmid
    obtain ⟨g, g', rest, hgroup, hback, hrest⟩ :=
      exists_of_weave_eq htrivia hxs' (by simp [hc]) hsplit
    have hmem : c' ∈ g' := mem_of_append_eq hback (fun m hm => by simp [hmid m hm]) (by simp [hc']) hrest
    have hpairwise : (nodesFor (insertionsAlong es steps) field.name
      (front.countP (!·.isTrivia))).Pairwise _ := pairwise_nodesFor lands ordered
    rw [hgroup] at hpairwise
    exact (List.pairwise_cons.1 (List.pairwise_append.1 hpairwise).2.1).1 c' hmem

end Interleaved

/-! ### The plan for a text -/

theorem Planned.settle_eq (before : List Planned) (p : Planned) :
    ∃ trivia, p.settle before = { p with trivia := trivia } := by
  unfold Planned.settle
  dsimp only
  split
  · unfold Planned.markEndOfLine
    split
    · exact ⟨_, rfl⟩
    · exact ⟨p.trivia, rfl⟩
  · exact ⟨p.trivia, rfl⟩

/-- A plan in the order of the text is carried out in that order within every slot. -/
theorem slotOrdered_schedule {n : Node} {plan : List Planned}
    (keyed : ∀ p ∈ plan, p.point.key n = .ok p.key)
    (inOrder : plan.Pairwise (·.span.start < ·.span.start)) :
    SlotOrdered ((schedule plan).reverse.map Planned.insertion) := by
  let sorted := plan.mergeSort fun a b => Planned.order a b ≠ .gt
  have hdistinct : sorted.Pairwise (·.span.start ≠ ·.span.start) := by
    have hplan : plan.Pairwise (·.span.start ≠ ·.span.start) := inOrder.imp LT.lt.ne
    exact (List.mergeSort_perm plan _).symm.pairwise hplan fun {a b} h => h.symm
  have hsorted : sorted.Pairwise fun a b => a.point.steps = b.point.steps →
      a.point.field = b.point.field → a.point.index = b.point.index →
      a.span.start < b.span.start := by
    have hle : sorted.Pairwise fun a b => (Planned.order a b ≠ .gt : Bool) = true :=
      List.pairwise_mergeSort ne_gt_trans ne_gt_total plan
    refine (hle.and hdistinct).imp_of_mem fun {a b} ha hb ⟨hab, hne⟩ hsteps hfield hindex => ?_
    have hkey : a.key = b.key := by
      have hka := keyed a (List.mem_mergeSort.1 ha)
      rw [InsertionPoint.key, hsteps, hfield, hindex] at hka
      exact (Except.ok.inj ((keyed b (List.mem_mergeSort.1 hb)).symm.trans hka)).symm
    have hself : keyOrder b.key b.key = .eq := Std.ReflCmp.compare_self
    have hab := of_decide_eq_true hab
    rw [Planned.order, hkey, hself, Ordering.eq_then] at hab
    exact lt_of_le_of_ne (not_lt.1 fun hlt => hab (compare_gt_iff_gt.2 hlt)) hne
  -- settling changes neither the slots nor the spans
  let view (p : Planned) : InsertionPoint × Location := (p.point, p.span.start)
  have hkeeps : ∀ before p, view (Planned.settle before p) = view p := by
    intro before p
    obtain ⟨trivia, hsettle⟩ := p.settle_eq before
    simp only [view, hsettle]
  have hviews : (schedule plan).reverse.map view = sorted.map view := by
    rw [List.map_reverse, schedule, map_settleReversed hkeeps, List.reverse_reverse]
  have hviewed : (sorted.map view).Pairwise fun a b => a.1.steps = b.1.steps →
      a.1.field = b.1.field → a.1.index = b.1.index → a.2 < b.2 :=
    List.pairwise_map.2 hsorted
  rw [← hviews] at hviewed
  exact List.pairwise_map.2 (List.pairwise_map.1 hviewed)

theorem Planned.span_node (p : Planned) : p.node.span = some p.span := by
  unfold Planned.node Trivia.toNode
  cases p.trivia <;> rfl

section Comments

variable {source : String} {tokens : List Token} (htokens : tokenize source = .ok tokens)

include htokens

/-- The comments of a text start one after the other. -/
theorem pairwise_comments : ((tokens.filter (·.kind = .comment)).map
    (Token.toTrivia (.ofText source))).Pairwise (·.span.start < ·.span.start) := by
  obtain ⟨horder, _⟩ := inOrder_of_tokenize htokens
  refine List.pairwise_map.2 ((horder.pairwise.filter _).imp_of_mem fun {a b} ha hb hab => ?_)
  obtain ⟨ha, hkind⟩ := List.mem_filter.1 ha
  have hroom := room_of_tokenize htokens ha (by simpa using hkind)
  have hwithin := horder.within b (List.mem_of_mem_filter hb)
  exact hroom.trans_le (LineIndex.location_mono _ hab (hwithin.2.1.trans hwithin.2.2))

/-- What is planned for a comment lands between its neighbours. -/
theorem lands_of_planToken {full : Node} (hfull : parseModule source .full = .ok full)
    {comment : Token} (hmem : comment ∈ tokens) (hkind : comment.kind = .comment)
    {classifier : Classifier} {p : Planned} (h : full.nativeSpanned.planToken classifier source
      full.native (comment.toTrivia (.ofText source)) = .ok p) (before : List Planned) :
    (p.settle before).insertion.Lands full := by
  obtain ⟨hspan, hslot, _⟩ := planToken_cases h
  obtain ⟨anchor, hanchor, hlocate, _⟩ := SpannedTree.slotFor_ok hslot
  obtain ⟨body, hbody, _⟩ := parseModule_kind hfull
  have lands := lands_of_anchor (nested_of_tokenize htokens hmem hkind hfull)
    (room_of_tokenize htokens hmem hkind) hbody hanchor hlocate
  obtain ⟨trivia, hsettle⟩ := p.settle_eq before
  refine ⟨Planned.isTrivia_node _, p.span, ?_, ?_, ?_⟩
  · rw [Planned.insertion, Planned.span_node, hsettle]
  · rw [Planned.insertion, hsettle]
  · rw [Planned.insertion, hsettle, hspan]
    exact lands

end Comments

/-- A text with its comments is the tree of the text with the whole plan for them carried out at once. -/
theorem exists_plan {classifier : Classifier} {source : String} {augmented : Node}
    (h : parseAugmented classifier source = .ok augmented) :
    ∃ full tokens plan, parseModule source .full = .ok full ∧
      parseModule source .native = .ok full.native ∧
      full.native.spanned source = .ok full.nativeSpanned ∧ tokenize source = .ok tokens ∧
      ((tokens.filter (·.kind = .comment)).map (Token.toTrivia (.ofText source))).mapM
        (full.nativeSpanned.planToken classifier source full.native) = .ok plan ∧
      (∀ p ∈ plan, p.point.key full.native = .ok p.key) ∧
      augmented = full.native.insertTogether ((schedule plan).reverse.map Planned.insertion) := by
  unfold parseAugmented at h
  cases htree : parseModule source .native with
  | error e => simp [htree] at h
  | ok tree =>
      obtain ⟨full, hfull, rfl, hspanned, _⟩ := exists_full htree
      obtain ⟨tokens, htokens, _⟩ := parseModule_ok.1 hfull
      have hcomments : triviaTokens source = .ok ((tokens.filter (·.kind = .comment)).map
          (Token.toTrivia (.ofText source))) := by
        rw [triviaTokens_eq, htokens]
        rfl
      refine ⟨full, tokens, ?_⟩
      simp only [htree, hcomments] at h
      unfold insertTrivia at h
      split at h
      · next hempty =>
        cases h
        rw [List.isEmpty_iff.1 hempty]
        refine ⟨[], hfull, rfl, hspanned, htokens, rfl, by simp, ?_⟩
        simp [schedule, settleReversed, Node.insertTogether_nil]
      rw [planAll, hspanned] at h
      simp only at h
      split at h
      · cases h
      next plan hplan =>
      have hslots := fits_of_plan htree hcomments hspanned hplan
      rw [carryOut_schedule (fun p hp => (hslots p hp).1) fun p hp => (hslots p hp).2] at h
      cases h
      exact ⟨plan, hfull, rfl, hspanned, htokens, hplan, fun p hp => (hslots p hp).2, rfl⟩

/-- What is carried out for a text is the plan for one of its comments, settled. -/
theorem exists_of_mem_plan {classifier : Classifier} {source : String} {t : SpannedTree} {tree : Node}
    {tokens : List Token} {plan : List Planned}
    (hplan : ((tokens.filter (·.kind = .comment)).map (Token.toTrivia (.ofText source))).mapM
      (t.planToken classifier source tree) = .ok plan) {e : Insertion}
    (he : e ∈ (schedule plan).reverse.map Planned.insertion) :
    ∃ comment ∈ tokens, comment.kind = .comment ∧ ∃ p before,
      t.planToken classifier source tree (comment.toTrivia (.ofText source)) = .ok p ∧
      e = (p.settle before).insertion := by
  obtain ⟨q, hq, rfl⟩ := List.mem_map.1 he
  obtain ⟨p, hp, before, rfl⟩ := exists_of_mem_schedule (List.mem_reverse.1 hq)
  obtain ⟨token, hmem, htoken⟩ := exists_of_mem_mapM hplan p hp
  obtain ⟨comment, hcomment, rfl⟩ := List.mem_map.1 hmem
  obtain ⟨hmem, hkind⟩ := List.mem_filter.1 hcomment
  exact ⟨comment, hmem, by simpa using hkind, p, before, htoken, rfl⟩

/-- A text with its comments is the tree of the text with every comment put in between its
neighbours, in the order of the text. -/
theorem exists_insertions {classifier : Classifier} {source : String} {augmented : Node}
    (h : parseAugmented classifier source = .ok augmented) :
    ∃ full es, parseModule source .full = .ok full ∧
      parseModule source .native = .ok full.native ∧
      full.native.spanned source = .ok full.nativeSpanned ∧
      augmented = full.native.insertTogether es ∧ (∀ e ∈ es, e.Lands full) ∧ SlotOrdered es := by
  obtain ⟨full, tokens, plan, hfull, hnative, hspanned, htokens, hplan, hkeys, rfl⟩ := exists_plan h
  refine ⟨full, _, hfull, hnative, hspanned, rfl, fun e he => ?_, slotOrdered_schedule hkeys ?_⟩
  · obtain ⟨comment, hmem, hkind, p, before, hp, rfl⟩ := exists_of_mem_plan hplan he
    exact lands_of_planToken htokens hfull hmem hkind hp before
  · have hsame := map_of_mapM
      (fun token p hp => congrArg Span.start (planToken_cases hp).1) hplan
    have hstarts := List.pairwise_map.2 (pairwise_comments htokens)
    rw [← hsame] at hstarts
    exact List.pairwise_map.1 hstarts

/-- Every comment of a text stands between the code it was written between: in each sequence of
the tree, what comes before it has ended when it starts, and what comes after it has not, unless it
stands behind parameters that collect the rest. Comments with no code between them keep their
order. -/
theorem comments_between_neighbours {classifier : Classifier} {source : String} {augmented : Node}
    (h : parseAugmented classifier source = .ok augmented) :
    ∃ full, parseModule source .full = .ok full ∧
      full.native.spanned source = .ok ⟨full.native.flatten, full.flatten.ownSpans⟩ ∧
      augmented.strip = full.native ∧
      ∀ a b, (a, b) ∈ augmented.twins full → a.strip = b.native ∧
        ∀ field cs ds, field.isSequence = true → (field, cs) ∈ a.kind.entries →
          (field, ds) ∈ b.kind.entries → Interleaved b field cs ds := by
  obtain ⟨full, es, hfull, hnative, hspanned, rfl, lands, ordered⟩ := exists_insertions h
  have trivia := fun e he => (lands e he).isTrivia
  have plain := parseModule_plain hfull
  refine ⟨full, hfull, hspanned, ?_, fun a b hab => ?_⟩
  · rw [strip_insertTogether _ trivia, (parseModule_plain hnative).strip_eq]
  · obtain ⟨steps, hb, rfl⟩ := exists_of_mem_twins plain trivia hab
    have plainBelow := plain.descend hb
    refine ⟨?_, fun field cs ds hsequence hcs hds =>
      interleaved_insertTogether lands ordered hb plainBelow hsequence hcs hds⟩
    rw [strip_insertTogether _ fun x hx => ?_, plainBelow.native.strip_eq]
    obtain ⟨e, he, rfl⟩ := exists_of_mem_insertionsAlong hx
    exact (lands _ he).isTrivia

theorem comments_between_neighbours_parameters :
    let source := "def f(a # b\n, c): pass"
    ∃ augmented, parseAugmented .standard source = .ok augmented ∧ augmented.triviaCount = 1 ∧
      ∃ full, parseModule source .full = .ok full ∧
        ∀ a b, (a, b) ∈ augmented.twins full → ∀ field cs ds, field.isSequence = true →
          (field, cs) ∈ a.kind.entries → (field, ds) ∈ b.kind.entries →
            Interleaved b field cs ds := by
  intro source
  have hcount : (parseAugmented .standard source).map Node.triviaCount = .ok 1 := by decide +kernel
  cases h : parseAugmented .standard source with
  | error fault => simp [h, Except.map] at hcount
  | ok augmented =>
      obtain ⟨full, hfull, _, _, htwins⟩ := comments_between_neighbours h
      refine ⟨augmented, rfl, ?_, full, hfull, fun a b hab => (htwins a b hab).2⟩
      simpa [h, Except.map] using hcount

/-- The comment starts where both parameters have ended, and stands before the first. -/
theorem comment_before_parameters :
    let slot (i : Nat) : List (String × Option Nat) :=
      [("body", some 0), ("args", none), ("args", some i)]
    let view (n : Node) : Bool × Option Span := (n.isTrivia, n.span)
    (parseAugmented .standard "def f(a, *b # c\n,): pass").map (fun augmented =>
        ((augmented.descend? (slot 0)).map view, (augmented.descend? (slot 1)).map view)) =
      .ok (some (true, some ⟨⟨1, 12⟩, ⟨1, 15⟩⟩), some (false, some ⟨⟨1, 6⟩, ⟨1, 7⟩⟩)) := by
  decide +kernel

end TriviaTree
