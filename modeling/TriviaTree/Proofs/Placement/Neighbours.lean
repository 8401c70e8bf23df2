import Mathlib
import TriviaTree.Proofs.Grammar.Shape
import TriviaTree.Proofs.Placement.Editing
import TriviaTree.Proofs.Placement.LocalRule

/-!
The slot of a comment is between the code the comment was written between.

Siblings do not overlap, and those in a sequence that takes trivia are in the order of the text. The
comment is in none of the children of the deepest node around it, and these tell its anchor
(`LocalRule`). Each case of the rule then leads to a slot between the neighbours of the comment
(`lands_of_anchor`), with the one exception that `Node.PastRest` describes.
-/

set_option autoImplicit false

namespace TriviaTree

/-! ### Siblings -/

/-- The node ends no later than `place`. -/
def Node.EndsBy (n : Node) (place : Location) : Prop :=
  ∀ s, n.span = some s → s.stop ≤ place

/-- The node ends later than `place`. -/
def Node.EndsAfter (n : Node) (place : Location) : Prop :=
  ∀ s, n.span = some s → place < s.stop

/-- Parameters of a function with one that collects the rest. -/
def Kind.HasRest : Kind Node → Prop
  | .arguments _ vararg _ kwarg => vararg ≠ none ∨ kwarg ≠ none
  | _ => False

namespace Kind.InTextOrder

variable {kind : Kind Node} {field : Field} {cs : List Node}

/-- A sequence that takes trivia holds its code in the order of the text. -/
theorem pairwise (order : kind.InTextOrder) (hentry : (field, cs) ∈ kind.entries)
    (haccepts : field.acceptsTrivia = true) : cs.Pairwise Node.Before := by
  cases kind <;> simp [entries, fields, contents] at hentry <;>
    simp [InTextOrder, List.pairwise_append] at order <;>
    grind [Field.acceptsTrivia, Field.isSequence, Field.one, Field.optional,
      Field.operandSequence, Field.sequence]

/-- What stands outside the sequences that take trivia comes before the first of them, except for
parameters that collect the rest. -/
theorem before_first (order : kind.InTextOrder) (hfirst : kind.triviaField? = some field)
    (hentry : (field, cs) ∈ kind.entries) {other : Field} {ds : List Node}
    (hother : (other, ds) ∈ kind.entries) (hrejects : other.acceptsTrivia = false) {y v : Node}
    (hy : y ∈ ds) (hv : v ∈ cs) : y.Before v ∨ kind.HasRest ∧ field.name = "args" := by
  cases kind <;>
    simp [triviaField?, fields, Field.acceptsTrivia, Field.isSequence, Field.one, Field.optional,
      Field.operandSequence, Field.sequence] at hfirst <;>
    subst hfirst <;> simp [entries, fields, contents] at hentry hother <;>
    simp [InTextOrder, HasRest, List.pairwise_append] at order ⊢ <;>
    grind [Field.acceptsTrivia, Field.isSequence, Field.one, Field.optional,
      Field.operandSequence, Field.sequence]

end Kind.InTextOrder

namespace Node.Nested

variable {B : Bounds} {n : Node}

theorem inTextOrder (nested : n.Nested B) : n.kind.InTextOrder := by
  cases nested with
  | bare hkind => rcases hkind with rfl | rfl <;> simp [Kind.InTextOrder]
  | spanned _ _ _ _ _ _ order => exact order

end Node.Nested

/-! ### Slots between neighbours -/

/-- The one place where a comment goes before code that it comes after: behind all parameters, when
one of them collects the rest. -/
structure Node.PastRest (owner : Node) (field : Field) (index : Nat) (target : Span) : Prop where
  rest : owner.kind.HasRest
  field_eq : field.name = "args"
  index_eq : index = 0
  past : ∀ c ∈ owner.children, c.EndsBy target.start

/-- What is before slot `index` of a sequence ends before the target starts, and what is after it
does not. -/
structure Node.Between (owner : Node) (field : Field) (cs : List Node) (index : Nat)
    (target : Span) : Prop where
  before : ∀ u ∈ cs.take index, u.EndsBy target.start
  after : ∀ v ∈ cs.drop index, v.EndsAfter target.start ∨ owner.PastRest field index target

section Between

variable {owner y : Node} {field : Field} {cs : List Node} {i : Nat} {target : Span}
  (order : cs.Pairwise Node.Before) (hy : cs[i]? = some y)

theorem Node.Before.endsBy_of_start {u v : Node} (h : u.Before v) {t : Span}
    (ht : v.span = some t) {place : Location} (hplace : t.start ≤ place) : u.EndsBy place :=
  fun s hs => (h s t hs ht).trans hplace

include order hy

theorem before_of_mem_take {u : Node} (hu : u ∈ cs.take i) : u.Before y := by
  obtain ⟨hi, rfl⟩ := List.getElem?_eq_some_iff.1 hy
  rw [← List.take_append_drop i cs, List.drop_eq_getElem_cons hi, List.pairwise_append] at order
  exact order.2.2 u hu _ List.mem_cons_self

theorem before_of_mem_drop {v : Node} (hv : v ∈ cs.drop (i + 1)) : y.Before v := by
  obtain ⟨hi, rfl⟩ := List.getElem?_eq_some_iff.1 hy
  rw [← List.take_append_drop i cs, List.drop_eq_getElem_cons hi, List.pairwise_append] at order
  exact (List.pairwise_cons.1 order.2.1).1 v hv

theorem eq_or_before_of_mem_drop {v : Node} (hv : v ∈ cs.drop i) : v = y ∨ y.Before v := by
  obtain ⟨hi, hget⟩ := List.getElem?_eq_some_iff.1 hy
  rw [List.drop_eq_getElem_cons hi, List.mem_cons, hget] at hv
  exact hv.imp_right (before_of_mem_drop order hy)

end Between

/-- The slot is one between the neighbours of the target. -/
def InsertionPoint.Lands (point : InsertionPoint) (full : Node) (target : Span) : Prop :=
  ∃ owner field cs, full.descend? point.steps = some owner ∧
    owner.kind.fieldNamed? point.field = some (field, cs) ∧
    owner.Between field cs point.index target

section Lands

variable {full : Node} {target : Span} {point : InsertionPoint}

theorem lands_of_between {f : FlatNode} (hf : f ∈ full.flatten.nodes) {field : Field}
    {cs : List Node} (hentry : (field, cs) ∈ f.node.kind.entries) {index : Nat}
    (between : f.node.Between field cs index target) :
    (⟨f.way.filterMap (·.step?), f.id, field.name, index⟩ : InsertionPoint).Lands full target :=
  ⟨f.node, field, cs, FlatTree.descend?_way f hf, Kind.fieldNamed?_eq_some_iff.2 ⟨hentry, rfl⟩,
    between⟩

/-- A slot that is found on the way to a node holds a node on that way. -/
theorem locate_through {g : FlatNode} (hg : g ∈ full.flatten.nodes) {path : Path}
    (hpath : path <+: g.way) {before : Bool} (h : locate path before = .ok point) :
    ∃ a ∈ full.flatten.nodes, ∃ y ∈ full.flatten.nodes, ∃ field cs i,
      (field, cs) ∈ a.node.kind.entries ∧ field.acceptsTrivia = true ∧ cs[i]? = some y.node ∧
      y.way = a.way ++ [⟨a.id, some field, some i⟩] ∧ y.way <+: path ∧
      point = ⟨a.way.filterMap (·.step?), a.id, field.name, if before then i else i + 1⟩ := by
  obtain ⟨above, owner, field, i, below, rfl, haccepts, rfl⟩ := locate_ok h
  obtain ⟨rest, hway⟩ := hpath
  rw [List.append_assoc, List.cons_append] at hway
  obtain ⟨a, ha, y, hy, slot, rfl, hslot, hentry, hyway, _⟩ := FlatTree.exists_through hg hway.symm
  obtain ⟨rfl, rfl, hindex⟩ : owner = a.id ∧ field = slot.field ∧ some i = slot.index := by
    simpa using hentry
  obtain ⟨cs, hcs, -, hplace⟩ := Kind.mem_slots_iff.1 hslot
  rw [← hindex] at hplace
  exact ⟨a, ha, y, hy, slot.field, cs, i, hcs, haccepts, hplace, hyway, ⟨below, by simp [hyway]⟩, rfl⟩

theorem exists_child_of_mem {f : FlatNode} (hf : f ∈ full.flatten.nodes) {c : Node}
    (hc : c ∈ f.node.children) :
    ∃ g ∈ full.flatten.nodes, g.node = c ∧ g.parent? = some f.id := by
  rw [Node.children, ← Kind.map_snd_slots] at hc
  obtain ⟨⟨slot, c⟩, hslot, rfl⟩ := List.mem_map.1 hc
  obtain ⟨g, hg, hnode, hway⟩ := full.exists_child 0 [] f hf hslot
  exact ⟨g, hg, hnode, by simp [FlatNode.parent?, hway]⟩

variable (nested : full.Nested (.both fun place => place ≤ target.start ∨ target.stop ≤ place))
  (hroom : target.start < target.stop)

include nested hroom

/-- Right before a child that the target is in. -/
theorem lands_of_contains {a : FlatNode} (ha : a ∈ full.flatten.nodes) {field : Field}
    {cs : List Node} (hentry : (field, cs) ∈ a.node.kind.entries)
    (haccepts : field.acceptsTrivia = true) {i : Nat} {y : Node} (hi : cs[i]? = some y) {s : Span}
    (hs : y.span = some s) (hstart : s.start ≤ target.start) (hstop : target.stop ≤ s.stop) :
    (⟨a.way.filterMap (·.step?), a.id, field.name, i⟩ : InsertionPoint).Lands full target := by
  have order := (nested.of_mem_flatten a ha).inTextOrder.pairwise hentry haccepts
  refine lands_of_between ha hentry ⟨fun u hu => ?_, fun v hv => .inl ?_⟩
  · exact (before_of_mem_take order hi hu).endsBy_of_start hs hstart
  · intro t ht
    have hlt : t.start < t.stop := by
      have hmem := Kind.mem_children_of_mem_entries hentry (List.mem_of_mem_drop hv)
      exact ((nested.of_mem_flatten a ha).of_mem_children hmem).1.of_span ht |>.1
    rcases eq_or_before_of_mem_drop order hi hv with rfl | hbefore
    · cases hs.symm.trans ht
      order
    · have hle := hbefore s t hs ht
      order

/-! ### Inside the module -/

section Inside

open SpannedTree

variable {e : FlatNode} (he : e ∈ full.flatten.nodes)
  (deepest : full.nativeSpanned.Deepest full.native target e.native)

include he deepest

omit hroom in
/-- The target is in none of the children of the deepest node around it. -/
theorem clear_child {c : Node} (hc : c ∈ e.node.children) {s : Span} (hs : c.span = some s) :
    s.start < s.stop ∧ (s.stop ≤ target.start ∨ target.stop ≤ s.start) := by
  obtain ⟨g, hg, rfl, hparent⟩ := exists_child_of_mem he hc
  have hs := (Node.spanOf?_of_mem hg).trans hs
  exact ⟨nested.nests.room g.native (native_mem_flatten hg) s hs,
    deepest.clear_child nested.clear (native_mem_flatten hg) hparent hs⟩

/-- Right before a node that is on the way to the deepest node around the target. -/
theorem lands_above {a y : FlatNode} (ha : a ∈ full.flatten.nodes) (hy : y ∈ full.flatten.nodes)
    {field : Field} {cs : List Node} (hentry : (field, cs) ∈ a.node.kind.entries)
    (haccepts : field.acceptsTrivia = true) {i : Nat} (hi : cs[i]? = some y.node)
    (above : y.way <+: e.way) :
    (⟨a.way.filterMap (·.step?), a.id, field.name, i⟩ : InsertionPoint).Lands full target := by
  obtain ⟨s, hs, hcontains⟩ := deepest.contains
  simp only [Span.contains, Bool.and_eq_true, decide_eq_true_eq] at hcontains
  obtain ⟨outer, houter, hstart, hstop⟩ := nested.nests.inside_of_isPrefix (native_mem_flatten hy)
    e.native (native_mem_flatten he) above s hs
  exact lands_of_contains nested hroom ha hentry haccepts hi
    ((Node.spanOf?_of_mem hy).symm.trans houter) (hstart.trans hcontains.1)
    (hcontains.2.trans hstop)

/-- Right before the first child after the target. -/
theorem lands_before {c : FlatNode} (hc : c ∈ full.flatten.nodes)
    (first : full.nativeSpanned.FirstAfter full.native target e.native c.native)
    (h : locate c.way true = .ok point) : point.Lands full target := by
  obtain ⟨slot, _, hway⟩ := exists_slot_of_parent he hc first.parent
  obtain ⟨a, ha, y, hy, field, cs, i, hentry, haccepts, hi, haway, hyway, rfl⟩ :=
    locate_through hc List.prefix_rfl h
  rw [hway, List.prefix_concat_iff] at hyway
  rcases hyway with hself | above
  · obtain rfl := FlatTree.eq_of_way_eq hy hc (hself.trans hway.symm)
    obtain ⟨hae, _⟩ := List.append_inj' (haway.symm.trans hway) rfl
    obtain rfl := FlatTree.eq_of_way_eq ha he hae
    obtain ⟨s, hs, hafter, hfirst⟩ := first.first
    have hs : y.node.span = some s := (Node.spanOf?_of_mem hy).symm.trans hs
    have hself := (clear_child nested ha deepest
      (Kind.mem_children_of_mem_entries hentry (List.mem_of_getElem? hi)) hs).1
    simp only [Span.startsAfter, decide_eq_true_eq] at hafter hfirst
    have order := (nested.of_mem_flatten a ha).inTextOrder.pairwise hentry haccepts
    refine lands_of_between ha hentry ⟨fun u hu t ht => ?_, fun v hv => .inl fun t ht => ?_⟩
    · have hmem := Kind.mem_children_of_mem_entries hentry (List.mem_of_mem_take hu)
      obtain ⟨hlt, hbefore | hlater⟩ := clear_child nested ha deepest hmem ht
      · exact hbefore
      · obtain ⟨g, hg, rfl, hparent⟩ := exists_child_of_mem ha hmem
        have hle := hfirst g.native (native_mem_flatten hg) hparent t
          ((Node.spanOf?_of_mem hg).trans ht) hlater
        have hstop := before_of_mem_take order hi hu t s ht hs
        order
    · have hmem := Kind.mem_children_of_mem_entries hentry (List.mem_of_mem_drop hv)
      obtain ⟨hlt, _⟩ := clear_child nested ha deepest hmem ht
      rcases eq_or_before_of_mem_drop order hi hv with rfl | hbefore
      · cases hs.symm.trans ht
        order
      · have hle := hbefore s t hs ht
        order
  · exact lands_above nested hroom he deepest ha hy hentry haccepts hi above

/-- Right after the last child before the target. -/
theorem lands_after {c : FlatNode} (hc : c ∈ full.flatten.nodes)
    (last : full.nativeSpanned.LastBefore full.native target e.native c.native)
    (haccepts : c.field?.any (·.acceptsTrivia) = true) (h : locate c.way false = .ok point) :
    point.Lands full target := by
  obtain ⟨slot, hslot, hway⟩ := exists_slot_of_parent he hc last.parent
  have haccepts : slot.field.acceptsTrivia = true := by simpa [FlatNode.field?, hway] using haccepts
  obtain ⟨cs, hentry, hsequence, hi⟩ := Kind.mem_slots_iff.1 hslot
  obtain ⟨i, hindex⟩ := Option.isSome_iff_exists.1
    (hsequence.symm.trans (Bool.and_eq_true_iff.1 haccepts).1)
  rw [hindex, Option.getD_some] at hi
  rw [hway, hindex, locate_append haccepts (by simp)] at h
  cases h
  have order := (nested.of_mem_flatten e he).inTextOrder.pairwise hentry haccepts
  obtain ⟨s, hs, hends, hlast⟩ := last.last
  have hs : c.node.span = some s := (Node.spanOf?_of_mem hc).symm.trans hs
  simp only [Span.endsBefore, decide_eq_true_eq] at hends hlast
  have hlt := (clear_child nested he deepest (Kind.mem_children_of_mem_slots hslot) hs).1
  refine lands_of_between he hentry ⟨fun u hu t ht => ?_, fun v hv => .inl fun t ht => ?_⟩
  · rw [if_neg (by simp), List.take_add_one, hi] at hu
    rcases List.mem_append.1 hu with hu | hu
    · have hle := before_of_mem_take order hi hu t s ht hs
      order
    · obtain rfl : u = c.node := by simpa using hu
      cases hs.symm.trans ht
      exact hends
  · rw [if_neg (by simp)] at hv
    have hmem := Kind.mem_children_of_mem_entries hentry (List.mem_of_mem_drop hv)
    obtain ⟨hlt', hbefore | hlater⟩ := clear_child nested he deepest hmem ht
    · obtain ⟨g, hg, rfl, hparent⟩ := exists_child_of_mem he hmem
      have hle := hlast g.native (native_mem_flatten hg) hparent t
        ((Node.spanOf?_of_mem hg).trans ht) hbefore
      have hstart := before_of_mem_drop order hi hv s t hs ht
      order
    · order

/-- At the start of the deepest node around the target, when nothing in it comes after the target
and the last child before the target is in a field that takes no trivia. -/
theorem lands_inside {field : Field} (hfield : e.node.kind.triviaField? = some field)
    (hafter : full.nativeSpanned.NoneAfter full.native target e.native)
    (hslots : full.nativeSpanned.NoSlotBefore full.native target e.native) :
    (⟨e.way.filterMap (·.step?), e.id, field.name, 0⟩ : InsertionPoint).Lands full target := by
  have hpast : ∀ c ∈ e.node.children, c.EndsBy target.start := by
    intro c hc s hs
    refine (clear_child nested he deepest hc hs).2.resolve_right fun hlater => ?_
    obtain ⟨g, hg, rfl, hparent⟩ := exists_child_of_mem he hc
    have hnone := hafter g.native (native_mem_flatten hg) hparent s ((Node.spanOf?_of_mem hg).trans hs)
    simp [Span.startsAfter, hlater] at hnone
  obtain ⟨_, cs, hentry⟩ := exists_entry_of_triviaField? hfield
  refine lands_of_between he hentry ⟨by simp, fun v hv => ?_⟩
  have hchild : v ∈ e.node.children := Kind.mem_children_of_mem_entries hentry hv
  cases hspan : v.span with
  | none => exact .inl fun t ht => absurd (hspan.symm.trans ht) (by simp)
  | some t =>
      right
      have hlt := (clear_child nested he deepest hchild hspan).1
      have hends := hpast v hchild t hspan
      obtain ⟨g, hg, rfl, hparent⟩ := exists_child_of_mem he hchild
      have hg' := native_mem_flatten hg
      have ht := (Node.spanOf?_of_mem hg).trans hspan
      rcases deepest.preceding_cases nested.nests hroom nested.clear with
        ⟨_, last, _⟩ | ⟨hnone, _⟩
      · obtain ⟨c, hc, rfl⟩ := exists_of_mem_flatten_native last.mem
        obtain ⟨s, hs, _, hlast⟩ := last.last
        have hs : c.node.span = some s := (Node.spanOf?_of_mem hc).symm.trans hs
        have hle := hlast g.native hg' hparent t ht (by simpa [Span.endsBefore] using hends)
        obtain ⟨slot, hslot, hway⟩ := exists_slot_of_parent he hc last.parent
        obtain ⟨ds, hds, -, hplace⟩ := Kind.mem_slots_iff.1 hslot
        have hrejects : slot.field.acceptsTrivia = false := by
          simpa [FlatNode.native, FlatNode.field?, hway] using hslots _ last
        have hmem : c.node ∈ ds := List.mem_of_getElem? hplace
        rcases (nested.of_mem_flatten e he).inTextOrder.before_first hfield hentry hds hrejects hmem
          hv with hfirst | ⟨hrest, hname⟩
        · have hstart := hfirst s t hs hspan
          order
        · exact ⟨hrest, hname, rfl, hpast⟩
      · have hbefore := hnone g.native hg' hparent t ht
        simp [Span.endsBefore, hends] at hbefore

/-- Where the rule for the deepest node around the target puts it. -/
theorem lands_of_localRule {anchor : Anchor}
    (rule : LocalRule full.nativeSpanned full.native target e.native anchor)
    (h : locate anchor.path anchor.before = .ok point) : point.Lands full target := by
  have hfields : e.native.node.kind.triviaField? = e.node.kind.triviaField? := by
    simp [FlatNode.native, Node.kind_native, Kind.triviaField?, Kind.fields_map]
  cases rule with
  | before first =>
      obtain ⟨c, hc, rfl⟩ := exists_of_mem_flatten_native first.mem
      rw [← way_eq_slotPath deepest.mem first.mem first.parent] at h
      exact lands_before nested hroom he deepest hc first h
  | after _ last accepts =>
      obtain ⟨c, hc, rfl⟩ := exists_of_mem_flatten_native last.mem
      rw [← way_eq_slotPath deepest.mem last.mem last.parent] at h
      exact lands_after nested hroom he deepest hc last accepts h
  | inside none_after no_slot takes =>
      rw [hfields] at takes
      rw [slotPath, locate_append (exists_entry_of_triviaField? takes).1 (by simp)] at h
      cases h
      exact lands_inside nested hroom he deepest takes none_after no_slot
  | around =>
      obtain ⟨a, ha, y, hy, field, cs, i, hentry, haccepts, hi, _, hyway, rfl⟩ :=
        locate_through he List.prefix_rfl h
      exact lands_above nested hroom he deepest ha hy hentry haccepts hi hyway

end Inside

/-- The slot of an anchor is between the neighbours of the target. -/
theorem lands_of_anchor {body : List Node} (hkind : full.kind = .module body) {anchor : Anchor}
    (h : full.nativeSpanned.anchor target = .ok anchor)
    (hpoint : locate anchor.path anchor.before = .ok point) : point.Lands full target := by
  rcases nested.nests.enclosing?_cases hroom with ⟨_, houtside⟩ | ⟨_, deepest, _⟩
  · have hnative : full.native.kind = .module (body.map Node.native) := by
      rw [Node.kind_native, hkind]
      rfl
    have hentry : (Field.sequence "body", body) ∈ full.kind.entries := by
      simp [hkind, Kind.entries, Kind.fields, Kind.contents]
    have hroot : ∀ c ∈ body, ∀ s, c.span = some s → s.start < s.stop ∧ ∃ outer,
        full.nativeSpanned.spanOf? 0 = some outer ∧ outer.start ≤ s.start ∧ s.stop ≤ outer.stop := by
      intro c hc s hs
      obtain ⟨g, hg, rfl, _⟩ := exists_child_of_mem (FlatTree.root_mem full)
        (Kind.mem_children_of_mem_entries hentry hc)
      have hs := (Node.spanOf?_of_mem hg).trans hs
      exact ⟨nested.nests.room g.native (native_mem_flatten hg) s hs,
        nested.nests.root_around (native_mem_flatten hg) hs⟩
    rw [nested.nests.anchor_outside hnative hroom nested.clear houtside] at h
    split at h
    · next hends =>
      cases h
      rw [SpannedTree.slotPath, locate_append rfl (by simp)] at hpoint
      cases hpoint
      refine lands_of_between (FlatTree.root_mem full) hentry ⟨fun u hu s hs => ?_, fun v hv => ?_⟩
      · obtain ⟨_, outer, houter, _, hstop⟩ := hroot u (List.mem_of_mem_take hu) s hs
        simp only [houter, Option.any_some, Span.endsBefore, decide_eq_true_eq] at hends
        exact hstop.trans hends
      · rw [if_neg (by simp), List.length_map, List.drop_of_length_le (by omega)] at hv
        cases hv
    · next hends =>
      cases h
      rw [SpannedTree.slotPath, locate_append rfl (by simp)] at hpoint
      cases hpoint
      refine lands_of_between (FlatTree.root_mem full) hentry ⟨by simp, fun v hv => .inl fun s hs => ?_⟩
      obtain ⟨hlt, outer, houter, hstart, _⟩ := hroot v (List.mem_of_mem_drop hv) s hs
      rcases nested.clear 0 outer houter with hcontains | hover | hlater
      · simp [houtside _ (FlatTree.root_mem _) outer houter] at hcontains
      · simp [houter, hover] at hends
      · simp only [Span.startsAfter, decide_eq_true_eq] at hlater
        order
  · obtain ⟨e, he, rfl⟩ := exists_of_mem_flatten_native deepest.mem
    obtain ⟨anchor', hanchor, rule⟩ := deepest.localRule nested.nests hroom nested.clear
    cases hanchor.symm.trans h
    exact lands_of_localRule nested hroom he deepest rule hpoint

end Lands

end TriviaTree
