import Mathlib
import TriviaTree.Proofs.Placement.Spans

/-!
The place of a comment, told from one node and its children.

`anchor` picks its three nodes from all nodes of a tree, by where they start and end. When the spans
nest (`SpannedTree.Nests`), of two nodes that overlap one is on the way to the other
(`Nests.comparable`). So the node picked as enclosing is the deepest one around the comment, and the
nodes picked as following and preceding are children of it or lie outside it. What is left of the
choice is a rule about the children of the enclosing node (`LocalRule`, `anchor_by_local_rule`).
-/

set_option autoImplicit false

namespace TriviaTree

variable {c f : FlatNode} {s : Span}

namespace SpannedTree

/-- The spans nest: nodes with children have one, each takes up room and lies inside that of its
parent, and those of different children of one node are disjoint. -/
structure Nests (t : SpannedTree) (n : Node) : Prop where
  flat : t.flat = n.flatten
  length : t.spans.length = n.flatten.nodes.length
  spanned : ∀ f ∈ n.flatten.nodes, f.node.children ≠ [] → t.spanOf? f.id ≠ none
  room : ∀ f ∈ n.flatten.nodes, ∀ s, t.spanOf? f.id = some s → s.start < s.stop
  inside : ∀ p ∈ n.flatten.nodes, ∀ f ∈ n.flatten.nodes, f.parent? = some p.id →
    ∀ outer s, t.spanOf? p.id = some outer → t.spanOf? f.id = some s → outer.contains s = true
  apart : ∀ f ∈ n.flatten.nodes, ∀ g ∈ n.flatten.nodes, f.parent? = g.parent? → f.id ≠ g.id →
    ∀ s s', t.spanOf? f.id = some s → t.spanOf? g.id = some s' →
      s.endsBefore s' = true ∨ s'.endsBefore s = true

/-- The deepest of the nodes around the target. -/
structure Deepest (t : SpannedTree) (n : Node) (target : Span) (e : FlatNode) : Prop where
  mem : e ∈ n.flatten.nodes
  contains : ∃ s, t.spanOf? e.id = some s ∧ s.contains target = true
  depth_le : ∀ f ∈ n.flatten.nodes, ∀ s, t.spanOf? f.id = some s → s.contains target = true →
    f.depth ≤ e.depth

/-- A child of `e` that starts once the target is over, and no other such child starts earlier. -/
structure FirstAfter (t : SpannedTree) (n : Node) (target : Span) (e c : FlatNode) : Prop where
  mem : c ∈ n.flatten.nodes
  parent : c.parent? = some e.id
  first : ∃ s, t.spanOf? c.id = some s ∧ s.startsAfter target = true ∧
    ∀ d ∈ n.flatten.nodes, d.parent? = some e.id → ∀ s', t.spanOf? d.id = some s' →
      s'.startsAfter target = true → s.start ≤ s'.start

/-- A child of `e` that is over when the target starts, and no other such child ends later. -/
structure LastBefore (t : SpannedTree) (n : Node) (target : Span) (e c : FlatNode) : Prop where
  mem : c ∈ n.flatten.nodes
  parent : c.parent? = some e.id
  last : ∃ s, t.spanOf? c.id = some s ∧ s.endsBefore target = true ∧
    ∀ d ∈ n.flatten.nodes, d.parent? = some e.id → ∀ s', t.spanOf? d.id = some s' →
      s'.endsBefore target = true → s'.stop ≤ s.stop

/-- The path to `e` with a slot of `e` named in its last entry. -/
def slotPath (e : FlatNode) (field : Option Field) (index : Option Nat) : Path :=
  e.way ++ [⟨e.id, field, index⟩]

/-- No child of `e` starts once the target is over. -/
def NoneAfter (t : SpannedTree) (n : Node) (target : Span) (e : FlatNode) : Prop :=
  ∀ d ∈ n.flatten.nodes, d.parent? = some e.id → ∀ s, t.spanOf? d.id = some s →
    s.startsAfter target = false

/-- No child of `e` is over when the target starts, or the last one that is stands where trivia may
not. -/
def NoSlotBefore (t : SpannedTree) (n : Node) (target : Span) (e : FlatNode) : Prop :=
  ∀ c, t.LastBefore n target e c → c.field?.any (·.acceptsTrivia) = false

/-- The place of a target whose deepest node around it is `e`. -/
inductive LocalRule (t : SpannedTree) (n : Node) (target : Span) (e : FlatNode) : Anchor → Prop where
  /-- Before the first child after the target. -/
  | before {c : FlatNode} (first : t.FirstAfter n target e c) :
      LocalRule t n target e ⟨slotPath e c.field? c.index?, true⟩
  /-- After the last child before the target, where trivia may stand. -/
  | after {c : FlatNode} (none_after : t.NoneAfter n target e)
      (last : t.LastBefore n target e c) (accepts : c.field?.any (·.acceptsTrivia) = true) :
      LocalRule t n target e ⟨slotPath e c.field? c.index?, false⟩
  /-- Into the first field that takes trivia. -/
  | inside {field : Field} (none_after : t.NoneAfter n target e)
      (no_slot : t.NoSlotBefore n target e)
      (takes : e.node.kind.triviaField? = some field) :
      LocalRule t n target e ⟨slotPath e (some field) (some 0), true⟩
  /-- Before the node itself, when it takes no trivia: its path ends with its own slot. -/
  | around (none_after : t.NoneAfter n target e)
      (no_slot : t.NoSlotBefore n target e)
      (takes : e.node.kind.triviaField? = none) :
      LocalRule t n target e ⟨e.way, true⟩

variable {t : SpannedTree} {n : Node} {target : Span}

/-! ### Nodes that overlap -/

/-- A node whose parent is `e` stands in a slot of `e`. -/
theorem exists_slot_of_parent {e : FlatNode} (he : e ∈ n.flatten.nodes) (hc : c ∈ n.flatten.nodes)
    (hparent : c.parent? = some e.id) :
    ∃ slot, (slot, c.node) ∈ e.node.kind.slots ∧
      c.way = e.way ++ [⟨e.id, some slot.field, slot.index⟩] := by
  rcases n.exists_parent 0 [] c hc with rfl | ⟨p, hp, slot, hslot, hway⟩
  · cases hparent
  · obtain rfl : p = e := FlatTree.eq_of_id_eq hp he (by simpa [FlatNode.parent?, hway] using hparent)
    exact ⟨slot, hslot, hway⟩

theorem way_eq_slotPath {e : FlatNode} (he : e ∈ n.flatten.nodes) (hc : c ∈ n.flatten.nodes)
    (hparent : c.parent? = some e.id) : c.way = slotPath e c.field? c.index? := by
  obtain ⟨slot, _, hway⟩ := exists_slot_of_parent he hc hparent
  simp [slotPath, FlatNode.field?, FlatNode.index?, hway]

namespace Nests

variable (h : t.Nests n)

include h

/-- A node with a span has a parent with a span around it. -/
theorem exists_outer {p : FlatNode} (hp : p ∈ n.flatten.nodes) (hf : f ∈ n.flatten.nodes)
    (hparent : f.parent? = some p.id) (hs : t.spanOf? f.id = some s) :
    ∃ outer, t.spanOf? p.id = some outer ∧ outer.start ≤ s.start ∧ s.stop ≤ outer.stop := by
  obtain ⟨slot, hslot, _⟩ := exists_slot_of_parent hp hf hparent
  have hchildren := List.ne_nil_of_mem (Kind.mem_children_of_mem_slots hslot)
  obtain ⟨outer, houter⟩ := Option.ne_none_iff_exists'.1 (h.spanned p hp hchildren)
  have hinside := h.inside p hp f hf hparent outer s houter hs
  simp only [Span.contains, Bool.and_eq_true, decide_eq_true_eq] at hinside
  exact ⟨outer, houter, hinside⟩

/-- A node lies inside every node on the way to it. -/
theorem inside_of_isPrefix {y : FlatNode} (hy : y ∈ n.flatten.nodes) :
    ∀ f ∈ n.flatten.nodes, y.way <+: f.way → ∀ s, t.spanOf? f.id = some s →
      ∃ outer, t.spanOf? y.id = some outer ∧ outer.start ≤ s.start ∧ s.stop ≤ outer.stop := by
  refine FlatTree.flatten_induction ?_ ?_
  · intro above s hs
    obtain rfl := FlatTree.eq_root_of_way_eq_nil hy (List.prefix_nil.1 above)
    exact ⟨s, hs, le_rfl, le_rfl⟩
  · intro p hp ih f hf slot _ hway above s hs
    rw [hway, List.prefix_concat_iff] at above
    rcases above with heq | above
    · obtain rfl := FlatTree.eq_of_way_eq hy hf (heq.trans hway.symm)
      exact ⟨s, hs, le_rfl, le_rfl⟩
    · have hparent : f.parent? = some p.id := by simp [FlatNode.parent?, hway]
      obtain ⟨inner, hinner, hstart, hstop⟩ := h.exists_outer hp hf hparent hs
      obtain ⟨outer, houter, hstart', hstop'⟩ := ih above inner hinner
      exact ⟨outer, houter, hstart'.trans hstart, hstop.trans hstop'⟩

/-- Of two nodes that overlap one is on the way to the other. -/
theorem comparable : ∀ f ∈ n.flatten.nodes, ∀ e ∈ n.flatten.nodes, ∀ s s',
    t.spanOf? f.id = some s → t.spanOf? e.id = some s' → s.start < s'.stop → s'.start < s.stop →
      f.way <+: e.way ∨ e.way <+: f.way := by
  refine FlatTree.flatten_induction ?_ ?_
  · intro e he s s' hs hs' _ _
    exact .inl List.nil_prefix
  · intro p hp ih f hf slot _ hway e he s s' hs hs' hlt hlt'
    have hparent : f.parent? = some p.id := by simp [FlatNode.parent?, hway]
    have hpf : p.way <+: f.way := hway ▸ List.prefix_append _ _
    obtain ⟨outer, houter, hstart, hstop⟩ := h.exists_outer hp hf hparent hs
    rcases ih e he outer s' houter hs' (hstart.trans_lt hlt) (hlt'.trans_le hstop) with hpe | hep
    · obtain ⟨rest, hrest⟩ := hpe
      cases rest with
      | nil => exact .inr ((List.append_nil _ ▸ hrest) ▸ hpf)
      | cons entry below =>
          obtain ⟨a, ha, y, hy, slot', haway, _, rfl, hyway, _⟩ :=
            FlatTree.exists_through he hrest.symm
          obtain rfl := FlatTree.eq_of_way_eq ha hp haway
          have hye : y.way <+: e.way := by
            rw [hyway, ← hrest]
            exact ⟨below, by simp⟩
          by_cases hsame : f.id = y.id
          · exact .inl (FlatTree.eq_of_id_eq hf hy hsame ▸ hye)
          · exfalso
            -- different children of one node do not overlap, and `e` is inside the other one
            obtain ⟨around, haround, hstart', hstop'⟩ := h.inside_of_isPrefix hy e he hye s' hs'
            have hsiblings : f.parent? = y.parent? := by simp [FlatNode.parent?, hway, hyway]
            have hapart := h.apart f hf y hy hsiblings hsame s around hs haround
            simp only [Span.endsBefore, decide_eq_true_eq] at hapart
            rcases hapart with hbefore | hafter
            · order
            · order
    · exact .inr (hep.trans hpf)

theorem mem_located_of (hf : f ∈ n.flatten.nodes) (hs : t.spanOf? f.id = some s) :
    (⟨f.id, s, f.depth⟩ : Located) ∈ t.located :=
  (mem_located h.flat).2 ⟨f, hf, rfl, rfl, hs⟩

theorem exists_of_mem_located {l : Located} (hl : l ∈ t.located) :
    ∃ f ∈ n.flatten.nodes, ∃ s, t.spanOf? f.id = some s ∧ l = ⟨f.id, s, f.depth⟩ := by
  obtain ⟨f, hf, places⟩ := (mem_located h.flat).1 hl
  obtain ⟨id, span, depth⟩ := l
  obtain ⟨rfl, rfl, hspan⟩ := places
  exact ⟨f, hf, span, hspan, rfl⟩

/-- A node strictly below another comes after it when nodes are ordered by their starts. -/
theorem around_of_isPrefix {y : FlatNode} (hy : y ∈ n.flatten.nodes) (hf : f ∈ n.flatten.nodes)
    (above : y.way <+: f.way) (hlt : y.depth < f.depth) {outer : Span}
    (houter : t.spanOf? y.id = some outer) (hs : t.spanOf? f.id = some s) :
    (⟨y.id, outer, y.depth⟩ : Located).Around ⟨f.id, s, f.depth⟩ := by
  obtain ⟨outer', houter', hstart, hstop⟩ := h.inside_of_isPrefix hy f hf above s hs
  cases houter.symm.trans houter'
  exact ⟨hstart, hstop, hlt⟩

end Nests

/-! ### The three nodes that decide -/

theorem isBelow_iff_exists_child (hflat : t.flat = n.flatten) {p e : FlatNode}
    (hp : p ∈ n.flatten.nodes) (he : e ∈ n.flatten.nodes) :
    t.isBelow p.id e.id = true ↔
      ∃ c ∈ n.flatten.nodes, c.parent? = some e.id ∧ c.way <+: p.way := by
  constructor
  · intro h
    obtain ⟨above, entry, below, hway, hentry⟩ := exists_entry_of_isBelow hp hflat h
    obtain ⟨a, ha, c, hc, slot, rfl, _, rfl, hcway, _⟩ := FlatTree.exists_through hp hway
    refine ⟨c, hc, by simpa [FlatNode.parent?, hcway] using hentry, below, ?_⟩
    rw [hcway, hway, List.append_assoc, List.singleton_append]
  · rintro ⟨c, hc, hparent, below, hway⟩
    obtain ⟨slot, _, hcway⟩ := exists_slot_of_parent he hc hparent
    have hne : p.id ≠ e.id := by
      intro hid
      obtain rfl := FlatTree.eq_of_id_eq hp he hid
      simp [hcway] at hway
    simp [isBelow, FlatTree.isAncestor, path_eq hflat hp, hne, ← hway, hcway]

/-- The slot taken after a node below `e` is that of the child it is in. -/
theorem afterPreceding?_eq_of_child (hflat : t.flat = n.flatten) {p e : FlatNode}
    (hp : p ∈ n.flatten.nodes) (he : e ∈ n.flatten.nodes) (hc : c ∈ n.flatten.nodes)
    (hparent : c.parent? = some e.id) (above : c.way <+: p.way) :
    t.afterPreceding? p.id e.id =
      if c.field?.any (·.acceptsTrivia) then some ⟨slotPath e c.field? c.index?, false⟩
      else none := by
  have hbelow := (isBelow_iff_exists_child hflat hp he).2 ⟨c, hc, hparent, above⟩
  obtain ⟨below, hway⟩ := above
  rw [way_eq_slotPath he hc hparent, slotPath, List.append_assoc, List.singleton_append] at hway
  -- no node on the way to `e` is `e` itself
  have hfirst : e.way.findIdx? (·.node = e.id) = none := by
    rw [List.findIdx?_eq_none_iff]
    intro entry hentry
    obtain ⟨above, rest, heway⟩ := List.append_of_mem hentry
    obtain ⟨b, hb, rfl, slot, _, _, rfl⟩ := FlatTree.exists_ancestor e he above rest entry heway
    by_contra hid
    obtain rfl := FlatTree.eq_of_id_eq hb he (by simpa using hid)
    simp at heway
  simp only [afterPreceding?, hbelow, path_eq hflat hp, ← hway, slotPath]
  simp [hfirst, List.findIdx?_cons, List.take_append, List.take_of_length_le]

section Deciding

variable (h : t.Nests n) (hroom : target.start < target.stop)

include h hroom

theorem Nests.comparable_of_contains {e : FlatNode} (hf : f ∈ n.flatten.nodes)
    (he : e ∈ n.flatten.nodes) {s' : Span} (hs : t.spanOf? f.id = some s)
    (hs' : t.spanOf? e.id = some s') (hcontains : s.contains target = true)
    (hcontains' : s'.contains target = true) : f.way <+: e.way ∨ e.way <+: f.way := by
  simp only [Span.contains, Bool.and_eq_true, decide_eq_true_eq] at hcontains hcontains'
  exact h.comparable f hf e he s s' hs hs' (by order) (by order)

/-- The node picked as enclosing is the deepest one around the target. -/
theorem Nests.enclosing?_cases :
    (t.enclosing? target = none ∧ ∀ f ∈ n.flatten.nodes, ∀ s, t.spanOf? f.id = some s →
      s.contains target = false) ∨
    ∃ e, t.Deepest n target e ∧ t.enclosing? target = some e.id := by
  rcases t.enclosing?_cases target with ⟨hnone, hall⟩ | ⟨l, hl, hsome, hcontains, hbest⟩
  · exact .inl ⟨hnone, fun f hf s hs => hall _ (h.mem_located_of hf hs)⟩
  · obtain ⟨e, he, s, hs, rfl⟩ := h.exists_of_mem_located hl
    refine .inr ⟨e, ⟨he, ⟨s, hs, hcontains⟩, fun f hf s' hs' hcontains' => ?_⟩, hsome⟩
    rcases h.comparable_of_contains hroom hf he hs' hs hcontains' hcontains with above | below
    · exact above.length_le
    · by_contra hdeeper
      have haround := h.around_of_isPrefix he hf below (not_le.1 hdeeper) hs hs'
      exact haround.not_isLE (hbest _ (h.mem_located_of hf hs') hcontains')

theorem Deepest.unique {e e' : FlatNode} (deepest : t.Deepest n target e)
    (deepest' : t.Deepest n target e') : e = e' := by
  obtain ⟨s, hs, hcontains⟩ := deepest.contains
  obtain ⟨s', hs', hcontains'⟩ := deepest'.contains
  have hle := deepest.depth_le e' deepest'.mem s' hs' hcontains'
  have hge := deepest'.depth_le e deepest.mem s hs hcontains
  have hlength : e.way.length = e'.way.length := le_antisymm hge hle
  rcases h.comparable_of_contains hroom deepest.mem deepest'.mem hs hs' hcontains hcontains' with
    above | below
  · exact FlatTree.eq_of_way_eq deepest.mem deepest'.mem (above.eq_of_length hlength)
  · exact FlatTree.eq_of_way_eq deepest.mem deepest'.mem (below.eq_of_length hlength.symm).symm

variable (clear : t.Clear target) {e : FlatNode} (deepest : t.Deepest n target e)

include deepest

omit h hroom in
include clear in
/-- No child of the deepest node is around the target. -/
theorem Deepest.clear_child (hc : c ∈ n.flatten.nodes) (hparent : c.parent? = some e.id)
    (hs : t.spanOf? c.id = some s) : s.stop ≤ target.start ∨ target.stop ≤ s.start := by
  rcases clear c.id s hs with hcontains | hends | hstarts
  · have hle := deepest.depth_le c hc s hs hcontains
    obtain ⟨slot, _, hway⟩ := exists_slot_of_parent deepest.mem hc hparent
    simp [FlatNode.depth, hway] at hle
  · exact .inl (by simpa [Span.endsBefore] using hends)
  · exact .inr (by simpa [Span.startsAfter] using hstarts)

/-- A node that overlaps the deepest node around the target, but not the target, is in one of its
children. -/
theorem Deepest.exists_child_of_overlaps {g : FlatNode} (hg : g ∈ n.flatten.nodes) {outer : Span}
    (hs : t.spanOf? g.id = some s) (houter : t.spanOf? e.id = some outer)
    (hclear : s.stop ≤ target.start ∨ target.stop ≤ s.start) (hstart : s.start < outer.stop)
    (hstop : outer.start < s.stop) :
    ∃ c ∈ n.flatten.nodes, c.parent? = some e.id ∧ c.way <+: g.way := by
  obtain ⟨_, hcontains, hinside⟩ := deepest.contains
  cases houter.symm.trans hcontains
  simp only [Span.contains, Bool.and_eq_true, decide_eq_true_eq] at hinside
  have hnot : ¬ g.way <+: e.way := by
    intro above
    obtain ⟨around, haround, hbegin, hend⟩ :=
      h.inside_of_isPrefix hg e deepest.mem above outer houter
    cases hs.symm.trans haround
    rcases hclear with hclear | hclear <;> order
  obtain ⟨rest, hrest⟩ := (h.comparable g hg e deepest.mem s outer hs houter hstart
    hstop).resolve_left hnot
  cases rest with
  | nil => exact absurd (by simp [← hrest]) hnot
  | cons entry below =>
      obtain ⟨a, ha, c, hc, slot, haway, _, rfl, hcway, _⟩ := FlatTree.exists_through hg hrest.symm
      obtain rfl := FlatTree.eq_of_way_eq ha deepest.mem haway
      refine ⟨c, hc, by simp [FlatNode.parent?, hcway], below, ?_⟩
      rw [hcway, ← hrest, List.append_assoc, List.singleton_append]

include clear

/-- The node that follows the target inside the deepest node around it is the first child after
it. -/
theorem Deepest.following_cases :
    (∃ c, t.FirstAfter n target e c ∧
      (t.following? target).filter (t.isBelow · e.id) = some c.id) ∨
    (t.NoneAfter n target e ∧ (t.following? target).filter (t.isBelow · e.id) = none) := by
  obtain ⟨outer, houter, hinside⟩ := deepest.contains
  simp only [Span.contains, Bool.and_eq_true, decide_eq_true_eq] at hinside
  rcases t.following?_cases target with ⟨hnone, hall⟩ | ⟨l, hl, hsome, hafter, hbest⟩
  · exact .inr ⟨fun d hd _ s hs => hall _ (h.mem_located_of hd hs), by rw [hnone]; rfl⟩
  obtain ⟨f, hf, s, hs, rfl⟩ := h.exists_of_mem_located hl
  simp only [Span.startsAfter, decide_eq_true_eq] at hafter hbest
  have hroomf := h.room f hf s hs
  by_cases hbelow : t.isBelow f.id e.id = true
  · left
    obtain ⟨c, hc, hparent, above⟩ := (isBelow_iff_exists_child h.flat hf deepest.mem).1 hbelow
    obtain ⟨s', hs', hstart, hstop⟩ := h.inside_of_isPrefix hc f hf above s hs
    have hstarts : target.stop ≤ s'.start := by
      rcases deepest.clear_child clear hc hparent hs' with hends | hstarts
      · order
      · exact hstarts
    -- the child comes before everything in it, so the node picked is the child
    obtain rfl : c = f := by
      refine FlatTree.eq_of_way_eq hc hf (above.eq_of_length ?_)
      refine le_antisymm above.length_le (not_lt.1 fun hdeeper => ?_)
      have haround := h.around_of_isPrefix hc hf above hdeeper hs' hs
      exact haround.not_isLE (hbest _ (h.mem_located_of hc hs') hstarts)
    refine ⟨c, ⟨hc, hparent, s, hs, by simpa [Span.startsAfter] using hafter, ?_⟩, ?_⟩
    · intro d hd _ s'' hs'' hstarts'
      simp only [Span.startsAfter, decide_eq_true_eq] at hstarts'
      exact Located.start_le_of_isLE (hbest _ (h.mem_located_of hd hs'') hstarts')
    · rw [hsome, Option.filter_some, if_pos hbelow]
  · right
    constructor
    · intro d hd hparent s' hs'
      by_contra hstarts
      simp only [Span.startsAfter, decide_eq_true_eq, Bool.not_eq_false] at hstarts
      -- then the node picked would start inside the deepest node, too
      have hle := Located.start_le_of_isLE (hbest _ (h.mem_located_of hd hs') hstarts)
      obtain ⟨outer', houter', _, hstop⟩ := h.exists_outer deepest.mem hd hparent hs'
      cases houter.symm.trans houter'
      have hroomd := h.room d hd s' hs'
      simp only at hle
      have hchild := deepest.exists_child_of_overlaps h hroom hf hs houter (.inr hafter)
        (by order) (by order)
      exact hbelow ((isBelow_iff_exists_child h.flat hf deepest.mem).2 hchild)
    · rw [hsome, Option.filter_some, if_neg hbelow]

/-- The node that precedes the target is in the last child before it, or there is no such child. -/
theorem Deepest.preceding_cases :
    (∃ c, t.LastBefore n target e c ∧
      (t.preceding? target).bind (t.afterPreceding? · e.id) =
        if c.field?.any (·.acceptsTrivia) then some ⟨slotPath e c.field? c.index?, false⟩
        else none) ∨
    ((∀ d ∈ n.flatten.nodes, d.parent? = some e.id → ∀ s, t.spanOf? d.id = some s →
        s.endsBefore target = false) ∧
      (t.preceding? target).bind (t.afterPreceding? · e.id) = none) := by
  obtain ⟨outer, houter, hinside⟩ := deepest.contains
  simp only [Span.contains, Bool.and_eq_true, decide_eq_true_eq] at hinside
  rcases t.preceding?_cases target with ⟨hnone, hall⟩ | ⟨l, hl, hsome, hbefore, hbest⟩
  · exact .inr ⟨fun d hd _ s hs => hall _ (h.mem_located_of hd hs), by rw [hnone]; rfl⟩
  obtain ⟨p, hp, s, hs, rfl⟩ := h.exists_of_mem_located hl
  simp only [Span.endsBefore, decide_eq_true_eq] at hbefore hbest
  have hroomp := h.room p hp s hs
  rw [hsome, Option.bind_some]
  by_cases hbelow : t.isBelow p.id e.id = true
  · left
    obtain ⟨c, hc, hparent, above⟩ := (isBelow_iff_exists_child h.flat hp deepest.mem).1 hbelow
    obtain ⟨s', hs', hstart, hstop⟩ := h.inside_of_isPrefix hc p hp above s hs
    have hends : s'.stop ≤ target.start := by
      rcases deepest.clear_child clear hc hparent hs' with hends | hstarts
      · exact hends
      · order
    refine ⟨c, ⟨hc, hparent, s', hs', by simpa [Span.endsBefore] using hends, ?_⟩,
      afterPreceding?_eq_of_child h.flat hp deepest.mem hc hparent above⟩
    intro d hd _ s'' hs'' hends'
    simp only [Span.endsBefore, decide_eq_true_eq] at hends'
    exact (Located.stop_le_of_isLE (hbest _ (h.mem_located_of hd hs'') hends')).trans hstop
  · right
    constructor
    · intro d hd hparent s' hs'
      by_contra hends
      simp only [Span.endsBefore, decide_eq_true_eq, Bool.not_eq_false] at hends
      have hle := Located.stop_le_of_isLE (hbest _ (h.mem_located_of hd hs') hends)
      obtain ⟨outer', houter', hstart, _⟩ := h.exists_outer deepest.mem hd hparent hs'
      cases houter.symm.trans houter'
      have hroomd := h.room d hd s' hs'
      simp only at hle
      have hchild := deepest.exists_child_of_overlaps h hroom hp hs houter (.inl hbefore)
        (by order) (by order)
      exact hbelow ((isBelow_iff_exists_child h.flat hp deepest.mem).2 hchild)
    · simp [afterPreceding?, hbelow]

omit clear hroom deepest in
theorem LastBefore.unique {c' : FlatNode} (last : t.LastBefore n target e c)
    (last' : t.LastBefore n target e c') : c = c' := by
  obtain ⟨s, hs, hends, hlatest⟩ := last.last
  obtain ⟨s', hs', hends', hlatest'⟩ := last'.last
  by_contra hne
  have hid : c.id ≠ c'.id := fun hid => hne (FlatTree.eq_of_id_eq last.mem last'.mem hid)
  have hle := hlatest c' last'.mem last'.parent s' hs' hends'
  have hge := hlatest' c last.mem last.parent s hs hends
  have hroomc := h.room c last.mem s hs
  have hroomc' := h.room c' last'.mem s' hs'
  have hapart := h.apart c last.mem c' last'.mem (last.parent.trans last'.parent.symm) hid s s' hs hs'
  simp only [Span.endsBefore, decide_eq_true_eq] at hapart
  rcases hapart with hbefore | hafter <;> order

omit hroom clear in
/-- With no neighbour to go by, the target goes into the deepest node itself. -/
theorem Deepest.localRule_insideEnclosing (hnone : t.NoneAfter n target e)
    (hslot : t.NoSlotBefore n target e) : LocalRule t n target e (t.insideEnclosing e.id) := by
  unfold insideEnclosing
  rw [path_eq h.flat deepest.mem, h.flat, FlatTree.get?_id deepest.mem, Option.bind_some]
  cases hfield : e.node.kind.triviaField? with
  | some field =>
      simp only [takeSlot, List.getLast?_concat, List.dropLast_concat]
      exact .inside hnone hslot hfield
  | none =>
      simp only [List.dropLast_concat]
      exact .around hnone hslot hfield

/-- The place of a target inside a node is told by the children of the deepest node around it. -/
theorem Deepest.localRule :
    ∃ anchor, t.anchor target = .ok anchor ∧ LocalRule t n target e anchor := by
  obtain ⟨e', deepest', hsome⟩ : ∃ e', t.Deepest n target e' ∧ t.enclosing? target = some e'.id := by
    rcases h.enclosing?_cases hroom with ⟨_, hall⟩ | hpicked
    · obtain ⟨s, hs, hcontains⟩ := deepest.contains
      simp [hall e deepest.mem s hs] at hcontains
    · exact hpicked
  obtain rfl := deepest.unique h hroom deepest'
  simp only [anchor, hsome]
  rcases deepest.following_cases h hroom clear with ⟨c, first, hnext⟩ | ⟨hnone, hnext⟩
  · rw [hnext]
    refine ⟨_, ?_, .before first⟩
    simp only [beforeFollowing, path_eq h.flat first.mem, List.dropLast_concat]
    rw [← way_eq_slotPath deepest.mem first.mem first.parent]
    exact if_pos first.parent
  · rw [hnext]
    rcases deepest.preceding_cases h hroom clear with ⟨c, last, hlast⟩ | ⟨hempty, hlast⟩
    · by_cases haccepts : c.field?.any (·.acceptsTrivia) = true
      · rw [hlast, if_pos haccepts]
        exact ⟨_, rfl, .after hnone last haccepts⟩
      · rw [hlast, if_neg haccepts]
        refine ⟨_, rfl, deepest.localRule_insideEnclosing h hnone fun c' last' => ?_⟩
        rw [← last.unique h last']
        simpa using haccepts
    · rw [hlast]
      refine ⟨_, rfl, deepest.localRule_insideEnclosing h hnone fun c last => ?_⟩
      obtain ⟨s, hs, hends, _⟩ := last.last
      simp [hempty c last.mem last.parent s hs] at hends

end Deciding

/-! ### Outside the module -/

section Outside

variable {body : List Node} (h : t.Nests n) (hkind : n.kind = .module body)
  (hroom : target.start < target.stop)

include h

/-- A slot of the body of the root. -/
theorem Nests.rootSlot_eq (hkind : n.kind = .module body) (index : Nat) (before : Bool) :
    t.rootSlot index before =
      ⟨slotPath ⟨0, n, []⟩ (some (.sequence "body")) (some index), before⟩ := by
  have hfield : (t.flat.get? 0).bind (·.node.kind.triviaField?) = some (.sequence "body") := by
    rw [h.flat, FlatTree.get?_zero, Option.bind_some, hkind]
    rfl
  have hpath := path_eq h.flat (FlatTree.root_mem n)
  simp [rootSlot, hfield, hpath, takeSlot, slotPath]

/-- Every span lies inside that of the root. -/
theorem Nests.root_around (hf : f ∈ n.flatten.nodes) (hs : t.spanOf? f.id = some s) :
    ∃ outer, t.spanOf? 0 = some outer ∧ outer.start ≤ s.start ∧ s.stop ≤ outer.stop :=
  h.inside_of_isPrefix (FlatTree.root_mem n) f hf List.nil_prefix s hs

include hkind hroom in
/-- The place of a target that is in no node: after all of the module when that has ended, else
before it. -/
theorem Nests.anchor_outside (clear : t.Clear target)
    (houtside : ∀ f ∈ n.flatten.nodes, ∀ s, t.spanOf? f.id = some s → s.contains target = false) :
    t.anchor target = .ok (if (t.spanOf? 0).any (·.endsBefore target) then
      ⟨slotPath ⟨0, n, []⟩ (some (.sequence "body")) (some (body.length - 1)), false⟩
    else ⟨slotPath ⟨0, n, []⟩ (some (.sequence "body")) (some 0), true⟩) := by
  have hroot := FlatTree.root_mem n
  have hnone : t.enclosing? target = none := by
    rcases h.enclosing?_cases hroom with ⟨hnone, _⟩ | ⟨e, deepest, _⟩
    · exact hnone
    · obtain ⟨s, hs, hcontains⟩ := deepest.contains
      simp [houtside e deepest.mem s hs] at hcontains
  simp only [anchor, hnone]
  by_cases hends : (t.spanOf? 0).any (·.endsBefore target) = true
  · obtain ⟨outer, houter, hover⟩ : ∃ outer, t.spanOf? 0 = some outer ∧
        outer.endsBefore target = true := by
      cases hspan : t.spanOf? 0 with
      | none => simp [hspan] at hends
      | some outer => exact ⟨outer, rfl, by simpa [hspan] using hends⟩
    have hpreceding : t.preceding? target = some 0 := by
      rcases t.preceding?_cases target with ⟨_, hall⟩ | ⟨l, hl, hsome, _, hbest⟩
      · simp [hall _ (h.mem_located_of hroot houter)] at hover
      · obtain ⟨p, hp, s, hs, rfl⟩ := h.exists_of_mem_located hl
        rw [hsome]
        by_contra hne
        have hway : p.way ≠ [] := fun hway =>
          hne (by rw [FlatTree.eq_root_of_way_eq_nil hp hway])
        have haround := h.around_of_isPrefix hroot hp List.nil_prefix
          (List.length_pos_iff.2 hway) houter hs
        exact haround.not_stop_isLE (hbest _ (h.mem_located_of hroot houter) hover)
    have hfollowing : t.following? target = none := by
      rcases t.following?_cases target with ⟨hnone, _⟩ | ⟨l, hl, _, hafter, _⟩
      · exact hnone
      · obtain ⟨f, hf, s, hs, rfl⟩ := h.exists_of_mem_located hl
        obtain ⟨outer', houter', _, hstop⟩ := h.root_around hf hs
        cases houter.symm.trans houter'
        have hroomf := h.room f hf s hs
        simp only [Span.endsBefore, Span.startsAfter, decide_eq_true_eq] at hover hafter
        order
    simp [hpreceding, hfollowing, hends, h.rootSlot_eq hkind, rootSize_eq h.flat hkind]
  · have hpreceding : t.preceding? target = none := by
      rcases t.preceding?_cases target with ⟨hnone, _⟩ | ⟨l, hl, _, hbefore, _⟩
      · exact hnone
      · obtain ⟨p, hp, s, hs, rfl⟩ := h.exists_of_mem_located hl
        obtain ⟨outer, houter, hstart, _⟩ := h.root_around hp hs
        have hroomp := h.room p hp s hs
        simp only [houter, Option.any_some] at hends
        rcases clear 0 outer houter with hcontains | hover | hlater
        · simp [houtside _ hroot outer houter] at hcontains
        · exact absurd hover hends
        · simp only [Span.endsBefore, Span.startsAfter, decide_eq_true_eq] at hlater hbefore
          order
    simp [hpreceding, hends, h.rootSlot_eq hkind]

end Outside

/-! ### Every target has a place -/

section Fitting

variable {body : List Node} (hkind : n.kind = .module body)

theorem anchorFits_slotPath (hf : f ∈ n.flatten.nodes) {field : Field} {cs : List Node}
    (hentry : (field, cs) ∈ f.node.kind.entries) (haccepts : field.acceptsTrivia = true)
    {index : Nat} {before : Bool} (hindex : (if before then index else index + 1) ≤ cs.length) :
    AnchorFits n ⟨slotPath f (some field) (some index), before⟩ :=
  ⟨_, locate_append haccepts (by simp) before, fits_slot hf hentry haccepts hindex⟩

/-- The field for trivia is one of the node, and takes them. -/
theorem exists_entry_of_triviaField? {kind : Kind Node} {field : Field}
    (h : kind.triviaField? = some field) :
    field.acceptsTrivia = true ∧ ∃ cs, (field, cs) ∈ kind.entries := by
  have hmem : field ∈ kind.entries.map Prod.fst := by
    rw [Kind.map_fst_entries]
    exact List.mem_of_find?_eq_some h
  obtain ⟨⟨_, cs⟩, hentry, rfl⟩ := List.mem_map.1 hmem
  exact ⟨by simpa using List.find?_some h, cs, hentry⟩

include hkind

/-- The place that the rule tells is a slot of the tree. -/
theorem LocalRule.fits {e : FlatNode} (he : e ∈ n.flatten.nodes) {anchor : Anchor}
    (rule : LocalRule t n target e anchor) : AnchorFits n anchor := by
  have hchild : ∀ {c : FlatNode}, c ∈ n.flatten.nodes → c.parent? = some e.id → ∀ before,
      AnchorFits n ⟨slotPath e c.field? c.index?, before⟩ := by
    intro c hc hparent before
    rw [← way_eq_slotPath he hc hparent]
    refine exists_slot_of_isPrefix hkind hc (List.append_nil _).symm (fun hway => ?_) before
    simp [FlatNode.parent?, hway] at hparent
  cases rule with
  | before first => exact hchild first.mem first.parent true
  | after _ last _ => exact hchild last.mem last.parent false
  | inside _ _ takes =>
      obtain ⟨haccepts, cs, hentry⟩ := exists_entry_of_triviaField? takes
      exact anchorFits_slotPath he hentry haccepts (by simp)
  | around _ _ takes =>
      refine exists_slot_of_isPrefix hkind he (List.append_nil _).symm (fun hway => ?_) true
      rw [FlatTree.eq_root_of_way_eq_nil he hway, hkind] at takes
      simp [Kind.triviaField?, Kind.fields, Field.acceptsTrivia, Field.isSequence,
        Field.sequence] at takes

/-- Every target that no span cuts has a place, and the place is a slot of the tree. -/
theorem Nests.exists_anchor (h : t.Nests n) (hroom : target.start < target.stop)
    (clear : t.Clear target) (hroot : t.spanOf? 0 ≠ none → body ≠ []) :
    ∃ anchor, t.anchor target = .ok anchor ∧ AnchorFits n anchor := by
  rcases h.enclosing?_cases hroom with ⟨_, houtside⟩ | ⟨e, deepest, _⟩
  · refine ⟨_, h.anchor_outside hkind hroom clear houtside, ?_⟩
    have hentry : (Field.sequence "body", body) ∈ n.kind.entries := by
      simp [hkind, Kind.entries, Kind.fields, Kind.contents]
    split
    · next hends =>
      have hlength := List.length_pos_iff.2 (hroot fun hnone => by simp [hnone] at hends)
      exact anchorFits_slotPath (FlatTree.root_mem n) hentry rfl (by simp; omega)
    · exact anchorFits_slotPath (FlatTree.root_mem n) hentry rfl (by simp)
  · obtain ⟨anchor, hanchor, rule⟩ := deepest.localRule h hroom clear
    exact ⟨anchor, hanchor, rule.fits hkind deepest.mem⟩

end Fitting

end SpannedTree

/-! ### The spans of a text -/

section Native

variable {B : Bounds} {full : Node}

theorem native_mem_flatten (hf : f ∈ full.flatten.nodes) :
    f.native ∈ full.native.flatten.nodes := by
  rw [flatten_native]
  exact List.mem_map_of_mem hf

theorem exists_of_mem_flatten_native (hf : f ∈ full.native.flatten.nodes) :
    ∃ g ∈ full.flatten.nodes, g.native = f := by
  rw [flatten_native] at hf
  exact List.mem_map.1 hf

/-- Children in different slots do not overlap. -/
theorem Node.Nested.apart_of_slots {n : Node} (nested : n.Nested B) {slot slot' : Slot}
    {c c' : Node} (h : (slot, c) ∈ n.kind.slots) (h' : (slot', c') ∈ n.kind.slots)
    (hne : slot ≠ slot') : c.Apart c' := by
  have hchildren : n.kind.children.Pairwise Apart := by
    cases nested with
    | bare hkind => rcases hkind with rfl | rfl <;> simp [Kind.children, Kind.contents]
    | spanned _ _ _ _ _ apart _ => exact apart
  rw [← Kind.map_snd_slots, List.pairwise_map] at hchildren
  have : Std.Symm fun a b : Slot × Node => a.2.Apart b.2 := ⟨fun _ _ h => h.symm⟩
  exact hchildren.forall h h' fun heq => hne (congrArg Prod.fst heq)

/-- The spans that a natively read tree is given nest. -/
theorem Node.Nested.nests (nested : full.Nested B) : full.nativeSpanned.Nests full.native where
  flat := rfl
  length := by simp [nativeSpanned, FlatTree.ownSpans, flatten_native]
  spanned f hf hchildren := by
    obtain ⟨g, hg, rfl⟩ := exists_of_mem_flatten_native hf
    rw [show g.native.id = g.id from rfl, Node.spanOf?_of_mem hg]
    intro hnone
    have hkind := nested.of_mem_flatten g hg
    generalize hnode : g.node = n at hnone hkind
    simp only [FlatNode.native, hnode, Node.children, Node.kind_native] at hchildren
    cases hkind with
    | bare hkind => rcases hkind with rfl | rfl <;> simp [Kind.map, Kind.children, Kind.contents] at hchildren
    | spanned => cases hnone
  room f hf s hs := by
    obtain ⟨g, hg, rfl⟩ := exists_of_mem_flatten_native hf
    rw [show g.native.id = g.id from rfl, Node.spanOf?_of_mem hg] at hs
    exact ((nested.of_mem_flatten g hg).of_span hs).1
  inside p hp f hf hparent outer s houter hs := by
    obtain ⟨q, hq, rfl⟩ := exists_of_mem_flatten_native hp
    obtain ⟨g, hg, rfl⟩ := exists_of_mem_flatten_native hf
    rw [show q.native.id = q.id from rfl, Node.spanOf?_of_mem hq] at houter
    rw [show g.native.id = g.id from rfl, Node.spanOf?_of_mem hg] at hs
    obtain ⟨slot, hslot, _⟩ := SpannedTree.exists_slot_of_parent hq hg hparent
    obtain ⟨_, around, haround, hinside⟩ := (nested.of_mem_flatten q hq).of_mem_children
      (Kind.mem_children_of_mem_slots hslot)
    cases houter.symm.trans haround
    simpa [Span.contains] using hinside s hs
  apart f hf f' hf' hparent hne s s' hs hs' := by
    obtain ⟨g, hg, rfl⟩ := exists_of_mem_flatten_native hf
    obtain ⟨g', hg', rfl⟩ := exists_of_mem_flatten_native hf'
    rw [show g.native.id = g.id from rfl, Node.spanOf?_of_mem hg] at hs
    rw [show g'.native.id = g'.id from rfl, Node.spanOf?_of_mem hg'] at hs'
    have hparent : g.parent? = g'.parent? := hparent
    rcases full.exists_parent 0 [] g hg with rfl | ⟨p, hp, slot, hslot, hway⟩
    · -- only the root has no parent
      have hroot : g'.way = [] := by simpa [FlatNode.parent?] using hparent.symm
      exact absurd (congrArg FlatNode.id (FlatTree.eq_root_of_way_eq_nil hg' hroot).symm) hne
    · have hparent' : g'.parent? = some p.id := by
        rw [← hparent]
        simp [FlatNode.parent?, hway]
      obtain ⟨slot', hslot', hway'⟩ := SpannedTree.exists_slot_of_parent hp hg' hparent'
      have hslots : slot ≠ slot' := by
        rintro rfl
        have hsame : g = g' := FlatTree.eq_of_way_eq hg hg' (hway.trans hway'.symm)
        exact hne (by rw [hsame])
      simpa [Span.endsBefore] using
        (nested.of_mem_flatten p hp).apart_of_slots hslot hslot' hslots s s' hs hs'

end Native

namespace SpannedTree

variable {t : SpannedTree} {n : Node} {target : Span}

/-- On spans that nest, every target that no span cuts has a place. Inside the module it is told by
the children of the deepest node around the target, of which there is one; outside it is an end of
the module. -/
theorem anchor_by_local_rule {body : List Node} (h : t.Nests n) (hkind : n.kind = .module body)
    (hroom : target.start < target.stop) (clear : t.Clear target) :
    (∃ anchor, t.anchor target = .ok anchor) ∧
    ((∃ f ∈ n.flatten.nodes, ∃ s, t.spanOf? f.id = some s ∧ s.contains target = true) →
      ∃! e, t.Deepest n target e) ∧
    (∀ e, t.Deepest n target e →
      ∃ anchor, t.anchor target = .ok anchor ∧ LocalRule t n target e anchor) ∧
    ((∀ f ∈ n.flatten.nodes, ∀ s, t.spanOf? f.id = some s → s.contains target = false) →
      t.anchor target = .ok (if (t.spanOf? 0).any (·.endsBefore target) then
        ⟨slotPath ⟨0, n, []⟩ (some (.sequence "body")) (some (body.length - 1)), false⟩
      else ⟨slotPath ⟨0, n, []⟩ (some (.sequence "body")) (some 0), true⟩)) := by
  refine ⟨?_, ?_, fun e deepest => deepest.localRule h hroom clear,
    h.anchor_outside hkind hroom clear⟩
  · rcases h.enclosing?_cases hroom with ⟨_, houtside⟩ | ⟨e, deepest, _⟩
    · exact ⟨_, h.anchor_outside hkind hroom clear houtside⟩
    · obtain ⟨anchor, hanchor, _⟩ := deepest.localRule h hroom clear
      exact ⟨anchor, hanchor⟩
  · rintro ⟨f, hf, s, hs, hcontains⟩
    rcases h.enclosing?_cases hroom with ⟨_, houtside⟩ | ⟨e, deepest, _⟩
    · simp [houtside f hf s hs] at hcontains
    · exact ⟨e, deepest, fun e' deepest' => deepest'.unique h hroom deepest⟩

/-- A comment between two arguments of a call, which is the deepest node around it. -/
theorem anchor_by_local_rule_call :
    let source := "f(a, # x\n  b)"
    let target : Span := ⟨⟨1, 5⟩, ⟨1, 8⟩⟩
    ∃ full body, parseModule source .full = .ok full ∧ full.native.kind = .module body ∧
      full.nativeSpanned.Nests full.native ∧ target.start < target.stop ∧
      full.nativeSpanned.Clear target ∧
      ∃ e, full.nativeSpanned.Deepest full.native target e ∧
        ∃ anchor, full.nativeSpanned.anchor target = .ok anchor ∧
          LocalRule full.nativeSpanned full.native target e anchor := by
  intro source target
  have hread : (parseModule source .full).map (·.span) = .ok (some ⟨⟨1, 0⟩, ⟨2, 4⟩⟩) := by
    decide +kernel
  have hcomment : (tokenize source).map (·.any fun t => t.kind = .comment &&
      (LineIndex.ofText source).span t.start t.stop = target) = .ok true := by decide +kernel
  cases hfull : parseModule source .full with
  | error e => simp [hfull, Except.map] at hread
  | ok full =>
      obtain ⟨tokens, htokens, _⟩ := parseModule_ok.1 hfull
      simp only [htokens, Except.map, Except.ok.injEq, List.any_eq_true, Bool.and_eq_true,
        decide_eq_true_eq] at hcomment
      obtain ⟨comment, hmem, hkind, hspan⟩ := hcomment
      have nested := nested_of_tokenize htokens hmem hkind hfull
      obtain ⟨body, hmodule, _⟩ := parseModule_kind hfull
      have hmodule : full.native.kind = .module (body.map Node.native) := by
        rw [Node.kind_native, hmodule]
        rfl
      have hclear : full.nativeSpanned.Clear target := hspan ▸ nested.clear
      have hroot : full.span = some ⟨⟨1, 0⟩, ⟨2, 4⟩⟩ := by simpa [hfull, Except.map] using hread
      have hrule := anchor_by_local_rule nested.nests hmodule (by decide) hclear
      obtain ⟨e, deepest, _⟩ := hrule.2.1 ⟨_, FlatTree.root_mem _, _,
        (Node.spanOf?_of_mem (FlatTree.root_mem full)).trans hroot, by decide⟩
      exact ⟨full, _, rfl, hmodule, nested.nests, by decide, hclear, e, deepest,
        hrule.2.2.1 e deepest⟩

end SpannedTree

end TriviaTree
