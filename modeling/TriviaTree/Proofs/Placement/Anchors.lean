import Mathlib
import TriviaTree.Placement.Anchor
import TriviaTree.Proofs.Placement.Simultaneous
import TriviaTree.Proofs.Source.Lines
import TriviaTree.Proofs.Tree.Paths

/-!
The nodes that an anchor is picked from, and the slots that it may name.

Each of the three nodes is the best one of those with a span that lie before, after or around the
target (`following?_cases`, `enclosing?_cases`, `preceding?_cases`). A path into a module leads to a
slot of the tree that takes trivia (`exists_slot_of_isPrefix`).
-/

set_option autoImplicit false

namespace TriviaTree

variable {f : FlatNode} {inner outer : Located}

/-! ### Least and greatest elements -/

section Extremes

variable {α : Type}

/-- Keeping the better one of two elements, from one to the next, keeps the best. -/
theorem exists_best {R : α → α → Prop} {step : Option α → α → Option α} {xs : List α} {b : α}
    {result : Option α} (h : xs.foldl step (some b) = result) (hrefl : ∀ a, R a a)
    (htrans : ∀ {a b c}, R a b → R b c → R a c)
    (hstep : ∀ b x, step (some b) x = some b ∧ R b x ∨ step (some b) x = some x ∧ R x b) :
    ∃ r ∈ b :: xs, result = some r ∧ ∀ x ∈ b :: xs, R r x := by
  induction xs generalizing b with
  | nil => exact ⟨b, List.mem_cons_self, h.symm, by simp [hrefl]⟩
  | cons x xs ih =>
      rw [List.foldl_cons] at h
      rcases hstep b x with ⟨hkept, hbx⟩ | ⟨hkept, hxb⟩
      · rw [hkept] at h
        obtain ⟨r, hr, hresult, hbest⟩ := ih h
        have hrb := hbest b List.mem_cons_self
        refine ⟨r, ?_, hresult, ?_⟩
        · exact List.mem_cons.2 ((List.mem_cons.1 hr).imp_right (List.mem_cons_of_mem _))
        · intro y hy
          rw [List.mem_cons, List.mem_cons] at hy
          rcases hy with rfl | rfl | hy
          · exact hrb
          · exact htrans hrb hbx
          · exact hbest y (List.mem_cons_of_mem _ hy)
      · rw [hkept] at h
        obtain ⟨r, hr, hresult, hbest⟩ := ih h
        refine ⟨r, List.mem_cons_of_mem _ hr, hresult, ?_⟩
        intro y hy
        rcases List.mem_cons.1 hy with rfl | hy
        · exact htrans (hbest x List.mem_cons_self) hxb
        · exact hbest y hy

variable {order : α → α → Ordering} [Std.TransCmp order]

theorem isLE_of_ne_lt {a b : α} (h : order a b ≠ .lt) : (order b a).isLE = true := by
  rw [show order b a = (order a b).swap from Std.OrientedCmp.eq_swap]
  cases hab : order a b <;> simp_all

/-- The first of the least elements is below all, and there is one unless there is none at all. -/
theorem firstLeast?_spec {xs : List α} {result : Option α} (h : firstLeast? order xs = result)
    (hne : xs ≠ []) : ∃ r ∈ xs, result = some r ∧ ∀ x ∈ xs, (order r x).isLE = true := by
  obtain ⟨b, xs, rfl⟩ := List.exists_cons_of_ne_nil hne
  unfold firstLeast? at h
  rw [List.foldl_cons] at h
  refine exists_best h (fun _ => Std.ReflCmp.isLE_rfl) Std.TransCmp.isLE_trans fun b x => ?_
  by_cases hlt : order x b = .lt
  · exact .inr ⟨if_pos hlt, by rw [hlt]; rfl⟩
  · exact .inl ⟨if_neg hlt, isLE_of_ne_lt hlt⟩

/-- The last of the greatest elements is above all, and there is one unless there is none at
all. -/
theorem lastGreatest?_spec {xs : List α} {result : Option α} (h : lastGreatest? order xs = result)
    (hne : xs ≠ []) : ∃ r ∈ xs, result = some r ∧ ∀ x ∈ xs, (order x r).isLE = true := by
  obtain ⟨b, xs, rfl⟩ := List.exists_cons_of_ne_nil hne
  unfold lastGreatest? at h
  rw [List.foldl_cons] at h
  refine exists_best (R := fun a b => (order b a).isLE = true) h (fun _ => Std.ReflCmp.isLE_rfl)
    (fun h h' => Std.TransCmp.isLE_trans h' h) fun b x => ?_
  by_cases hlt : order x b = .lt
  · exact .inl ⟨if_pos hlt, by rw [hlt]; rfl⟩
  · exact .inr ⟨if_neg hlt, isLE_of_ne_lt hlt⟩

omit [Std.TransCmp order] in
/-- The best element of a class, when the class is not empty. -/
theorem pick_cases {better : α → α → Prop} (pick : List α → Option α) (hnil : pick [] = none)
    (hpick : ∀ ys ≠ [], ∃ r ∈ ys, pick ys = some r ∧ ∀ x ∈ ys, better r x) (p : α → Bool)
    (xs : List α) :
    (pick (xs.filter p) = none ∧ ∀ x ∈ xs, p x = false) ∨
      ∃ r ∈ xs, pick (xs.filter p) = some r ∧ p r = true ∧ ∀ x ∈ xs, p x = true → better r x := by
  by_cases hempty : xs.filter p = []
  · refine .inl ⟨by rw [hempty, hnil], fun x hx => ?_⟩
    simpa using List.filter_eq_nil_iff.1 hempty x hx
  · obtain ⟨r, hr, hpicked, hbest⟩ := hpick _ hempty
    obtain ⟨hmem, hp⟩ := List.mem_filter.1 hr
    exact .inr ⟨r, hmem, hpicked, hp, fun x hx hpx => hbest x (List.mem_filter.2 ⟨hx, hpx⟩)⟩

end Extremes

/-! ### Inner and outer spans -/

namespace Located

instance : Std.TransCmp startOrder :=
  have : Std.TransCmp fun a b : Located => compare b.span.stop a.span.stop :=
    @Std.TransCmp.opposite Located (compareOn (·.span.stop)) _
  inferInstanceAs (Std.TransCmp (compareLex (compareOn fun l : Located => l.span.start)
    (compareLex (fun a b : Located => compare b.span.stop a.span.stop) (compareOn Located.depth))))

instance : Std.TransCmp stopOrder :=
  have : Std.TransCmp fun a b : Located => compare b.span.start a.span.start :=
    @Std.TransCmp.opposite Located (compareOn (·.span.start)) _
  have : Std.TransCmp fun a b : Located => compare b.depth a.depth :=
    @Std.TransCmp.opposite _ (compareOn Located.depth) _
  inferInstanceAs (Std.TransCmp (compareLex (compareOn fun l : Located => l.span.stop)
    (compareLex (fun a b : Located => compare b.span.start a.span.start)
      fun a b : Located => compare b.depth a.depth)))

/-- `outer` stands around `inner`, as a node does around one below it. -/
structure Around (outer inner : Located) : Prop where
  start_le : outer.span.start ≤ inner.span.start
  le_stop : inner.span.stop ≤ outer.span.stop
  depth_lt : outer.depth < inner.depth

theorem Around.startOrder_eq (h : outer.Around inner) : startOrder outer inner = .lt := by
  unfold startOrder
  rcases h.start_le.lt_or_eq with hstart | hstart
  · rw [compare_lt_iff_lt.2 hstart]
    rfl
  rw [compare_eq_iff_eq.2 hstart, Ordering.eq_then]
  rcases h.le_stop.lt_or_eq with hstop | hstop
  · rw [compare_lt_iff_lt.2 hstop]
    rfl
  rw [compare_eq_iff_eq.2 hstop, Ordering.eq_then]
  exact compare_lt_iff_lt.2 h.depth_lt

/-- An order that has `outer` before `inner` cannot have it the other way round. -/
theorem Around.not_isLE (h : outer.Around inner) : ¬ (startOrder inner outer).isLE = true := by
  rw [show startOrder inner outer = (startOrder outer inner).swap from Std.OrientedCmp.eq_swap,
    h.startOrder_eq]
  decide

theorem Around.not_stop_isLE (h : outer.Around inner) : ¬ (stopOrder outer inner).isLE = true := by
  unfold stopOrder
  rcases h.le_stop.lt_or_eq with hstop | hstop
  · simp [compare_gt_iff_gt.2 hstop]
  rw [compare_eq_iff_eq.2 hstop.symm, Ordering.eq_then]
  rcases h.start_le.lt_or_eq with hstart | hstart
  · simp [compare_gt_iff_gt.2 hstart]
  rw [compare_eq_iff_eq.2 hstart.symm, Ordering.eq_then]
  simp [compare_gt_iff_gt.2 h.depth_lt]

theorem start_le_of_isLE {a b : Located} (h : (startOrder a b).isLE = true) :
    a.span.start ≤ b.span.start := by
  by_contra hlt
  simp [startOrder, compare_gt_iff_gt.2 (not_le.1 hlt)] at h

theorem stop_le_of_isLE {a b : Located} (h : (stopOrder a b).isLE = true) :
    a.span.stop ≤ b.span.stop := by
  by_contra hlt
  simp [stopOrder, compare_gt_iff_gt.2 (not_le.1 hlt)] at h

end Located

namespace SpannedTree

/-- The span of a node, by its number. -/
def spanOf? (t : SpannedTree) (id : Nat) : Option Span :=
  t.spans[id]?.join

/-- No span cuts the target. -/
def Clear (t : SpannedTree) (target : Span) : Prop :=
  ∀ id span, t.spanOf? id = some span →
    span.contains target = true ∨ span.endsBefore target = true ∨ span.startsAfter target = true

variable {t : SpannedTree} {n : Node} {target : Span}

/-- `l` is the node `f` of the tree with its span. -/
structure Places (t : SpannedTree) (f : FlatNode) (l : Located) : Prop where
  id_eq : f.id = l.id
  depth_eq : f.depth = l.depth
  span_eq : t.spanOf? l.id = some l.span

theorem mem_located (hflat : t.flat = n.flatten) {l : Located} :
    l ∈ t.located ↔ ∃ f ∈ n.flatten.nodes, t.Places f l := by
  simp only [located, hflat, List.mem_filterMap, Prod.exists, Option.map_eq_some_iff]
  constructor
  · rintro ⟨f, _, hzip, span, rfl, rfl⟩
    obtain ⟨i, hi⟩ := List.getElem?_of_mem hzip
    obtain ⟨hf, hspan⟩ := List.getElem?_zip_eq_some.1 hi
    obtain rfl := FlatTree.id_of_get? hf
    exact ⟨f, List.mem_of_getElem? hf, rfl, rfl, by simp [spanOf?, hspan]⟩
  · rintro ⟨f, hf, hid, hdepth, hspan⟩
    refine ⟨f, some l.span, ?_, l.span, rfl, by rw [hid, hdepth]⟩
    refine List.mem_of_getElem? (i := l.id) (List.getElem?_zip_eq_some.2 ⟨?_, ?_⟩)
    · rw [← hid]
      exact FlatTree.get?_id hf
    · simpa [spanOf?, Option.join_eq_some_iff] using hspan

theorem following?_cases (t : SpannedTree) (target : Span) :
    (t.following? target = none ∧ ∀ m ∈ t.located, m.span.startsAfter target = false) ∨
      ∃ l ∈ t.located, t.following? target = some l.id ∧ l.span.startsAfter target = true ∧
        ∀ m ∈ t.located, m.span.startsAfter target = true →
          (Located.startOrder l m).isLE = true := by
  rcases pick_cases (firstLeast? Located.startOrder) rfl
      (fun ys hne => firstLeast?_spec rfl hne) (·.span.startsAfter target) t.located with
    ⟨hnone, hall⟩ | ⟨l, hl, hpicked, hafter, hbest⟩
  · exact .inl ⟨by rw [following?, hnone]; rfl, hall⟩
  · exact .inr ⟨l, hl, by rw [following?, hpicked]; rfl, hafter, hbest⟩

theorem enclosing?_cases (t : SpannedTree) (target : Span) :
    (t.enclosing? target = none ∧ ∀ m ∈ t.located, m.span.contains target = false) ∨
      ∃ l ∈ t.located, t.enclosing? target = some l.id ∧ l.span.contains target = true ∧
        ∀ m ∈ t.located, m.span.contains target = true →
          (Located.startOrder m l).isLE = true := by
  rcases pick_cases (lastGreatest? Located.startOrder) rfl
      (fun ys hne => lastGreatest?_spec rfl hne) (·.span.contains target) t.located with
    ⟨hnone, hall⟩ | ⟨l, hl, hpicked, haround, hbest⟩
  · exact .inl ⟨by rw [enclosing?, hnone]; rfl, hall⟩
  · exact .inr ⟨l, hl, by rw [enclosing?, hpicked]; rfl, haround, hbest⟩

theorem preceding?_cases (t : SpannedTree) (target : Span) :
    (t.preceding? target = none ∧ ∀ m ∈ t.located, m.span.endsBefore target = false) ∨
      ∃ l ∈ t.located, t.preceding? target = some l.id ∧ l.span.endsBefore target = true ∧
        ∀ m ∈ t.located, m.span.endsBefore target = true →
          (Located.stopOrder m l).isLE = true := by
  rcases pick_cases (lastGreatest? Located.stopOrder) rfl
      (fun ys hne => lastGreatest?_spec rfl hne) (·.span.endsBefore target) t.located with
    ⟨hnone, hall⟩ | ⟨l, hl, hpicked, hbefore, hbest⟩
  · exact .inl ⟨by rw [preceding?, hnone]; rfl, hall⟩
  · exact .inr ⟨l, hl, by rw [preceding?, hpicked]; rfl, hbefore, hbest⟩

end SpannedTree

/-! ### Slots along a path -/

theorem exists_last {α : Type} {p : α → Bool} {xs : List α} (h : ∃ x ∈ xs, p x = true) :
    ∃ above x below, xs = above ++ x :: below ∧ p x = true ∧ ∀ y ∈ below, p y = false := by
  induction xs with
  | nil => simp at h
  | cons x xs ih =>
      by_cases hlater : ∃ y ∈ xs, p y = true
      · obtain ⟨above, y, below, rfl, hy, hbelow⟩ := ih hlater
        exact ⟨x :: above, y, below, rfl, hy, hbelow⟩
      · obtain ⟨y, hy, hpy⟩ := h
        rcases List.mem_cons.1 hy with rfl | hy
        · exact ⟨[], y, xs, rfl, hpy, by simpa using hlater⟩
        · exact absurd ⟨y, hy, hpy⟩ hlater

/-- `locate` takes the last entry that names a place for trivia. -/
theorem locate_append {above below : Path} {owner index : Nat} {field : Field}
    (haccepts : field.acceptsTrivia = true) (hbelow : ∀ entry ∈ below, entry.takesTrivia = false)
    (before : Bool) :
    locate (above ++ ⟨owner, some field, some index⟩ :: below) before =
      .ok ⟨above.filterMap (·.step?), owner, field.name, if before then index else index + 1⟩ := by
  have hskip : (above ++ ⟨owner, some field, some index⟩ :: below).reverse.dropWhile
      (!·.takesTrivia) = ⟨owner, some field, some index⟩ :: above.reverse := by
    rw [List.reverse_append, List.reverse_cons, List.append_assoc, List.dropWhile_append_of_pos]
    · simp [PathEntry.takesTrivia, haccepts]
    · intro entry hentry
      simpa using hbelow entry (List.mem_reverse.1 hentry)
  simp only [locate, hskip, List.reverse_reverse]

variable {n : Node} {body : List Node}

/-- The slot of a node that is in the tree. -/
theorem fits_slot (hf : f ∈ n.flatten.nodes) {field : Field} {cs : List Node}
    (hentry : (field, cs) ∈ f.node.kind.entries) (haccepts : field.acceptsTrivia = true)
    {index : Nat} (hindex : index ≤ cs.length) :
    (⟨f.way.filterMap (·.step?), f.id, field.name, index⟩ : InsertionPoint).Fits n := by
  refine ⟨f.node, cs, FlatTree.descend?_way f hf, ?_, hindex⟩
  refine Kind.sequence?_eq_some_iff.2 ⟨field, Kind.fieldNamed?_eq_some_iff.2 ⟨hentry, rfl⟩, ?_⟩
  simp only [Field.acceptsTrivia, Bool.and_eq_true] at haccepts
  exact haccepts.1

/-- The first step of a way into a module is into its body. -/
theorem takesTrivia_head (hkind : n.kind = .module body) (hf : f ∈ n.flatten.nodes)
    {entry : PathEntry} {below : Path} (hway : f.way = entry :: below) :
    entry.takesTrivia = true := by
  obtain ⟨a, ha, haway, slot, c, hslot, rfl⟩ := FlatTree.exists_ancestor f hf [] below entry hway
  rw [FlatTree.eq_root_of_way_eq_nil ha haway] at hslot
  obtain ⟨cs, hentry, hsequence, -⟩ := Kind.mem_slots_iff.1 hslot
  obtain ⟨hfield, rfl⟩ : slot.field = .sequence "body" ∧ cs = body := by
    simpa [hkind, Kind.entries, Kind.fields, Kind.contents] using hentry
  simp [PathEntry.takesTrivia, ← hsequence, hfield, Field.acceptsTrivia, Field.isSequence,
    Field.sequence]

/-- The start of a way into a module always leads to a slot of the tree. -/
theorem exists_slot_of_isPrefix (hkind : n.kind = .module body) (hf : f ∈ n.flatten.nodes)
    {path rest : Path} (hway : f.way = path ++ rest) (hne : path ≠ []) (before : Bool) :
    ∃ point, locate path before = .ok point ∧ point.Fits n := by
  obtain ⟨first, path', rfl⟩ := List.exists_cons_of_ne_nil hne
  have htakes := takesTrivia_head hkind hf hway
  obtain ⟨above, entry, below, hpath, hentry, hbelow⟩ :=
    exists_last ⟨first, List.mem_cons_self, htakes⟩
  rw [hpath, List.append_assoc, List.cons_append] at hway
  obtain ⟨a, ha, rfl, slot, c, hslot, rfl⟩ := FlatTree.exists_ancestor f hf above _ entry hway
  obtain ⟨cs, hcs, -, hi⟩ := Kind.mem_slots_iff.1 hslot
  simp only [PathEntry.takesTrivia, Bool.and_eq_true, Option.any_some] at hentry
  obtain ⟨i, hindex⟩ := Option.isSome_iff_exists.1 hentry.1
  rw [hindex] at hi
  have hlt : i < cs.length := (List.getElem?_eq_some_iff.1 hi).1
  rw [hpath, hindex]
  refine ⟨_, locate_append hentry.2 hbelow before, fits_slot ha hcs hentry.2 ?_⟩
  split <;> omega

namespace SpannedTree

variable {t : SpannedTree} {target : Span}

/-- The anchor stands for a slot of the tree. -/
def AnchorFits (n : Node) (anchor : Anchor) : Prop :=
  ∃ point, locate anchor.path anchor.before = .ok point ∧ point.Fits n

/-- A node strictly below another is reached through it. -/
theorem exists_entry_of_isBelow {n : Node} (hf : f ∈ n.flatten.nodes) (hflat : t.flat = n.flatten)
    {ancestor : Nat} (h : t.isBelow f.id ancestor = true) :
    ∃ above entry below, f.way = above ++ entry :: below ∧ entry.node = ancestor := by
  simp only [isBelow, hflat, FlatTree.isAncestor, FlatTree.pathTo, FlatTree.get?_id hf,
    FlatNode.path, Bool.and_eq_true, decide_eq_true_eq, List.any_append, List.any_cons,
    List.any_nil, Bool.or_false, Bool.or_eq_true, List.any_eq_true] at h
  obtain ⟨hne, ⟨entry, hentry, rfl⟩ | heq⟩ := h
  · obtain ⟨above, below, hway⟩ := List.append_of_mem hentry
    exact ⟨above, entry, below, hway, rfl⟩
  · exact absurd heq hne

theorem path_eq {n : Node} (hflat : t.flat = n.flatten) (hf : f ∈ n.flatten.nodes) :
    t.flat.pathTo f.id = f.way ++ [⟨f.id, none, none⟩] := by
  simp [hflat, FlatTree.pathTo, FlatTree.get?_id hf, FlatNode.path]

theorem rootSize_eq (hflat : t.flat = n.flatten) (hkind : n.kind = .module body) :
    t.rootSize = body.length := by
  have hcount := n.countP_parent_flattenFrom 0 []
  have hchildren : n.children = body := by
    simp [Node.children, hkind, Kind.children, Kind.contents]
  rw [hchildren] at hcount
  rw [rootSize, hflat, Node.flatten, ← hcount, Node.flattenFrom_eq, List.tail_cons,
    List.countP_cons_of_neg]
  simp [FlatNode.parent?]

end SpannedTree

end TriviaTree
