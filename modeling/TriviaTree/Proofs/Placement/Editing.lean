import Mathlib
import TriviaTree.Proofs.Placement.Anchors
import TriviaTree.Proofs.Placement.Totality
import TriviaTree.Proofs.Tree.Stripping

/-!
Runs of insertions lose nothing and keep trivia in their places.

An `EditStep` puts one node next to a node of the tree, or all comments of a source text into it; a
step that fails leaves the tree as it was. A successful insertion adds one node and changes nothing
that stripping leaves, wherever it is made (`Adds`). That it is made in a sequence that takes trivia
holds of the tree in which the slot was found (`InsertionPoint.Aims`), and a batch of insertions
meets each of its slots as it was found, since the batch fails when one of them is not there
(`fits_of_insertEach`). So one step keeps all three (`edit_keeps`), and so does a run.
-/

set_option autoImplicit false

namespace TriviaTree

variable {point : InsertionPoint} {es : List Insertion} {classifier : Classifier} {before : Bool}
  {source : String} {cs : List Node}

/-! ### One insertion -/

/-- `n'` has `count` trivia more than `n` and is the same code. -/
structure Adds (count : Nat) (n n' : Node) : Prop where
  strip_eq : n'.strip = n.strip
  triviaCount_eq : n'.triviaCount = n.triviaCount + count

theorem Adds.refl (n : Node) : Adds 0 n n := ⟨rfl, rfl⟩

theorem Adds.trans {i j : Nat} {a b c : Node} (hab : Adds i a b) (hbc : Adds j b c) :
    Adds (i + j) a c :=
  ⟨hbc.strip_eq.trans hab.strip_eq, by rw [hbc.triviaCount_eq, hab.triviaCount_eq, Nat.add_assoc]⟩

theorem filter_insertIdx {α : Type} {p : α → Bool} {x : α} (hx : p x = false) {xs : List α}
    {i : Nat} (hi : i ≤ xs.length) : (xs.insertIdx i x).filter p = xs.filter p := by
  induction xs generalizing i with
  | nil =>
      obtain rfl : i = 0 := by simpa using hi
      simp [hx]
  | cons y ys ih =>
      cases i with
      | zero => simp [hx]
      | succ i =>
          rw [List.insertIdx_succ_cons, List.filter_cons, List.filter_cons,
            ih (Nat.le_of_succ_le_succ hi)]

namespace Node

variable {n n' new : Node} {steps : List (String × Option Nat)} {field : String} {index : Nat}

theorem insertHere_ok (h : n.insertHere field index new = .ok n') :
    ∃ children, n.kind.sequence? field = some children ∧ index ≤ children.length ∧
      n' = { n with kind := n.kind.insertChild field index new } := by
  unfold insertHere at h
  split at h
  · cases h
  · next children found =>
    split at h
    · next bound => exact ⟨children, found, bound, (Except.ok.inj h).symm⟩
    · cases h

theorem insertBelow_cons_ok {name : String} {place : Option Nat}
    (h : n.insertBelow ((name, place) :: steps) field index new = .ok n') :
    ∃ child child', n.kind.child? name place = some child ∧
      child.insertBelow steps field index new = .ok child' ∧
      n' = { n with kind := n.kind.setChild name place child' } := by
  unfold insertBelow at h
  split at h
  · cases h
  · next child found =>
    cases hbelow : child.insertBelow steps field index new with
    | error fault => rw [hbelow] at h; cases h
    | ok child' =>
        rw [hbelow] at h
        exact ⟨child, child', found, hbelow, (Except.ok.inj h).symm⟩

/-- Stripping does not see a change of one field that it undoes. -/
theorem strip_modifyField {name : String} {found : Field} {change : List Node → List Node}
    (hfound : n.kind.fieldNamed? name = some (found, cs))
    (admits : ∀ ds, found.shape.Admits ds → found.shape.Admits (change ds))
    (same : found.dropTrivia ((change cs).map strip) = found.dropTrivia (cs.map strip)) :
    strip { n with kind := n.kind.modifyField name change } = n.strip := by
  rw [strip_eq_mapFields, strip_eq_mapFields, Kind.modifyField_eq,
    Kind.mapFields_mapFields _ (Kind.keepsShape_changeAt hfound admits) (keepsShape_strip _)]
  refine congrArg (Node.mk · n.span) (Kind.mapFields_congr _ fun field ds hentry => ?_)
  unfold Kind.changeAt
  split
  · next hname =>
    have hsame := Kind.fieldNamed?_eq_some_iff.2 ⟨hentry, hname⟩
    obtain ⟨rfl, rfl⟩ : found = field ∧ cs = ds := by simpa using hfound.symm.trans hsame
    exact same
  · rfl

theorem insertHere_adds (trivia : new.isTrivia = true)
    (h : n.insertHere field index new = .ok n') : Adds 1 n n' := by
  obtain ⟨cs, hsequence, hindex, rfl⟩ := insertHere_ok h
  obtain ⟨found, hfound, hshape⟩ := Kind.sequence?_eq_some_iff.1 hsequence
  refine ⟨?_, ?_⟩
  · refine strip_modifyField hfound (fun _ _ => found.admits_of_isSequence hshape _) ?_
    simp only [Field.dropTrivia, hshape, if_true, List.map_insertIdx]
    exact filter_insertIdx (by simp [trivia]) (by simpa using hindex)
  · have hperm := Kind.children_insertChild hsequence hindex new
    have hsum := (hperm.map triviaCount).sum_nat
    rw [List.map_cons, List.sum_cons, triviaCount_of_isTrivia trivia] at hsum
    rw [triviaCount_eq, triviaCount_eq n, children, hsum, isTrivia,
      show (n.kind.insertChild field index new).isTrivia = n.kind.isTrivia from
        Kind.isTrivia_withContents _ _]
    simp only [children, isTrivia]
    omega

/-- Whatever the slot, an insertion that succeeds adds the one node. -/
theorem insertBelow_adds (trivia : new.isTrivia = true)
    (h : n.insertBelow steps field index new = .ok n') : Adds 1 n n' := by
  induction steps generalizing n n' with
  | nil => exact insertHere_adds trivia h
  | cons step steps ih =>
      obtain ⟨name, place⟩ := step
      obtain ⟨child, child', hchild, hbelow, rfl⟩ := insertBelow_cons_ok h
      obtain ⟨hstrip, hcount⟩ := ih hbelow
      refine ⟨?_, ?_⟩
      · obtain ⟨found, cs, hfound, -, hplace⟩ := Kind.child?_eq_some_iff.1 hchild
        rw [Kind.setChild_eq hchild]
        refine strip_modifyField hfound (fun _ admits => admits.set _ _) ?_
        obtain ⟨hlt, rfl⟩ := List.getElem?_eq_some_iff.1 hplace
        have hlt' : place.getD 0 < (cs.map strip).length := by simpa using hlt
        rw [List.map_set, hstrip, ← List.getElem_map strip (h := hlt'), List.set_getElem_self]
      · obtain ⟨others, hold, hnew⟩ := Kind.children_setChild hchild child'
        have hsumOld := (hold.map triviaCount).sum_nat
        have hsumNew := (hnew.map triviaCount).sum_nat
        rw [List.map_cons, List.sum_cons] at hsumOld hsumNew
        rw [triviaCount_eq, triviaCount_eq n, children, hsumNew, isTrivia,
          show (n.kind.setChild name place child').isTrivia = n.kind.isTrivia by
            rw [Kind.setChild_eq hchild]
            exact Kind.isTrivia_withContents _ _]
        simp only [children, isTrivia]
        omega

theorem insertAt_adds (h : n.insertAt point new = .ok n') : Adds 1 n n' := by
  unfold insertAt at h
  split at h
  · next trivia => exact insertBelow_adds trivia h
  · cases h

theorem insertEach_adds (h : n.insertEach es = .ok n') : Adds es.length n n' := by
  induction es generalizing n with
  | nil =>
      cases h
      exact Adds.refl _
  | cons e es ih =>
      rw [insertEach] at h
      cases hfirst : n.insertAt e.point e.node with
      | error fault => rw [hfirst] at h; cases h
      | ok first =>
          rw [hfirst] at h
          rw [List.length_cons, Nat.add_comm]
          exact (insertAt_adds hfirst).trans (ih h)

end Node

/-! ### Slots that take trivia -/

/-- The slot is in a sequence that takes trivia. -/
def InsertionPoint.Aims (point : InsertionPoint) (n : Node) : Prop :=
  ∃ owner field children, n.descend? point.steps = some owner ∧
    owner.kind.fieldNamed? point.field = some (field, children) ∧ field.acceptsTrivia = true

theorem InsertionPoint.Aims.here {n : Node} (aims : point.Aims n) (own : point.steps = []) :
    ∃ field children,
      n.kind.fieldNamed? point.field = some (field, children) ∧ field.acceptsTrivia = true := by
  obtain ⟨owner, field, children, hdescend, hfound, haccepts⟩ := aims
  rw [own, Node.descend?, Option.some.injEq] at hdescend
  subst hdescend
  exact ⟨field, children, hfound, haccepts⟩

theorem InsertionPoint.Aims.below {n child : Node} {name : String} {place : Option Nat}
    {rest : List (String × Option Nat)} (aims : point.Aims n)
    (through : point.steps = (name, place) :: rest)
    (stepped : n.kind.child? name place = some child) : point.advance.Aims child := by
  obtain ⟨owner, field, children, hdescend, hfound, haccepts⟩ := aims
  rw [through, Node.descend?, stepped] at hdescend
  refine ⟨owner, field, children, ?_, hfound, haccepts⟩
  rw [InsertionPoint.advance, through]
  exact hdescend

theorem mem_weave {α : Type} {groups : Nat → List α} {xs : List α} {x : α}
    (h : x ∈ weave groups xs) : x ∈ xs ∨ ∃ i, x ∈ groups i := by
  induction xs generalizing groups with
  | nil => exact .inr ⟨0, h⟩
  | cons y ys ih =>
      rw [weave, List.mem_append, List.mem_cons] at h
      rcases h with h | rfl | h
      · exact .inr ⟨0, h⟩
      · exact .inl List.mem_cons_self
      · rcases ih h with h | ⟨i, h⟩
        · exact .inl (List.mem_cons_of_mem _ h)
        · exact .inr ⟨i + 1, h⟩

theorem exists_of_mem_insertionsBelow {step : String × Option Nat} {x : Insertion}
    (h : x ∈ insertionsBelow es step) :
    ∃ e ∈ es, ∃ rest, e.point.steps = step :: rest ∧ x = { e with point := e.point.advance } := by
  obtain ⟨e, he, hx⟩ := List.mem_filterMap.1 h
  unfold Insertion.below? at hx
  split at hx
  · cases hx
  · next first rest hsteps =>
    split at hx
    · next hfirst =>
      cases hx
      exact ⟨e, he, rest, hfirst ▸ hsteps, by rw [InsertionPoint.advance, hsteps]; rfl⟩
    · cases hx

/-- What stands in a field after a batch: a node that was put there, or a child that was there
with the insertions below it. -/
theorem Field.mem_insertTogether {n : Node} {field : Field} (hentry : (field, cs) ∈ n.kind.entries)
    {c' : Node} (h : c' ∈ field.insertTogether es cs) :
    (∃ e ∈ es, e.point.steps = [] ∧ e.point.field = field.name ∧ c' = e.node) ∨
      ∃ c ∈ cs, ∃ place, n.kind.child? field.name place = some c ∧
        c' = c.insertTogether (insertionsBelow es (field.name, place)) := by
  have hfound := Kind.fieldNamed?_eq_some_iff.2 ⟨hentry, rfl⟩
  unfold Field.insertTogether at h
  split at h
  · next hsequence =>
    rcases mem_weave h with h | ⟨i, h⟩
    · obtain ⟨i, hi, rfl⟩ := List.mem_mapIdx.1 h
      refine .inr ⟨cs[i], List.getElem_mem hi, some i, ?_, rfl⟩
      exact Kind.child?_eq_some_iff.2
        ⟨field, cs, hfound, hsequence, List.getElem?_eq_getElem hi⟩
    · obtain ⟨e, he, rfl⟩ := List.mem_map.1 h
      rw [List.mem_filter, Insertion.isHere] at he
      simp only [Bool.and_eq_true, decide_eq_true_eq] at he
      exact .inl ⟨e, he.1, he.2.1.1, he.2.1.2, rfl⟩
  · next hsingle =>
    obtain ⟨c, hc, rfl⟩ := List.mem_map.1 h
    rw [Bool.not_eq_true] at hsingle
    have hone := (Kind.admits_of_mem_entries hentry).eq_singleton hsingle hc
    refine .inr ⟨c, hc, none, ?_, rfl⟩
    exact Kind.child?_eq_some_iff.2 ⟨field, cs, hfound, hsingle, by simp [hone]⟩

theorem Node.isTrivia_insertTogether (n : Node) (es : List Insertion) :
    (n.insertTogether es).isTrivia = n.isTrivia := by
  rw [Node.insertTogether_eq]
  exact Kind.isTrivia_mapFields _ _

theorem Node.wellFormed_insertTogether {n : Node} (h : n.WellFormed) :
    (n.insertTogether es).WellFormed := by
  rw [Node.insertTogether_eq]
  obtain ⟨kind, span⟩ := n
  cases kind <;> exact h

/-- A batch that aims at sequences that take trivia puts nothing anywhere else. -/
theorem Node.ownProblems_insertTogether (n : Node) : ∀ es : List Insertion,
    (∀ e ∈ es, e.point.Aims n ∧ e.node.isTrivia = true ∧ e.node.WellFormed) →
    (∀ m ∈ n.preorder, m.ownProblems = []) →
    ∀ m ∈ (n.insertTogether es).preorder, m.ownProblems = [] := by
  induction n with
  | step n ih =>
    intro es hes hplaced m hm
    have hown := Node.ownProblems_eq_nil_iff.1 (hplaced n (mem_preorder_iff.2 (.inl rfl)))
    rcases mem_preorder_iff.1 hm with rfl | ⟨c', hc', hm⟩
    · refine Node.ownProblems_eq_nil_iff.2 ⟨?_, wellFormed_insertTogether hown.2⟩
      intro field cs' hentry' c' hc' htrivia
      rw [Node.entries_insertTogether] at hentry'
      obtain ⟨⟨_, cs⟩, hentry, heq⟩ := List.mem_map.1 hentry'
      cases heq
      rcases Field.mem_insertTogether hentry hc' with
        ⟨e, he, hsteps, hfield, -⟩ | ⟨c, hc, place, -, rfl⟩
      · obtain ⟨found, children, hfound, haccepts⟩ := (hes e he).1.here hsteps
        rw [hfield, Kind.fieldNamed?_eq_some_iff.2 ⟨hentry, rfl⟩] at hfound
        cases hfound
        exact haccepts
      · rw [isTrivia_insertTogether] at htrivia
        exact hown.1 _ cs hentry c hc htrivia
    · rw [children, Kind.children_eq, Node.entries_insertTogether] at hc'
      obtain ⟨entry, hentry', hc'⟩ := List.mem_flatMap.1 hc'
      obtain ⟨⟨field, cs⟩, hentry, rfl⟩ := List.mem_map.1 hentry'
      rcases Field.mem_insertTogether hentry hc' with
        ⟨e, he, -, -, rfl⟩ | ⟨c, hc, place, hchild, rfl⟩
      · obtain ⟨-, htrivia, hformed⟩ := hes e he
        rw [preorder_of_isTrivia htrivia, List.mem_singleton] at hm
        rw [hm]
        refine Node.ownProblems_eq_nil_iff.2 ⟨fun field' cs' hentry' d hd => ?_, hformed⟩
        have hmem : d ∈ e.node.children := Kind.mem_children_of_mem_entries hentry' hd
        rw [children_eq_nil_of_isTrivia htrivia] at hmem
        simp at hmem
      · have hbelow := Kind.mem_children_of_mem_entries hentry hc
        refine ih c hbelow _ (fun x hx => ?_)
          (fun m hm => hplaced m (mem_preorder_iff.2 (.inr ⟨c, hbelow, hm⟩))) m hm
        obtain ⟨e, he, rest, hsteps, rfl⟩ := exists_of_mem_insertionsBelow hx
        exact ⟨(hes e he).1.below hsteps hchild, (hes e he).2⟩

/-! ### Where slots are found -/

/-- The slot is in a sequence that takes trivia, and it exists unless it is one of the root. -/
structure InsertionPoint.Usable (point : InsertionPoint) (n : Node) : Prop where
  aims : point.Aims n
  fits : point.Fits n ∨ point.steps = []

/-- `locate` takes an entry of the path. -/
theorem locate_ok {path : Path} (h : locate path before = .ok point) :
    ∃ above owner field index below, path = above ++ ⟨owner, some field, some index⟩ :: below ∧
      field.acceptsTrivia = true ∧
      point = ⟨above.filterMap (·.step?), owner, field.name,
        if before then index else index + 1⟩ := by
  simp only [locate] at h
  split at h
  · next owner field index rest hskip =>
    have hentry := List.head?_dropWhile_not (!·.takesTrivia) path.reverse
    rw [hskip] at hentry
    have hsplit := List.takeWhile_append_dropWhile (p := (!·.takesTrivia)) (l := path.reverse)
    rw [hskip] at hsplit
    refine ⟨rest.reverse, owner, field, index, (path.reverse.takeWhile (!·.takesTrivia)).reverse,
      ?_, ?_, (Except.ok.inj h).symm⟩
    · have hpath := congrArg List.reverse hsplit
      rw [List.reverse_reverse, List.reverse_append, List.reverse_cons, List.append_assoc] at hpath
      exact hpath.symm
    · simpa [PathEntry.takesTrivia] using hentry
  · cases h

variable {n : Node}

theorem usable_slot {f : FlatNode} (hf : f ∈ n.flatten.nodes) {field : Field}
    (hentry : (field, cs) ∈ f.node.kind.entries) (haccepts : field.acceptsTrivia = true)
    {index : Nat} (hindex : index ≤ cs.length) :
    (⟨f.way.filterMap (·.step?), f.id, field.name, index⟩ : InsertionPoint).Usable n :=
  ⟨⟨f.node, field, cs, FlatTree.descend?_way f hf,
    Kind.fieldNamed?_eq_some_iff.2 ⟨hentry, rfl⟩, haccepts⟩,
    .inl (fits_slot hf hentry haccepts hindex)⟩

/-- A slot found on the way to a node is in the tree. -/
theorem usable_of_isPrefix {f : FlatNode} (hf : f ∈ n.flatten.nodes) {path : Path}
    (hpath : path <+: f.way ++ [⟨f.id, none, none⟩]) (h : locate path before = .ok point) :
    point.Usable n ∧ point.Fits n := by
  obtain ⟨above, owner, field, index, below, rfl, haccepts, rfl⟩ := locate_ok h
  obtain ⟨rest, hrest⟩ := hpath
  -- the entry names a field, so it is not the last one
  have hway : ∃ below, f.way = above ++ ⟨owner, some field, some index⟩ :: below := by
    rcases List.eq_nil_or_concat (below ++ rest) with hnil | ⟨front, last, hlast⟩
    · rw [List.append_assoc, List.cons_append, hnil] at hrest
      have hend := (List.append_inj' hrest rfl).2
      simp at hend
    · rw [List.append_assoc, List.cons_append, hlast, List.concat_eq_append, ← List.cons_append,
        ← List.append_assoc] at hrest
      exact ⟨front, (List.append_inj' hrest rfl).1.symm⟩
  obtain ⟨below, hway⟩ := hway
  obtain ⟨a, ha, rfl, slot, c, hslot, hentry⟩ := FlatTree.exists_ancestor f hf above below _ hway
  simp only [PathEntry.mk.injEq, Option.some.injEq] at hentry
  obtain ⟨rfl, rfl, hindex⟩ := hentry
  obtain ⟨cs, hcs, -, hc⟩ := Kind.mem_slots_iff.1 hslot
  rw [← hindex] at hc
  have hlt : index < cs.length := (List.getElem?_eq_some_iff.1 hc).1
  have hbound : (if before then index else index + 1) ≤ cs.length := by split <;> omega
  exact ⟨usable_slot ha hcs haccepts hbound, fits_slot ha hcs haccepts hbound⟩

/-- Also a path to a number that no node has leads to no other slots than these. -/
theorem usable_of_isPrefix_pathTo {id : Nat} {path : Path} (hpath : path <+: n.flatten.pathTo id)
    (h : locate path before = .ok point) : point.Usable n ∧ point.Fits n := by
  unfold FlatTree.pathTo at hpath
  split at hpath
  · next f hf => exact usable_of_isPrefix (FlatTree.mem_of_get? hf) hpath h
  · obtain ⟨above, owner, field, index, below, rfl, -, -⟩ := locate_ok h
    have hmem := hpath.subset (List.mem_append_right above List.mem_cons_self)
    simp at hmem

namespace SpannedTree

variable {t : SpannedTree}

/-- The first slot of a field that takes trivia, and any slot of such a field of the root. -/
theorem usable_takeSlot (hflat : t.flat = n.flatten) {id : Nat} {f : FlatNode}
    (hf : t.flat.get? id = some f) {field : Field} (hfield : field ∈ f.node.kind.fields)
    (haccepts : field.acceptsTrivia = true) {index : Nat}
    (hroom : (before = true ∧ index = 0) ∨ id = 0)
    (h : locate (takeSlot (t.flat.pathTo id) (some field) index) before = .ok point) :
    point.Usable n := by
  rw [hflat] at hf
  have hmem := FlatTree.mem_of_get? hf
  have hpath : takeSlot (t.flat.pathTo id) (some field) index =
      f.way ++ ⟨f.id, some field, some index⟩ :: [] := by
    rw [← FlatTree.id_of_get? hf, path_eq hflat hmem]
    simp [takeSlot]
  rw [hpath, locate_append haccepts (by simp)] at h
  cases h
  rw [← Kind.map_fst_entries] at hfield
  obtain ⟨⟨field, cs⟩, hentry, rfl⟩ := List.mem_map.1 hfield
  rcases hroom with ⟨rfl, rfl⟩ | rfl
  · exact usable_slot hmem hentry haccepts (by simp)
  · have hroot : f = ⟨0, n, []⟩ := Option.some.inj (hf.symm.trans (FlatTree.get?_zero n))
    subst hroot
    exact ⟨⟨n, _, cs, rfl, Kind.fieldNamed?_eq_some_iff.2 ⟨hentry, rfl⟩, haccepts⟩, .inr rfl⟩

theorem usable_insideEnclosing (hflat : t.flat = n.flatten) {enclosing : Nat}
    (h : locate (t.insideEnclosing enclosing).path
      (t.insideEnclosing enclosing).before = .ok point) : point.Usable n := by
  unfold insideEnclosing at h
  split at h
  · next field hfield =>
    obtain ⟨f, hf, hfind⟩ := Option.bind_eq_some_iff.1 hfield
    exact usable_takeSlot hflat hf (List.mem_of_find?_eq_some hfind)
      (by simpa using List.find?_some hfind) (.inl ⟨rfl, rfl⟩) h
  · rw [hflat] at h
    exact (usable_of_isPrefix_pathTo (List.dropLast_prefix _) h).1

theorem usable_rootSlot (hflat : t.flat = n.flatten) {index : Nat}
    (h : locate (t.rootSlot index before).path
      (t.rootSlot index before).before = .ok point) : point.Usable n := by
  unfold rootSlot at h
  cases hfield : (t.flat.get? 0).bind (·.node.kind.triviaField?) with
  | some field =>
      rw [hfield] at h
      obtain ⟨f, hf, hfind⟩ := Option.bind_eq_some_iff.1 hfield
      exact usable_takeSlot hflat hf (List.mem_of_find?_eq_some hfind)
        (by simpa using List.find?_some hfind) (.inr rfl) h
  | none =>
      -- without a field the path names no slot
      rw [hfield] at h
      obtain ⟨above, owner, field, index, below, hpath, -, -⟩ := locate_ok h
      have hroot := path_eq hflat (FlatTree.root_mem n)
      simp only [hroot, takeSlot] at hpath
      have hmem := hpath ▸ List.mem_append_right above List.mem_cons_self
      simp at hmem

theorem afterPreceding?_isPrefix {preceding enclosing : Nat} {anchor : Anchor}
    (h : t.afterPreceding? preceding enclosing = some anchor) :
    anchor.path <+: t.flat.pathTo preceding := by
  simp only [afterPreceding?] at h
  split at h
  · split at h
    · cases h
    · split at h
      · cases h
        exact List.take_prefix _ _
      · cases h
  · cases h

/-- Every anchor stands for a usable slot, whatever the spans. -/
theorem usable_of_anchor (hflat : t.flat = n.flatten) {target : Span} {anchor : Anchor}
    (h : t.anchor target = .ok anchor) (hpoint : locate anchor.path anchor.before = .ok point) :
    point.Usable n := by
  have hprefix : ∀ {id : Nat}, anchor.path <+: t.flat.pathTo id → point.Usable n :=
    fun hpath => (usable_of_isPrefix_pathTo (hflat ▸ hpath) hpoint).1
  simp only [SpannedTree.anchor] at h
  split at h
  · next enclosing _ =>
    split at h
    · simp only [beforeFollowing] at h
      split at h
      · cases h
        exact hprefix (List.dropLast_prefix _)
      · cases h
    · split at h
      · next found hfound =>
        cases h
        obtain ⟨preceding, -, hafter⟩ := Option.bind_eq_some_iff.1 hfound
        exact hprefix (afterPreceding?_isPrefix hafter)
      · cases h
        exact usable_insideEnclosing hflat hpoint
  · split at h
    · cases h
      exact usable_rootSlot hflat hpoint
    · split at h
      · cases h
        exact usable_rootSlot hflat hpoint
      · cases h
        exact hprefix (List.take_prefix _ _)
    · cases h

end SpannedTree

/-! ### Batches -/

/-- A slot past the end of a sequence of the root stays there: what has been put into the sequence
is at places that come later still, and there are none. -/
theorem fits_of_insertHere {e : Insertion} (usable : e.point.Usable n)
    (others : ∀ x ∈ es, x.point.Fits n)
    (least : ∀ x ∈ es, keyOrder (e.point.place n) (x.point.place n) ≠ .gt)
    (own : e.point.steps = []) {n' : Node}
    (h : (n.insertTogether es).insertHere e.point.field e.point.index e.node = .ok n') :
    e.point.Fits n := by
  obtain ⟨field, cs, hfound, haccepts⟩ := usable.aims.here own
  have hsequence : field.isSequence = true := by
    rw [Field.acceptsTrivia, Bool.and_eq_true] at haccepts
    exact haccepts.1
  obtain ⟨hentry, hname⟩ := Kind.fieldNamed?_eq_some_iff.1 hfound
  refine ⟨n, cs, by rw [own, Node.descend?], Kind.sequence?_eq_some_iff.2 ⟨field, hfound, hsequence⟩,
    ?_⟩
  by_contra hpast
  have hnone : nodesFor es e.point.field = fun _ => [] := by
    funext j
    rw [nodesFor, List.map_eq_nil_iff, List.filter_eq_nil_iff]
    intro x hx here
    simp only [Insertion.isHere, Bool.and_eq_true, decide_eq_true_eq] at here
    obtain ⟨⟨ownX, fieldX⟩, rfl⟩ := here
    obtain ⟨_, _, ordinal, hfoundX, -, hinside, hindexed, keyedX⟩ := (others x hx).here ownX
    rw [fieldX] at hfoundX hindexed
    cases hfound.symm.trans hfoundX
    have keyed : e.point.key n = .ok [(ordinal, e.point.index)] := by
      rw [InsertionPoint.key, own, Node.slotKey, hindexed]
    have horder := least x hx
    rw [InsertionPoint.place_eq keyed, InsertionPoint.place_eq keyedX, keyOrder_cons_ne_gt] at horder
    omega
  obtain ⟨children, hchildren, hindex, -⟩ := Node.insertHere_ok h
  obtain ⟨found, hfound', -⟩ := Kind.sequence?_eq_some_iff.1 hchildren
  rw [Node.insertTogether_eq, Kind.fieldNamed?_mapFields _ (Field.keepsShape_insertTogether _ es),
    hfound, Option.map_some, Option.some.injEq, Prod.mk.injEq] at hfound'
  obtain ⟨-, rfl⟩ := hfound'
  rw [Field.insertTogether, if_pos hsequence, hname, hnone, weave_empty, List.length_mapIdx] at hindex
  exact hpast hindex

/-- A batch that succeeds meets all its slots as they were found. -/
theorem fits_of_insertEach {n' : Node} (trivia : ∀ e ∈ es, e.node.isTrivia = true)
    (usable : ∀ e ∈ es, e.point.Usable n)
    (sorted : es.Pairwise fun a b => keyOrder (a.point.place n) (b.point.place n) ≠ .gt)
    (h : n.insertEach es.reverse = .ok n') : ∀ e ∈ es, e.point.Fits n := by
  induction es generalizing n' with
  | nil => simp
  | cons e es ih =>
      rw [List.reverse_cons, Node.insertEach_append] at h
      cases hlater : n.insertEach es.reverse with
      | error fault => rw [hlater] at h; cases h
      | ok later =>
          have triviaLater := fun x hx => trivia x (List.mem_cons_of_mem e hx)
          have fits := ih triviaLater (fun x hx => usable x (List.mem_cons_of_mem e hx))
            (List.pairwise_cons.1 sorted).2 hlater
          have htogether := Node.insertEach_reverse triviaLater fits (List.pairwise_cons.1 sorted).2
          cases hlater.symm.trans htogether
          refine List.forall_mem_cons.2 ⟨?_, fits⟩
          rcases (usable e List.mem_cons_self).fits with hfits | own
          · exact hfits
          · rw [hlater] at h
            have hhere : ∃ n'', (n.insertTogether es).insertHere e.point.field e.point.index e.node =
                .ok n'' := by
              cases hat : (n.insertTogether es).insertAt e.point e.node with
              | error fault =>
                  rw [Except.bind, Node.insertEach, hat] at h
                  cases h
              | ok n'' =>
                  rw [Node.insertAt, if_pos (trivia e List.mem_cons_self), own] at hat
                  exact ⟨n'', hat⟩
            obtain ⟨n'', hhere⟩ := hhere
            exact fits_of_insertHere (usable e List.mem_cons_self) fits
              (List.pairwise_cons.1 sorted).1 own hhere

/-- A batch of well-formed trivia at usable slots puts each in its place. -/
theorem wellPlaced_of_insertEach {n' : Node} (placed : n.WellPlaced)
    (usable : ∀ e ∈ es, e.point.Usable n)
    (formed : ∀ e ∈ es, e.node.isTrivia = true ∧ e.node.WellFormed)
    (sorted : es.Pairwise fun a b => keyOrder (a.point.place n) (b.point.place n) ≠ .gt)
    (h : n.insertEach es.reverse = .ok n') : n'.WellPlaced := by
  have trivia := fun e he => (formed e he).1
  have fits := fits_of_insertEach trivia usable sorted h
  cases (Node.insertEach_reverse trivia fits sorted).symm.trans h
  obtain ⟨hroot, hproblems⟩ := Node.wellPlaced_iff.1 placed
  refine Node.wellPlaced_iff.2 ⟨(n.isTrivia_insertTogether es).trans hroot, ?_⟩
  exact n.ownProblems_insertTogether es (fun e he => ⟨(usable e he).aims, formed e he⟩) hproblems

/-! ### The comments of a source -/

theorem wellFormed_of_classify {raw : String} {trivia : Trivia} (hraw : '\n' ∉ raw.toList)
    (h : classifier.classify raw = .ok trivia) (span : Option Span) :
    (trivia.toNode span).WellFormed := by
  unfold Classifier.classify at h
  split at h
  · cases h
    exact hraw
  · next found hfound =>
    split at h
    · cases h
    · cases h
      -- every form of the table has keywords
      have hmem : found.form ∈ directiveTable := by
        unfold Classifier.recognize? recognize? at hfound
        split at hfound
        · obtain ⟨form, hform, hfits⟩ := List.exists_of_findSome?_eq_some hfound
          simp only [DirectiveForm.recognize?] at hfits
          split at hfits
          · cases hfits
          · split at hfits
            · cases hfits
            · cases hfits
              exact (List.mem_filter.1 hform).1
        · cases hfound
      have htable : ∀ form ∈ directiveTable, form.keywords ≠ [] := by decide
      exact htable found.form hmem

theorem Planned.wellFormed_settle {p : Planned} (before : List Planned) (h : p.node.WellFormed) :
    (p.settle before).node.WellFormed := by
  unfold Planned.settle
  simp only
  split
  · obtain ⟨key, point, trivia, span, afterHeader⟩ := p
    cases trivia <;> exact h
  · exact h

/-- A slot is found for a span by its anchor. -/
theorem SpannedTree.slotFor_ok {t : SpannedTree} {target : Span} {key : List (Nat × Nat)}
    (h : t.slotFor n target = .ok (point, key)) :
    ∃ anchor, t.anchor target = .ok anchor ∧ locate anchor.path anchor.before = .ok point ∧
      point.key n = .ok key := by
  unfold SpannedTree.slotFor at h
  split at h
  · cases h
  · next anchor hanchor =>
    split at h
    · cases h
    · next found hlocate =>
      split at h
      · cases h
      · next key' hkey =>
        cases h
        exact ⟨anchor, hanchor, hlocate, hkey⟩

/-- What is planned for a token is what it says, in the slot for its span. -/
theorem planToken_cases {t : SpannedTree} {token : TriviaToken} {p : Planned}
    (h : t.planToken classifier source n token = .ok p) :
    p.span = token.span ∧ t.slotFor n token.span = .ok (p.point, p.key) ∧
      ((∃ d, classifier.classify token.text = .ok (.directive d) ∧ p.trivia = .directive d) ∨
        ∃ c endOfLine, classifier.classify token.text = .ok (.comment c) ∧
          p.trivia = .comment { c with endOfLine := endOfLine }) := by
  unfold SpannedTree.planToken at h
  split at h
  · cases h
  · next trivia hclassify =>
    split at h
    · cases h
    · next point key hslot =>
      split at h
      · cases h
        exact ⟨rfl, hslot, .inl ⟨_, hclassify, rfl⟩⟩
      · cases h
        exact ⟨rfl, hslot, .inr ⟨_, _, hclassify, rfl⟩⟩

theorem planToken_ok {t : SpannedTree} (hflat : t.flat = n.flatten) {token : TriviaToken}
    {p : Planned} (htext : '\n' ∉ token.text.toList)
    (h : t.planToken classifier source n token = .ok p) :
    p.point.Usable n ∧ p.point.key n = .ok p.key ∧ p.node.WellFormed := by
  obtain ⟨_, hslot, hsays⟩ := planToken_cases h
  obtain ⟨anchor, hanchor, hlocate, hkey⟩ := SpannedTree.slotFor_ok hslot
  refine ⟨SpannedTree.usable_of_anchor hflat hanchor hlocate, hkey, ?_⟩
  rcases hsays with ⟨d, hclassify, htrivia⟩ | ⟨c, endOfLine, hclassify, htrivia⟩
  · rw [Planned.node, htrivia]
    exact wellFormed_of_classify htext hclassify _
  · rw [Planned.node, htrivia]
    exact wellFormed_of_classify htext hclassify none

/-- What all results say of their elements is said of them in order. -/
theorem map_of_mapM {α β γ ε : Type} {f : α → Except ε β} {made : β → γ} {said : α → γ}
    (hf : ∀ x y, f x = .ok y → made y = said x) {xs : List α} {ys : List β}
    (h : xs.mapM f = .ok ys) : ys.map made = xs.map said := by
  induction xs generalizing ys with
  | nil =>
      cases h
      rfl
  | cons x xs ih =>
      rw [List.mapM_cons] at h
      cases hx : f x with
      | error e => rw [hx] at h; cases h
      | ok y =>
          cases hxs : xs.mapM f with
          | error e => rw [hx, hxs] at h; cases h
          | ok zs =>
              rw [hx, hxs] at h
              cases h
              rw [List.map_cons, List.map_cons, ih hxs, hf x y hx]

theorem length_of_mapM {α β ε : Type} {f : α → Except ε β} {xs : List α} {ys : List β}
    (h : xs.mapM f = .ok ys) : ys.length = xs.length := by
  simpa using congrArg List.length (map_of_mapM (fun _ _ _ => Eq.refl ()) h)

theorem length_schedule (plan : List Planned) : (schedule plan).length = plan.length := by
  have h := congrArg List.length
    (map_settleReversed Planned.point_settle (plan.mergeSort fun a b => Planned.order a b ≠ .gt))
  simpa [schedule] using h

/-- All comments of a source get into the tree, each in its place. -/
theorem insertTrivia_ok {tokens : List TriviaToken} {n' : Node} (placed : n.WellPlaced)
    (htexts : ∀ token ∈ tokens, '\n' ∉ token.text.toList)
    (h : insertTrivia classifier source n tokens = .ok n') :
    n'.WellPlaced ∧ Adds tokens.length n n' := by
  unfold insertTrivia at h
  split at h
  · next hempty =>
    cases h
    rw [List.isEmpty_iff.1 hempty]
    exact ⟨placed, Adds.refl n⟩
  split at h
  · cases h
  · next plan hplan =>
    have hcarried : carryOut n (schedule plan) = .ok n' := by
      cases hcarry : carryOut n (schedule plan) with
      | error fault => rw [hcarry] at h; cases h
      | ok carried => rw [hcarry] at h; cases h; rfl
    unfold planAll at hplan
    split at hplan
    · cases hplan
    · next t ht =>
      have hflat : t.flat = n.flatten := by
        unfold Node.spanned at ht
        cases hspans : n.flatten.resolveSpans source with
        | error fault => rw [hspans] at ht; cases ht
        | ok spans => rw [hspans] at ht; cases ht; rfl
      have hplanned : ∀ p ∈ plan, p.point.Usable n ∧ p.point.key n = .ok p.key ∧
          p.node.WellFormed := by
        intro p hp
        rcases mapM_cases (t.planToken classifier source n) tokens with
          ⟨_, _, _, _, herror⟩ | ⟨plan', hok, hfrom, _⟩
        · cases herror.symm.trans hplan
        · cases hok.symm.trans hplan
          obtain ⟨token, htoken, hp⟩ := hfrom p hp
          exact planToken_ok hflat (htexts token htoken) hp
      rw [carryOut_eq_insertEach, ← List.reverse_reverse ((schedule plan).map Planned.insertion),
        ← List.map_reverse] at hcarried
      have hadds := Node.insertEach_adds hcarried
      rw [List.length_reverse, List.length_map, List.length_reverse, length_schedule,
        length_of_mapM hplan] at hadds
      refine ⟨?_, hadds⟩
      have hsettled : ∀ e ∈ (schedule plan).reverse.map Planned.insertion,
          e.point.Usable n ∧ e.node.isTrivia = true ∧ e.node.WellFormed := by
        intro e he
        obtain ⟨q, hq, rfl⟩ := List.mem_map.1 he
        obtain ⟨p, hp, before, rfl⟩ := exists_of_mem_schedule (List.mem_reverse.1 hq)
        obtain ⟨husable, -, hformed⟩ := hplanned p hp
        refine ⟨?_, Planned.isTrivia_node _, Planned.wellFormed_settle before hformed⟩
        rw [Planned.insertion, Planned.point_settle]
        exact husable
      exact wellPlaced_of_insertEach placed (fun e he => (hsettled e he).1)
        (fun e he => (hsettled e he).2) (pairwise_schedule fun p hp => (hplanned p hp).2.1) hcarried

/-! ### Runs -/

/-- A step of an editing run. -/
inductive EditStep where
  /-- Put `new` before or after the node that the first `kept` entries of the path to node `id` lead
  to. -/
  | splice (new : Node) (id kept : Nat) (before : Bool)
  /-- Put the comments of a source text where their spans say. -/
  | insertAll (classifier : Classifier) (source : String) (tokens : List TriviaToken)

namespace EditStep

/-- Only well-formed trivia are put into trees. -/
def Legal : EditStep → Prop
  | splice new _ _ _ => new.isTrivia = true ∧ new.WellFormed
  | insertAll _ _ tokens => ∀ token ∈ tokens, '\n' ∉ token.text.toList

/-- How many nodes the step adds when it succeeds. -/
def size : EditStep → Nat
  | splice .. => 1
  | insertAll _ _ tokens => tokens.length

def apply (n : Node) : EditStep → Except SpliceError Node
  | splice new id kept before =>
      (n.splice new ((n.flatten.pathTo id).take kept) before).mapError .insertion
  | insertAll classifier source tokens => insertTrivia classifier source n tokens

end EditStep

/-- A tree and the number of nodes that have been put into it. -/
structure EditState where
  tree : Node
  added : Nat

/-- A step that fails leaves the state as it was. -/
def EditState.edit (s : EditState) (step : EditStep) : EditState :=
  match step.apply s.tree with
  | .ok tree => ⟨tree, s.added + step.size⟩
  | .error _ => s

theorem EditStep.apply_ok {step : EditStep} (legal : step.Legal) {n' : Node} (placed : n.WellPlaced)
    (h : step.apply n = .ok n') : n'.WellPlaced ∧ Adds step.size n n' := by
  cases step with
  | insertAll classifier source tokens => exact insertTrivia_ok placed legal h
  | splice new id kept before =>
      cases hpoint : locate ((n.flatten.pathTo id).take kept) before with
      | error fault =>
          rw [apply, Node.splice, hpoint] at h
          cases h
      | ok point =>
          have hinsert : n.insertAt point new = .ok n' := by
            rw [apply, Node.splice, hpoint] at h
            cases hat : n.insertAt point new with
            | error fault =>
                simp only [bind, Except.bind, hat] at h
                cases h
            | ok inserted =>
                simp only [bind, Except.bind, hat] at h
                cases h
                rfl
          refine ⟨?_, Node.insertAt_adds hinsert⟩
          obtain ⟨husable, -⟩ := usable_of_isPrefix_pathTo (List.take_prefix _ _) hpoint
          have hbatch : n.insertEach [(⟨point, new, ⟨0, 0⟩⟩ : Insertion)].reverse = .ok n' := by
            rw [List.reverse_singleton, Node.insertEach, hinsert]
            rfl
          have hformed : ∀ e ∈ [(⟨point, new, ⟨0, 0⟩⟩ : Insertion)],
              e.node.isTrivia = true ∧ e.node.WellFormed := by
            intro e he
            rw [List.mem_singleton.1 he]
            exact legal
          exact wellPlaced_of_insertEach placed (by simpa using husable) hformed
            (List.pairwise_singleton _ _) hbatch

/-- What a run keeps of the tree it started from. -/
structure EditState.Follows (start : Node) (s : EditState) : Prop where
  placed : s.tree.WellPlaced
  adds : Adds s.added start s.tree

theorem EditState.Follows.edit {start : Node} {s : EditState} (follows : s.Follows start)
    {step : EditStep} (legal : step.Legal) : (s.edit step).Follows start := by
  unfold EditState.edit
  split
  · next tree happly =>
    obtain ⟨placed, adds⟩ := step.apply_ok legal follows.placed happly
    exact ⟨placed, follows.adds.trans adds⟩
  · exact follows

/-- After any run of legal steps from a tree with its trivia in place, they are in place still, the
code is the same, and there are as many trivia more as have been put in. -/
theorem edits_keep_code_and_places (start : Node) (placed : start.WellPlaced)
    (steps : List EditStep) (legal : ∀ step ∈ steps, step.Legal) :
    let final := steps.foldl EditState.edit ⟨start, 0⟩
    final.tree.WellPlaced ∧ final.tree.strip = start.strip ∧
      final.tree.flatten.triviaCount = start.flatten.triviaCount + final.added := by
  have follows : (steps.foldl EditState.edit ⟨start, 0⟩).Follows start := by
    refine List.foldlRecOn steps EditState.edit ⟨placed, Adds.refl start⟩ ?_
    exact fun s hs step hstep => hs.edit (legal step hstep)
  simp only [Node.triviaCount_flatten]
  exact ⟨follows.placed, follows.adds.strip_eq, follows.adds.triviaCount_eq⟩

/-- A comment put before the second element of a list, a path with no slot, and the comment of a
source text. -/
theorem edits_keep_code_and_places_list :
    let list : Node := .bare (.list [.bare (.name "a"), .bare (.name "b")])
    let start : Node := .bare (.module [.bare (.exprStmt list)])
    let steps : List EditStep :=
      [.splice (.bare (.comment ⟨" c", true⟩)) 4 3 true, .splice (.bare (.comment ⟨"", false⟩)) 0 1 true,
        .insertAll .standard "[a, b] # d" [⟨" d", ⟨⟨1, 7⟩, ⟨1, 10⟩⟩⟩]]
    let final := steps.foldl EditState.edit ⟨start, 0⟩
    start.WellPlaced ∧ (∀ step ∈ steps, step.Legal) ∧ final.added = 2 ∧
      final.tree.WellPlaced ∧ final.tree.strip = start.strip ∧
      final.tree.flatten.triviaCount = start.flatten.triviaCount + final.added := by
  intro list start steps final
  have placed : start.WellPlaced := by decide +kernel
  have legal : ∀ step ∈ steps, step.Legal := by
    simp [steps, EditStep.Legal, Node.WellFormed, Node.bare, Node.isTrivia, Kind.isTrivia]
  have added : final.added = 2 := by decide +kernel
  exact ⟨placed, legal, added, edits_keep_code_and_places start placed steps legal⟩

end TriviaTree
