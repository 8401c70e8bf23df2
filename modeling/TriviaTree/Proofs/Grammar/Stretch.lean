import Mathlib
import TriviaTree.Proofs.Grammar.Run
import TriviaTree.Proofs.Source.Lines
import TriviaTree.Tree.Field

/-!
The stretch of text that a run of a parser goes over, and the nodes in it.

A run leads from one cursor to a later one over a stretch of the text, and the nodes it reads lie
in that stretch in order (`Stretch`); most rules read at least one lexeme that takes up room
(`Piece`). Stretches that follow each other join, and closing a node over a piece makes one node
of it, whose span holds those of its children (`Node.Nested`). Spans begin where lexemes begin and end
where lexemes that are no layout end; `Bounds` are two classes of places that hold these.
-/

set_option autoImplicit false

namespace TriviaTree

/-- One node ends before the other begins. -/
def Node.Before (a b : Node) : Prop :=
  ∀ s t, a.span = some s → b.span = some t → s.stop ≤ t.start

/-- Two nodes do not overlap. -/
def Node.Apart (a b : Node) : Prop :=
  ∀ s t, a.span = some s → b.span = some t → s.stop ≤ t.start ∨ t.stop ≤ s.start

theorem Node.Before.apart {a b : Node} (h : a.Before b) : a.Apart b :=
  fun s t hs ht => .inl (h s t hs ht)

theorem Node.Apart.symm {a b : Node} (h : a.Apart b) : b.Apart a :=
  fun s t hs ht => (h t s ht hs).symm

/-- The children of each sequence that takes trivia follow each other, and what heads a block or a
call comes before them. -/
def Kind.InTextOrder : Kind Node → Prop
  | .module body => body.Pairwise Node.Before
  | .functionDef _ args body => (args :: body).Pairwise Node.Before
  | .forLoop target iter body orelse =>
      (target :: iter :: (body ++ orelse)).Pairwise Node.Before
  | .whileLoop test body orelse | .ifStmt test body orelse =>
      (test :: (body ++ orelse)).Pairwise Node.Before
  | .call func args keywords =>
      (func :: args).Pairwise Node.Before ∧ (func :: keywords).Pairwise Node.Before
  | .list elts | .tuple elts | .set elts => elts.Pairwise Node.Before
  | .dict keys values => keys.Pairwise Node.Before ∧ values.Pairwise Node.Before
  | .arguments args _ kwonlyargs _ =>
      args.Pairwise Node.Before ∧ kwonlyargs.Pairwise Node.Before
  | _ => True

/-- Children that are read in the order of the fields are in order. -/
theorem Kind.inTextOrder_of_pairwise {kind : Kind Node} (h : kind.children.Pairwise Node.Before) :
    kind.InTextOrder := by
  cases kind with
  | module | functionDef | forLoop | whileLoop | ifStmt | list | tuple | set =>
      simpa [InTextOrder, children, contents] using h
  | call func args keywords =>
      exact ⟨h.sublist (by simp [children, contents]), h.sublist (by simp [children, contents])⟩
  | dict keys values =>
      exact ⟨h.sublist (by simp [children, contents]), h.sublist (by simp [children, contents])⟩
  | arguments args vararg kwonlyargs kwarg =>
      refine ⟨h.sublist (by simp [children, contents]), h.sublist ?_⟩
      simp only [children, contents, List.flatten_cons, List.flatten_nil, List.append_nil]
      exact ((List.sublist_append_left kwonlyargs _).trans
        (List.sublist_append_right _ _)).trans (List.sublist_append_right _ _)
  | _ => trivial

/-- The places where spans may begin, and those where they may end. -/
structure Bounds where
  start : Location → Prop
  stop : Location → Prop

/-- Spans begin and end at places of one class. -/
def Bounds.both (places : Location → Prop) : Bounds := ⟨places, places⟩

variable (B : Bounds)

/-- A tree whose spans nest: the only nodes without a span are an empty module and an empty list
of parameters. -/
inductive Node.Nested : Node → Prop
  | bare {kind : Kind Node} (hkind : kind = .module [] ∨ kind = .arguments [] none [] none) :
      Node.Nested ⟨kind, none⟩
  | spanned {kind : Kind Node} {span : Span} (hroom : span.start < span.stop)
      (hstart : B.start span.start) (hstop : B.stop span.stop)
      (nested : ∀ n ∈ kind.children, Node.Nested n)
      (inside : ∀ n ∈ kind.children, ∀ s, n.span = some s → span.start ≤ s.start ∧ s.stop ≤ span.stop)
      (apart : kind.children.Pairwise Node.Apart) (order : kind.InTextOrder) :
      Node.Nested ⟨kind, some span⟩

theorem Node.Nested.of_span {B : Bounds} {n : Node} {s : Span} (nested : n.Nested B)
    (hs : n.span = some s) : s.start < s.stop ∧ B.start s.start ∧ B.stop s.stop := by
  cases nested with
  | bare hkind => cases hs
  | spanned hroom hstart hstop =>
      cases hs
      exact ⟨hroom, hstart, hstop⟩

theorem Node.Nested.of_mem_children {B : Bounds} {n c : Node} (nested : n.Nested B)
    (hc : c ∈ n.children) : c.Nested B ∧ ∃ outer, n.span = some outer ∧
      ∀ s, c.span = some s → outer.start ≤ s.start ∧ s.stop ≤ outer.stop := by
  cases nested with
  | bare hkind =>
      rcases hkind with rfl | rfl <;> simp [Node.children, Kind.children, Kind.contents] at hc
  | spanned _ _ _ nested inside => exact ⟨nested c hc, _, rfl, inside c hc⟩

namespace Grammar

/-- Nodes between two places, one after the other; a list of parameters that is empty has no place. -/
structure Chain (lo hi : Location) (ns : List Node) : Prop where
  nested : ∀ n ∈ ns, n.Nested B
  within : ∀ n ∈ ns, ∀ s, n.span = some s → lo ≤ s.start ∧ s.stop ≤ hi
  pairwise : ns.Pairwise Node.Before

/-- The lexemes at and after a cursor stand after what has been read, one after the other. -/
structure Cursor.Ordered (c : Cursor) : Prop where
  lastEnd : B.stop c.lastEnd
  after : ∀ l ∈ c.current :: c.ahead, c.lastEnd ≤ l.span.start
  bounds : ∀ l ∈ c.current :: c.ahead, l.span.start ≤ l.span.stop ∧ B.start l.span.start ∧
    (l.kind.isLayout = false → B.stop l.span.stop)
  room : ∀ l ∈ c.current :: c.ahead, l.kind.isLayout = false → l.span.start < l.span.stop
  pairwise : (c.current :: c.ahead).Pairwise (·.span.stop ≤ ·.span.start)
  last : ∀ l, (c.current :: c.ahead).getLast? = some l → l.kind.isLayout = true

/-- Where the lexeme at a cursor starts. -/
abbrev Cursor.start (c : Cursor) : Location := c.current.span.start

/-- The text from one cursor to a later one, and the nodes in it. -/
structure Stretch (c c' : Cursor) (ns : List Node) : Prop where
  ordered : c.Ordered B
  ordered' : c'.Ordered B
  lastEnd_le : c.lastEnd ≤ c'.lastEnd
  start_le : c.start ≤ c'.start
  chain : Chain B c.start c'.lastEnd ns

/-- A stretch that takes up room. -/
structure Piece (c c' : Cursor) (ns : List Node) : Prop extends Stretch B c c' ns where
  room : c.start < c'.lastEnd

/-- Every run of `p` is a stretch with the nodes of its result in it. -/
def Stretches {α : Type} (p : Parser α) (nodes : α → List Node) : Prop :=
  ∀ ⦃c a c'⦄, c.Ordered B → p c = .ok (a, c') → Stretch B c c' (nodes a)

/-- Every run of `p` is a piece with the nodes of its result in it. -/
def Pieces {α : Type} (p : Parser α) (nodes : α → List Node) : Prop :=
  ∀ ⦃c a c'⦄, c.Ordered B → p c = .ok (a, c') → Piece B c c' (nodes a)

variable {B}

theorem Pieces.stretches {α : Type} {p : Parser α} {nodes : α → List Node}
    (h : Pieces B p nodes) : Stretches B p nodes :=
  fun _ _ _ ordered run => (h ordered run).toStretch

/-- The first node of a chain starts first. -/
theorem Chain.start_le {lo hi : Location} {first : Node} {rest : List Node}
    (chain : Chain B lo hi (first :: rest)) {s t : Span} (hfirst : first.span = some s) {n : Node}
    (hn : n ∈ first :: rest) (ht : n.span = some t) : s.start ≤ t.start := by
  rcases List.mem_cons.1 hn with rfl | hn
  · cases hfirst.symm.trans ht
    exact le_rfl
  · have hroom := ((chain.nested first List.mem_cons_self).of_span hfirst).1
    exact hroom.le.trans ((List.pairwise_cons.1 chain.pairwise).1 n hn s t hfirst ht)

/-- The last node of a chain stops last. -/
theorem Chain.le_stop {lo hi : Location} {init : List Node} {last : Node}
    (chain : Chain B lo hi (init ++ [last])) {s t : Span} (hlast : last.span = some s) {n : Node}
    (hn : n ∈ init ++ [last]) (ht : n.span = some t) : t.stop ≤ s.stop := by
  rcases List.mem_append.1 hn with hn | hn
  · have hroom := ((chain.nested last (by simp)).of_span hlast).1
    exact ((List.pairwise_append.1 chain.pairwise).2.2 n hn last (by simp) t s ht hlast).trans hroom.le
  · obtain rfl := List.mem_singleton.1 hn
    cases hlast.symm.trans ht
    exact le_rfl

namespace Cursor.Ordered

variable {c : Cursor}

theorem lastEnd_le (ordered : c.Ordered B) : c.lastEnd ≤ c.start :=
  ordered.after _ List.mem_cons_self

theorem start_le (ordered : c.Ordered B) : c.start ≤ c.current.span.stop :=
  (ordered.bounds _ List.mem_cons_self).1

theorem start_mem (ordered : c.Ordered B) : B.start c.start :=
  (ordered.bounds _ List.mem_cons_self).2.1

end Cursor.Ordered

/-! ### Stretches one after the other -/

section Stretches

variable {c c₁ c₂ : Cursor} {as bs ns : List Node}

theorem Stretch.refl (ordered : c.Ordered B) : Stretch B c c [] :=
  ⟨ordered, ordered, le_rfl, le_rfl, ⟨by simp, by simp, .nil⟩⟩

theorem Stretch.append (first : Stretch B c c₁ as) (second : Stretch B c₁ c₂ bs) :
    Stretch B c c₂ (as ++ bs) where
  ordered := first.ordered
  ordered' := second.ordered'
  lastEnd_le := first.lastEnd_le.trans second.lastEnd_le
  start_le := first.start_le.trans second.start_le
  chain :=
    { nested := fun n hn => (List.mem_append.1 hn).elim (first.chain.nested n) (second.chain.nested n)
      within := fun n hn s hs => by
        rcases List.mem_append.1 hn with hn | hn
        · exact (first.chain.within n hn s hs).imp_right (·.trans second.lastEnd_le)
        · exact (second.chain.within n hn s hs).imp_left first.start_le.trans
      pairwise := List.pairwise_append.2
        ⟨first.chain.pairwise, second.chain.pairwise, fun a ha b hb s t hs ht =>
          ((first.chain.within a ha s hs).2.trans first.ordered'.lastEnd_le).trans
            (second.chain.within b hb t ht).1⟩ }

theorem Piece.append (first : Piece B c c₁ as) (second : Stretch B c₁ c₂ bs) :
    Piece B c c₂ (as ++ bs) :=
  ⟨first.toStretch.append second, first.room.trans_le second.lastEnd_le⟩

theorem Stretch.append_piece (first : Stretch B c c₁ as) (second : Piece B c₁ c₂ bs) :
    Piece B c c₂ (as ++ bs) :=
  ⟨first.append second.toStretch, first.start_le.trans_lt second.room⟩

theorem Cursor.advance_of_ahead_nil (ordered : c.Ordered B) (hahead : c.ahead = []) :
    c.advance = c := by
  have hlayout := ordered.last c.current (by simp [hahead])
  cases c
  simp_all [Cursor.advance]

/-- Reading a lexeme. -/
theorem stretch_advance (ordered : c.Ordered B) : Stretch B c c.advance [] := by
  cases hahead : c.ahead with
  | nil =>
      rw [Cursor.advance_of_ahead_nil ordered hahead]
      exact .refl ordered
  | cons next rest =>
      have hadvance : c.advance =
          ⟨next, rest, if c.current.kind.isLayout then c.lastEnd else c.current.span.stop⟩ := by
        simp [Cursor.advance, hahead]
      have hlater : ∀ l ∈ next :: rest, c.current.span.stop ≤ l.span.start :=
        (List.pairwise_cons.1 (hahead ▸ ordered.pairwise)).1
      have hstop : c.advance.lastEnd ≤ c.current.span.stop ∧ c.lastEnd ≤ c.advance.lastEnd ∧
          B.stop c.advance.lastEnd := by
        have hbounds := ordered.bounds _ List.mem_cons_self
        have hle := ordered.lastEnd_le.trans hbounds.1
        rw [hadvance]
        by_cases hlayout : c.current.kind.isLayout
        · simpa [hlayout] using And.intro hle ordered.lastEnd
        · simpa [hlayout] using And.intro hle (hbounds.2.2 (by simpa using hlayout))
      have hcurrent : c.advance.current = next := by rw [hadvance]
      have hrest : c.advance.current :: c.advance.ahead = c.ahead := by rw [hadvance, hahead]
      have hmem : ∀ l ∈ c.ahead, l ∈ c.current :: c.ahead := fun l hl => List.mem_cons_of_mem _ hl
      refine ⟨ordered, ⟨hstop.2.2, ?_, ?_, ?_, ?_, ?_⟩, hstop.2.1, ?_, ⟨by simp, by simp, .nil⟩⟩
      · rw [hrest, hahead]
        exact fun l hl => hstop.1.trans (hlater l hl)
      · rw [hrest]
        exact fun l hl => ordered.bounds l (hmem l hl)
      · rw [hrest]
        exact fun l hl => ordered.room l (hmem l hl)
      · rw [hrest]
        exact (List.pairwise_cons.1 ordered.pairwise).2
      · intro l hl
        rw [hrest, hahead] at hl
        exact ordered.last l (by rw [hahead, List.getLast?_cons_cons, hl])
      · show c.current.span.start ≤ c.advance.current.span.start
        rw [hcurrent]
        exact ordered.start_le.trans (hlater next List.mem_cons_self)

/-- Reading a lexeme that takes up room. -/
theorem piece_advance (ordered : c.Ordered B) (hkind : c.current.kind.isLayout = false) :
    Piece B c c.advance [] := by
  refine ⟨stretch_advance ordered, ?_⟩
  have hroom := ordered.room _ List.mem_cons_self hkind
  unfold Cursor.advance
  cases c.ahead <;> simpa [hkind] using hroom

theorem piece_op {op : String} (ordered : c.Ordered B) (h : c.atOp op = true) :
    Piece B c c.advance [] := by
  refine piece_advance ordered ?_
  simp only [Cursor.atOp, Lexeme.isOp, Bool.and_eq_true, decide_eq_true_eq] at h
  rw [h.1]
  rfl

theorem piece_name (ordered : c.Ordered B) (h : c.current.kind = .name) : Piece B c c.advance [] :=
  piece_advance ordered (by rw [h]; rfl)

theorem name_of_atKeyword {keyword : String} (h : c.atKeyword keyword = true) :
    c.current.kind = .name := by
  simp only [Cursor.atKeyword, Lexeme.isKeyword, Bool.and_eq_true, decide_eq_true_eq] at h
  exact h.1

theorem piece_keyword {keyword : String} (ordered : c.Ordered B)
    (h : c.atKeyword keyword = true) : Piece B c c.advance [] :=
  piece_name ordered (name_of_atKeyword h)

/-! A piece goes on with a lexeme, or with what a rule reads. -/

section Reading

variable {α : Type} {p : Parser α} {nodes : α → List Node} {a : α}

theorem Stretch.advance (stretch : Stretch B c c₁ ns) : Stretch B c c₁.advance ns := by
  simpa using stretch.append (stretch_advance stretch.ordered')

theorem Stretch.readMany (stretch : Stretch B c c₁ ns) (hp : Stretches B p nodes)
    (run : p c₁ = .ok (a, c₂)) : Stretch B c c₂ (ns ++ nodes a) :=
  stretch.append (hp stretch.ordered' run)

theorem Stretch.read (stretch : Stretch B c c₁ ns) (hp : Pieces B p nodes)
    (run : p c₁ = .ok (a, c₂)) : Piece B c c₂ (ns ++ nodes a) :=
  stretch.append_piece (hp stretch.ordered' run)

theorem Stretch.readOne {p : Parser Node} {n : Node} (stretch : Stretch B c c₁ ns)
    (hp : Pieces B p ([·])) (run : p c₁ = .ok (n, c₂)) : Piece B c c₂ (ns ++ [n]) :=
  stretch.append_piece (hp stretch.ordered' run)

theorem Piece.advance (piece : Piece B c c₁ ns) : Piece B c c₁.advance ns := by
  simpa using piece.append (stretch_advance piece.ordered')

theorem Piece.readMany (piece : Piece B c c₁ ns) (hp : Stretches B p nodes)
    (run : p c₁ = .ok (a, c₂)) : Piece B c c₂ (ns ++ nodes a) :=
  piece.append (hp piece.ordered' run)

theorem Piece.read (piece : Piece B c c₁ ns) (hp : Pieces B p nodes)
    (run : p c₁ = .ok (a, c₂)) : Piece B c c₂ (ns ++ nodes a) :=
  piece.readMany hp.stretches run

end Reading

/-- The nodes of a piece become the children of one node; the fields of a kind need not be in the
order in which they are read. -/
theorem Piece.close_perm (piece : Piece B c c₁ ns) (kind : Kind Node)
    (hchildren : kind.children.Perm ns) (order : kind.InTextOrder) :
    Piece B c c₁ [⟨kind, some ⟨c.start, max c₁.lastEnd c.start⟩⟩] := by
  have hnested : Node.Nested B ⟨kind, some ⟨c.start, c₁.lastEnd⟩⟩ := by
    refine .spanned piece.room piece.ordered.start_mem piece.ordered'.lastEnd ?_ ?_ ?_ order
    · exact fun n hn => piece.chain.nested n (hchildren.mem_iff.1 hn)
    · exact fun n hn => piece.chain.within n (hchildren.mem_iff.1 hn)
    · exact (hchildren.pairwise_iff Node.Apart.symm).2 (piece.chain.pairwise.imp Node.Before.apart)
  rw [max_eq_left piece.room.le]
  refine ⟨⟨piece.ordered, piece.ordered', piece.lastEnd_le, piece.start_le, ?_⟩, piece.room⟩
  exact ⟨by simpa using hnested, by simp, List.pairwise_singleton _ _⟩

theorem Piece.close (piece : Piece B c c₁ ns) (kind : Kind Node) (hchildren : kind.children = ns) :
    Piece B c c₁ [⟨kind, some ⟨c.start, max c₁.lastEnd c.start⟩⟩] := by
  refine piece.close_perm kind (.of_eq hchildren) (Kind.inTextOrder_of_pairwise ?_)
  rw [hchildren]
  exact piece.chain.pairwise

/-- What is read later comes after. -/
theorem Piece.before (piece : Piece B c c₁ (ns ++ as)) {n a : Node} (hn : n ∈ ns) (ha : a ∈ as) :
    n.Before a :=
  (List.pairwise_append.1 piece.chain.pairwise).2.2 n hn a ha

end Stretches

end Grammar

end TriviaTree
