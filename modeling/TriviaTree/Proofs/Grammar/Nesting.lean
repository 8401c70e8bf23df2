import Mathlib
import TriviaTree.Proofs.Grammar.Statements
import TriviaTree.Proofs.Grammar.Stretch
import TriviaTree.Proofs.Token.Order

/-!
The spans of a tree that has been read with full retention lie inside each other as its nodes do.

What the grammar reads as an expression or a statement is a piece of the text, and the nodes that it is
made of lie in it in order (`stretches`, `statementStretches`). So the tree of a whole text is nested, for
every class of places that holds the ends of its lexemes (`nested_of_parseModule`).
-/

set_option autoImplicit false

namespace TriviaTree

variable {source : String} {tokens : List Token}

namespace Grammar

variable {B : Bounds} {c c' : Cursor} {ns : List Node}

/-! ### Expressions -/

theorem sublist_flatMap_pair (pairs : List (Node × Node)) :
    (pairs.map (·.1)).Sublist (pairs.flatMap fun pair => [pair.1, pair.2]) ∧
      (pairs.map (·.2)).Sublist (pairs.flatMap fun pair => [pair.1, pair.2]) := by
  induction pairs with
  | nil => exact ⟨.slnil, .slnil⟩
  | cons pair pairs ih => exact ⟨.cons_cons _ (.cons _ ih.1), .cons _ (.cons_cons _ ih.2)⟩

/-- What is read in order is in order, field by field. -/
theorem Production.inTextOrder {role : Role} {kind : Kind Node} {rs : List Read}
    (production : Production role kind rs) (h : (Read.nodes rs).Pairwise Node.Before) :
    kind.InTextOrder := by
  cases production with
  | tuple hlisted | list hlisted | set _ hlisted | indices _ hlisted | row _ hlisted =>
      simpa [Kind.InTextOrder, hlisted.nodes] using h
  | @dict pairs _ hlisted =>
      have hpairs : (pairs.flatMap fun pair => [pair.1, pair.2]).Pairwise Node.Before := by
        simpa [hlisted.nodes, pairReads] using h
      exact ⟨hpairs.sublist (sublist_flatMap_pair pairs).1, hpairs.sublist (sublist_flatMap_pair pairs).2⟩
  | @call func arguments _ hlisted =>
      have harguments : (func :: arguments.map (·.2)).Pairwise Node.Before := by
        simpa [hlisted.nodes, argumentReads, ← List.map_eq_flatMap] using h
      exact ⟨harguments.sublist (.cons_cons _ (List.filter_sublist.map _)),
        harguments.sublist (.cons_cons _ (List.filter_sublist.map _))⟩
  | _ => trivial

variable (B) in
/-- What is read is a stretch with the nodes in it, and takes up room. -/
def stretches : Account .full where
  Reads c rs c' := c.Ordered B → Stretch B c c' (Read.nodes rs) ∧ (rs ≠ [] → c.start < c'.lastEnd)
  nil c ordered := ⟨.refl ordered, by simp⟩
  append {c c₁ c₂ rs rs'} first second ordered := by
    obtain ⟨stretch, room⟩ := first ordered
    obtain ⟨stretch', room'⟩ := second stretch.ordered'
    refine ⟨by simpa using stretch.append stretch', fun hne => ?_⟩
    by_cases hrs : rs = []
    · exact stretch.start_le.trans_lt (room' (by simpa [hrs] using hne))
    · exact (room hrs).trans_le stretch'.lastEnd_le
  word hkind ordered := ⟨stretch_advance ordered, fun _ => (piece_advance ordered hkind).room⟩
  node read production hspan ordered := by
    obtain ⟨stretch, room⟩ := read ordered
    obtain rfl := hspan.resolve_right (by simp)
    have piece : Piece B _ _ _ := ⟨stretch, room production.ne_nil⟩
    have whole := piece.close_perm _ production.children_perm
      (production.inTextOrder stretch.chain.pairwise)
    exact ⟨whole.toStretch, fun _ => whole.room⟩
  bracketed read ordered := (read ordered).imp id fun room _ => room (by simp)
  recast _ read ordered := (read ordered).imp id fun room _ => room (by simp)

theorem Accounts.pieces {p : Parser Node} {role : Role}
    (h : Accounts (stretches B) p fun n => [.node role n]) : Pieces B p ([·]) :=
  fun _ _ _ ordered run => ⟨(h run ordered).1, (h run ordered).2 (by simp)⟩

theorem pieces_anyTest : Pieces B (anyTest .full) ([·]) :=
  Accounts.pieces accounts_anyTest

theorem closeFull_ok {kind : Kind Node} {start : Location} {n : Node} :
    closeFull .full kind start c = .ok (n, c') ↔
      ⟨kind, some ⟨start, max c.lastEnd start⟩⟩ = n ∧ c' = c := by
  simp [closeFull]

theorem perm_middle_last {α : Type} (front back : List α) (a : α) :
    (front ++ a :: back).Perm (front ++ back ++ [a]) :=
  List.perm_middle.trans (List.perm_append_singleton a _).symm

theorem pairwise_concat {a : Node} (h : ns.Pairwise Node.Before) (hlast : ∀ n ∈ ns, n.Before a) :
    (ns ++ [a]).Pairwise Node.Before :=
  List.pairwise_append.2 ⟨h, List.pairwise_singleton _ _, by simpa using hlast⟩

/-! ### Parameters -/

/-- The parameters read so far, field by field. -/
def Parameters.nodes (ps : Parameters) : List Node :=
  ps.args ++ ps.vararg.toList ++ ps.kwonlyargs ++ ps.kwarg.toList

theorem pieces_parameter (allowDefault : Bool) : Pieces B (parameter .full allowDefault) ([·]) := by
  intro c a c' ordered run
  simp [parameter] at run
  obtain ⟨⟨hname, _⟩, ⟨_, default, hdefault, rfl⟩ | ⟨_, rfl, rfl⟩⟩ := run
  · exact ((piece_name ordered hname).advance.read pieces_anyTest hdefault).close _ rfl
  · exact (piece_name ordered hname).close _ rfl

/-- Fewer nodes of the same stretch. -/
theorem Stretch.sublist {ns' : List Node} (stretch : Stretch B c c' ns) (hsub : ns'.Sublist ns) :
    Stretch B c c' ns' :=
  { stretch with
    chain :=
      { nested := fun n hn => stretch.chain.nested n (hsub.subset hn)
        within := fun n hn => stretch.chain.within n (hsub.subset hn)
        pairwise := stretch.chain.pairwise.sublist hsub } }

/-- All but some of the nodes of a stretch can be given up. -/
theorem Stretch.subperm {kept : List Node} (stretch : Stretch B c c' ns) (hkept : kept.Subperm ns) :
    ∃ ns', Stretch B c c' ns' ∧ kept.Perm ns' := by
  obtain ⟨ns', hperm, hsub⟩ := hkept
  exact ⟨ns', stretch.sublist hsub, hperm.symm⟩

variable (B) in
/-- The parameters that have been read, in the order `ns`. -/
structure ParametersRead (c₀ c : Cursor) (ps : Parameters) (ns : List Node) : Prop where
  stretch : Stretch B c₀ c ns
  perm : ps.nodes.Perm ns
  args_order : ps.args.Pairwise Node.Before
  kwonlyargs_order : ps.kwonlyargs.Pairwise Node.Before

/-- One more parameter is read. A second rest parameter takes the place of the first, so some of
the parameters read before may be given up. -/
theorem parametersRead_parameterItem {c₀ : Cursor} {ps ps' : Parameters}
    (before : ParametersRead B c₀ c ps ns) (run : parameterItem .full ps c = .ok (ps', c')) :
    c₀.start < c'.lastEnd ∧ ∃ ns', ParametersRead B c₀ c' ps' ns' := by
  have added : ∀ (front back : List Node) {a : Node}, (front ++ back).Sublist ps.nodes →
      ps'.nodes = front ++ a :: back → (∀ l, Stretch B c₀ c l → Piece B c₀ c' (l ++ [a])) →
      (∀ seq : List Node, seq.Sublist (front ++ back) → seq.Pairwise Node.Before →
        (seq ++ [a]).Pairwise Node.Before) ∧
      ∃ ns', Piece B c₀ c' ns' ∧ ps'.nodes.Perm ns' := by
    intro front back a hsub hnew read
    obtain ⟨l, stretch, hl⟩ := before.stretch.subperm (hsub.subperm.trans before.perm.subperm)
    have next := read l stretch
    refine ⟨fun seq hseq horder => pairwise_concat horder fun n hn => ?_, l ++ [a], next, ?_⟩
    · exact next.before (hl.mem_iff.1 (hseq.subset hn)) List.mem_cons_self
    · rw [hnew]
      exact (perm_middle_last front back a).trans (hl.append_right [a])
  have args := before.args_order
  have kwonlyargs := before.kwonlyargs_order
  simp [parameterItem] at run
  rcases run with ⟨_, a, ha, rfl⟩ | ⟨_, ⟨star, _, ⟨_, rfl, rfl⟩ | ⟨_, a, ha, rfl⟩⟩ |
    ⟨_, hlast, a, middle, ha, ⟨_, rfl, rfl⟩ | ⟨_, rfl, rfl⟩⟩⟩
  · obtain ⟨-, ns', next, hperm⟩ := added (ps.args ++ ps.vararg.toList ++ ps.kwonlyargs) []
      (by simp [Parameters.nodes]) (by simp [Parameters.nodes])
      fun l stretch => stretch.advance.readOne (pieces_parameter _) ha
    exact ⟨next.room, ns', next.toStretch, hperm, args, kwonlyargs⟩
  · have next := before.stretch.append_piece (piece_op before.stretch.ordered' star)
    rw [List.append_nil] at next
    exact ⟨next.room, ns, next.toStretch, before.perm, args, kwonlyargs⟩
  · obtain ⟨-, ns', next, hperm⟩ := added ps.args (ps.kwonlyargs ++ ps.kwarg.toList)
      (by simp [Parameters.nodes]) (by simp [Parameters.nodes])
      fun l stretch => stretch.advance.readOne (pieces_parameter _) ha
    exact ⟨next.room, ns', next.toStretch, hperm, args, kwonlyargs⟩
  · obtain ⟨append, ns', next, hperm⟩ := added (ps.args ++ ps.vararg.toList ++ ps.kwonlyargs) []
      (by simp [Parameters.nodes]) (by simp [Parameters.nodes, hlast])
      fun l stretch => stretch.readOne (pieces_parameter _) ha
    exact ⟨next.room, ns', next.toStretch, hperm, args, append _ (by simp) kwonlyargs⟩
  · obtain ⟨append, ns', next, hperm⟩ := added ps.args
      (ps.vararg.toList ++ ps.kwonlyargs ++ ps.kwarg.toList)
      (by simp [Parameters.nodes]) (by simp [Parameters.nodes])
      fun l stretch => stretch.readOne (pieces_parameter _) ha
    exact ⟨next.room, ns', next.toStretch, hperm, append _ (by simp) args, kwonlyargs⟩

theorem parametersRead_parameterItems (n : Nat) : ∀ {c₀ c c' : Cursor} {ps ps' : Parameters}
    {ns : List Node}, c₀.start < c.lastEnd → ParametersRead B c₀ c ps ns →
    parameterItems .full n ps c = .ok (ps', c') →
    c₀.start < c'.lastEnd ∧ ∃ ns', ParametersRead B c₀ c' ps' ns' := by
  induction n with
  | zero =>
      intro c₀ c c' ps ps' ns room read run
      simp only [parameterItems, pure_ok] at run
      obtain ⟨rfl, rfl⟩ := run
      exact ⟨room, ns, read⟩
  | succ n ih =>
      intro c₀ c c' ps ps' ns room read run
      simp [parameterItems] at run
      rcases run with ⟨_, rfl, rfl⟩ | ⟨_, ps₁, middle, hitem, run⟩
      · exact ⟨room, ns, read⟩
      · obtain ⟨room₁, ns₁, read₁⟩ := parametersRead_parameterItem read hitem
        rcases run with ⟨_, rfl, rfl⟩ | ⟨_, rest⟩
        · exact ⟨room₁, ns₁, read₁⟩
        · have later := (Piece.mk read₁.stretch room₁).advance
          exact ih later.room { read₁ with stretch := later.toStretch } rest

/-- A list of parameters that is empty has no place. -/
theorem stretches_parameters : Stretches B (parameters .full) ([·]) := by
  intro c n c' ordered run
  simp [parameters, closeFull_ok] at run
  obtain ⟨ps, middle, hitems, _, ⟨closed, rfl, rfl⟩ | ⟨opened, rfl, rfl⟩⟩ := run
  · simp [Cursor.remaining, parameterItems, closed] at hitems
    obtain ⟨rfl, rfl⟩ := hitems
    have bare : Node.Nested B ⟨.arguments [] none [] none, none⟩ := .bare (.inr rfl)
    exact { Stretch.refl ordered with
      chain := ⟨List.forall_mem_singleton.2 bare, by simp, List.pairwise_singleton _ _⟩ }
  · simp [Cursor.remaining, parameterItems, opened] at hitems
    obtain ⟨ps₁, after, hitem, rest⟩ := hitems
    obtain ⟨room₁, ns₁, read₁⟩ := parametersRead_parameterItem
      ⟨.refl ordered, .refl _, .nil, .nil⟩ hitem
    obtain ⟨room, ns, read⟩ : c.start < c'.lastEnd ∧ ∃ ns, ParametersRead B c c' ps ns := by
      rcases rest with ⟨_, rfl, rfl⟩ | ⟨_, rest⟩
      · exact ⟨room₁, ns₁, read₁⟩
      · have later := (Piece.mk read₁.stretch room₁).advance
        exact parametersRead_parameterItems _ later.room { read₁ with stretch := later.toStretch } rest
    have hchildren : (Kind.arguments ps.args ps.vararg ps.kwonlyargs ps.kwarg).children = ps.nodes := by
      simp [Kind.children, Kind.contents, Parameters.nodes]
    have whole := (Piece.mk read.stretch room).close_perm _ (.trans (.of_eq hchildren) read.perm)
      ⟨read.args_order, read.kwonlyargs_order⟩
    exact whole.toStretch

/-! ### Statements -/

variable (B) in
/-- What is read is a stretch with the nodes of statements in it. Statements have a place. -/
def statementStretches : StatementAccount .full where
  expressions := stretches B
  Reads c ps c' := c.Ordered B → Stretch B c c' (ps.flatMap Portion.nodes) ∧
    ((∃ p ∈ ps, p.isSolid = true) → c.start < c'.lastEnd) ∧ ∀ n, .statement n ∈ ps → ∃ s, n.span = some s
  nil c ordered := ⟨.refl ordered, by simp, by simp⟩
  append {c c₁ c₂ ps ps'} first second ordered := by
    obtain ⟨stretch, room, placed⟩ := first ordered
    obtain ⟨stretch', room', placed'⟩ := second stretch.ordered'
    refine ⟨by simpa using stretch.append stretch', ?_, fun n hn => ?_⟩
    · rintro ⟨p, hp, solid⟩
      rcases List.mem_append.1 hp with hp | hp
      · exact (room ⟨p, hp, solid⟩).trans_le stretch'.lastEnd_le
      · exact stretch.start_le.trans_lt (room' ⟨p, hp, solid⟩)
    · exact (List.mem_append.1 hn).elim (placed n) (placed' n)
  skip _ ordered := ⟨stretch_advance ordered, by simp, by simp⟩
  word {c} h ordered := by
    have hlayout : ∀ w ∈ statementWords, w.1.isLayout = false := by decide
    exact ⟨stretch_advance ordered, fun _ => (piece_advance ordered (hlayout _ h)).room, by simp⟩
  expression read ordered :=
    (read ordered).imp id fun room => ⟨fun _ => room (by simp), by simp⟩
  signature word _ _ run _ ordered := by
    have whole := ((piece_keyword ordered word).advance.advance.readMany stretches_parameters run).advance
    exact ⟨whole.toStretch, fun _ => whole.room, by simp⟩
  statement read sentence ordered := by
    obtain ⟨stretch, room, -⟩ := read ordered
    have whole := (Piece.mk stretch (room sentence.solid)).close _ sentence.children
    exact ⟨whole.toStretch, fun _ => whole.room, by simp⟩
  block read _ ordered := by
    obtain ⟨stretch, -, -⟩ := read ordered
    exact ⟨by simpa [Portion.nodes] using stretch, by simp [Portion.isSolid], by simp⟩

/-- A module spans its statements, from the first to the last. -/
theorem nested_module {n : Node} (ordered : c.Ordered B) (run : module .full c = .ok (n, c')) :
    n.Nested B := by
  obtain ⟨body, rfl, read⟩ := tells_module (A := statementStretches B) run
  obtain ⟨stretch, -, placed⟩ := read ordered
  rw [Portion.nodes_map_statement] at stretch
  have lines := stretch.chain
  cases body with
  | nil => exact .bare (.inl rfl)
  | cons first rest =>
      obtain ⟨init, last, hlast⟩ := List.eq_nil_or_concat (first :: rest) |>.resolve_left (by simp)
      rw [List.concat_eq_append] at hlast
      have hmem : last ∈ first :: rest := by simp [hlast]
      obtain ⟨s, hs⟩ := placed first (List.mem_map_of_mem List.mem_cons_self)
      obtain ⟨t, ht⟩ := placed last (List.mem_map_of_mem hmem)
      have hstart := fun n hn u hu => lines.start_le hs (n := n) hn (t := u) hu
      have hstop := fun n hn u hu => (hlast ▸ lines).le_stop ht (n := n) (hlast ▸ hn) (t := u) hu
      have hspan : moduleSpan .full (first :: rest) = some ⟨s.start, t.stop⟩ := by
        have hgetLast : (first :: rest).getLast? = some last := by simp [hlast]
        simp [moduleSpan, hgetLast, hs, ht, Span.cover, hstart last hmem t ht,
          hstop first List.mem_cons_self s hs]
      rw [hspan]
      have hfirst := (lines.nested first List.mem_cons_self).of_span hs
      have hfinal := (lines.nested last hmem).of_span ht
      refine .spanned ((hstart last hmem t ht).trans_lt hfinal.1) hfirst.2.1 hfinal.2.2 ?_ ?_ ?_
        lines.pairwise
      · simpa [Kind.children, Kind.contents] using lines.nested
      · intro n hn u hu
        have hn : n ∈ first :: rest := by simpa [Kind.children, Kind.contents] using hn
        exact ⟨hstart n hn u hu, hstop n hn u hu⟩
      · simpa [Kind.children, Kind.contents] using lines.pairwise.imp Node.Before.apart

/-- The lexemes of a text stand one after the other from its origin on. -/
theorem ordered_ofLexemes (htokens : tokenize source = .ok tokens) (horigin : B.stop .origin)
    (hends : ∀ t ∈ tokens, t.kind ≠ .comment → B.start (t.locate (.ofText source)).span.start ∧
      (t.kind.isLayout = false → B.stop (t.locate (.ofText source)).span.stop)) :
    (Cursor.ofLexemes ((tokens.filter (·.kind ≠ .comment)).map
      (Token.locate (.ofText source)))).Ordered B := by
  obtain ⟨hall, hlast⟩ := inOrder_of_tokenize htokens
  have horder := hall.sublist (List.filter_sublist (p := (·.kind ≠ .comment)))
  obtain ⟨final, hfinal, hkind⟩ := Option.map_eq_some_iff.1 hlast
  obtain ⟨init, rfl⟩ := List.getLast?_eq_some_iff.1 hfinal
  have hkept : (init ++ [final]).filter (·.kind ≠ .comment) =
      init.filter (·.kind ≠ .comment) ++ [final] := by
    simp [hkind]
  generalize hlexemes : ((init ++ [final]).filter (·.kind ≠ .comment)).map
    (Token.locate (.ofText source)) = lexemes
  have hmem : ∀ l ∈ lexemes, ∃ t ∈ (init ++ [final]).filter (·.kind ≠ .comment),
      t.locate (.ofText source) = l := by
    intro l hl
    rwa [← hlexemes, List.mem_map] at hl
  have hmono : ∀ {a b : Nat}, a ≤ b → b ≤ (LineIndex.ofText source).size →
      (LineIndex.ofText source).location a ≤ (LineIndex.ofText source).location b :=
    fun hab hb => LineIndex.location_mono _ hab hb
  cases lexemes with
  | nil =>
      rw [hkept] at hlexemes
      simp at hlexemes
  | cons first rest =>
      refine ⟨horigin, ?_, ?_, ?_, ?_, ?_⟩
      · intro l hl
        obtain ⟨t, _, rfl⟩ := hmem l hl
        exact LineIndex.origin_le_location source _
      · intro l hl
        obtain ⟨t, ht, rfl⟩ := hmem l hl
        have hwithin := horder.within t ht
        refine ⟨hmono hwithin.2.1 hwithin.2.2, hends t (List.mem_of_mem_filter ht) ?_⟩
        simpa using (List.mem_filter.1 ht).2
      · intro l hl hlayout
        obtain ⟨t, ht, rfl⟩ := hmem l hl
        have hroom := (horder.room t ht).resolve_left (by simpa [Token.locate] using hlayout)
        exact LineIndex.location_strictMono _ hroom (horder.within t ht).2.2
      · show (first :: rest).Pairwise _
        rw [← hlexemes, List.pairwise_map]
        refine horder.pairwise.imp_of_mem fun {a b} _ hb hab => ?_
        have hwithin := horder.within b hb
        exact hmono hab (hwithin.2.1.trans hwithin.2.2)
      · intro l hl
        have hl : (first :: rest).getLast? = some l := hl
        rw [← hlexemes, hkept] at hl
        obtain rfl : final.locate (.ofText source) = l := by simpa using hl
        simp [Token.locate, hkind, TokenKind.isLayout]

end Grammar

open Grammar

/-- The tree of a text nests. Its spans begin where lexemes begin, and end where lexemes end that are no
layout. -/
theorem nested_within_bounds {B : Bounds} {tree : Node} (htokens : tokenize source = .ok tokens)
    (horigin : B.stop .origin)
    (hends : ∀ t ∈ tokens, t.kind ≠ .comment → B.start (t.locate (.ofText source)).span.start ∧
      (t.kind.isLayout = false → B.stop (t.locate (.ofText source)).span.stop))
    (h : parseModule source .full = .ok tree) : tree.Nested B := by
  obtain ⟨_, htokens', c', hrun⟩ := parseModule_ok.1 h
  cases htokens.symm.trans htokens'
  exact nested_module (ordered_ofLexemes htokens horigin hends) hrun

theorem nested_of_parseModule {places : Location → Prop} {tree : Node}
    (htokens : tokenize source = .ok tokens) (horigin : places .origin)
    (hends : ∀ t ∈ tokens, t.kind ≠ .comment → places (t.locate (.ofText source)).span.start ∧
      places (t.locate (.ofText source)).span.stop) (h : parseModule source .full = .ok tree) :
    tree.Nested (.both places) :=
  nested_within_bounds htokens horigin
    (fun t ht hkind => (hends t ht hkind).imp_right fun hstop _ => hstop) h

end TriviaTree
