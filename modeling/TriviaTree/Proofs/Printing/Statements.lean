import Mathlib
import TriviaTree.Proofs.Grammar.Identifiers
import TriviaTree.Proofs.Grammar.Sentences
import TriviaTree.Proofs.Printing.Blocks
import TriviaTree.Proofs.Printing.Expressions

/-!
Printed statements are read again.

The words of a statement are those of its header, its block and what follows the block
(`wording_orelse`): nothing, an `elif`, or an `else` with its own block. Trivia have no words. So
each statement is read from its words as the same code (`readsAgain`), and a printed module is
parsed as the module that stripping leaves (`parseModule_source`).
-/

set_option autoImplicit false

namespace TriviaTree

open Piece Grammar Node

variable {keep : Retention} {detail : Detail} {n test : Node} {body orelse : List Node}
  {span : Option Span} {level : Nat}

/-! ### Values -/

theorem ReadsAs.anyTest (h : ReadsAs keep detail n) :
    Reads (anyTest keep) (words (n.pieces detail .test)) (Stops .test) n.SameCode :=
  .withExpressions fun _ hk => h.self .test (Nat.le_refl _) hk

/-- The value of a statement. -/
theorem reads_value (h : Dressed .item n) :
    Reads (anyList keep) (words (n.pieces detail .tuple)) EndsValue n.SameCode := by
  rw [pieces_tuple]
  refine .withExpressions fun k hk => reads_commaList ?_
  rcases readsPart keep detail h with hn | ⟨value, span, rfl, hvalue⟩
  · exact reads_starredOrTest (hn.self .test (Nat.le_refl _) hk) (hn.begins _)
  · have hself := hvalue.self .bitwise (p := .bitOr) (Nat.le_refl _) (Nat.lt_of_succ_lt hk)
    exact .ifTrue (sees_op fun _ _ => rfl) ((reads_starred hself fun _ _ ha =>
      sameCode_starred ha).mono fun _ hw => hw.mono (by decide))

theorem begins_value (h : Dressed .item n) :
    First BeginsValue (words (n.pieces detail .tuple)) := by
  rw [pieces_tuple]
  rcases readsPart .full detail h with hn | ⟨value, span, rfl, hvalue⟩
  · exact (hn.begins _).imp fun _ hw => .inl hw
  · exact .cons (.inr rfl)

theorem reads_target (h : Dressed .item n) (hstrong : ¬ n.strength < .bitOr) :
    Reads (targetList keep) (words (n.pieces detail .tuple))
      (fun w => Stops .bitOr w ∧ w ≠ (.op, ",")) n.SameCode := by
  refine .withExpressions fun k hk => reads_commaList ?_
  rcases readsPart keep detail h with hn | ⟨value, span, rfl, hvalue⟩
  · rw [← pieces_of_strength hstrong] at hk ⊢
    refine .ifFalse (sees_notOp fun w _ => ?_) (hn.self .bitwise (Nat.le_refl _) hk)
    have htest : ((words (n.pieces detail .bitOr)).headD w).Begins .test :=
      ((hn.begins _).headD w).mono (by decide)
    exact ne_op_of_begins htest (by decide)
  · have hself := hvalue.self .bitwise (p := .bitOr) (Nat.le_refl _) (Nat.lt_of_succ_lt hk)
    exact .ifTrue (sees_op fun _ _ => rfl) (reads_starred hself fun _ _ ha => sameCode_starred ha)

/-! ### Parameters -/

theorem readsParameter {defaults : Bool} (h : DressedParameter defaults n) :
    ReadsParameter keep defaults (words (n.pieces detail .test)) n.SameCode := by
  cases h with
  | @arg name default span hname hdefault =>
      have hwords : words (Node.pieces detail ⟨.arg name default, span⟩ .test) =
          (.name, name) :: default.elim [] fun x => (.op, "=") :: words (x.pieces detail .test) := by
        cases default <;> simp [Node.pieces, piecesOption]
      rw [hwords]
      refine ⟨reads_parameter hname.free
        (fun d hd => (readsPart keep detail (hdefault d hd).2).anyTest)
        (fun d hd => (hdefault d hd).1) fun d span' hd => ?_, .cons rfl⟩
      refine sameCode_mk rfl rfl ?_
      show Kind.arg _ _ = Kind.arg _ _
      rw [map_eraseSpans_option hd]
      rfl

theorem isEmpty_code (ns : List Node) : (code ns).isEmpty = !ns.any (!·.isTrivia) := by
  induction ns with
  | nil => rfl
  | cons n ns ih => cases htrivia : n.isTrivia <;> simp [code, htrivia] at ih ⊢; exact ih

/-- The words of parameters, one by one. -/
theorem solids_parameters (detail : Detail) (args kwonlyargs : List Node) (vararg kwarg : Option Node) :
    (Chunk.solids (parameterChunks detail args vararg kwonlyargs kwarg)).map (words ·.pieces) =
      parameterWords (fun n => words (n.pieces detail .test)) (code args) vararg (code kwonlyargs)
        kwarg := by
  have hentries : ∀ ns : List Node, ((Chunk.solids (chunksAll detail ns)).map (words ·.pieces)) =
      (code ns).map fun n => words (n.pieces detail .test) := fun ns => by
    rw [Chunk.solids_chunksAll, List.map_map]
    rfl
  have happend : ∀ cs ds : List Chunk, (Chunk.solids (cs ++ ds)).map (words ·.pieces) =
      (Chunk.solids cs).map (words ·.pieces) ++ (Chunk.solids ds).map (words ·.pieces) := fun cs ds => by
    rw [Chunk.solids, List.filter_append, List.map_append, ← Chunk.solids, ← Chunk.solids]
  rw [parameterChunks.eq_def]
  simp only [happend, hentries, parameterWords, List.append_assoc]
  refine congrArg₂ (· ++ ·) rfl (congrArg₂ (· ++ ·) ?_ (congrArg₂ (· ++ ·) rfl ?_))
  · cases vararg with
    | some a => rfl
    | none => cases hany : kwonlyargs.any (!·.isTrivia) <;> simp [starItem, isEmpty_code, hany, Chunk.solids]
  · cases kwarg <;> rfl

theorem reads_printedParameters (h : DressedParameters n) :
    Reads (parameters keep) (words (n.parameterPieces detail)) (Closer ")") n.SameCode := by
  cases h with
  | @arguments args kwonlyargs vararg kwarg span hargs hvararg hkwonlyargs hkwarg hremarks =>
      have hfit : ∀ c ∈ parameterChunks detail args vararg kwonlyargs kwarg, c.Fit := fit_parameters
      obtain ⟨trailing, hwords⟩ := words_shown detail hfit
      rw [solids_parameters] at hwords
      rw [Node.parameterPieces, hwords]
      refine reads_parameters (fun x hx => readsParameter (hargs x hx))
        (fun x hx => readsParameter (hvararg x hx)) (fun x hx => readsParameter (hkwonlyargs x hx))
        (fun x hx => readsParameter (hkwarg x hx)) trailing ?_
      intro as v ks kw span' has hv hks hkw
      refine sameCode_mk rfl rfl ?_
      show Kind.arguments _ _ _ _ = Kind.arguments _ _ _ _
      rw [map_eraseSpans_code has, map_eraseSpans_option hv, map_eraseSpans_code hks,
        map_eraseSpans_option hkw]
      rfl

/-! ### The words of blocks -/

/-- Trivia have no words. -/
theorem wording_code (detail : Detail) (ns : List Node) (level : Nat) (elif : Bool) :
    ns.flatMap (·.wording detail level elif) = (code ns).flatMap (·.wording detail level elif) := by
  induction ns with
  | nil => rfl
  | cons n ns ih =>
      cases htrivia : n.isTrivia with
      | true =>
          obtain ⟨-, -, -, hwording⟩ := laid_trivia detail htrivia 0 level elif []
          rw [List.flatMap_cons, hwording, List.nil_append, ih, code, code,
            List.filter_cons_of_neg (by simp [htrivia])]
      | false =>
          rw [List.flatMap_cons, ih, code, code, List.filter_cons_of_pos (by simp [htrivia]),
            List.flatMap_cons]

/-- The words of what follows the block of a condition or a loop. -/
def orelseWording (detail : Detail) (conditions : Bool) (body orelse : List Node) (level : Nat) :
    List Word :=
  layOrelse .wording (orelseShape detail conditions body orelse) (orelse.any (!·.isTrivia))
    (layAll .wording detail orelse) level

/-- The statements that are left after the comments before an `else`. -/
theorem code_drop_hoisted (detail : Detail) (body orelse : List Node) :
    code (orelse.drop (hoisted detail (renderAll detail body) (renderAll detail orelse))) =
      code orelse := by
  have htake : code (orelse.take (hoisted detail (renderAll detail body) (renderAll detail orelse))) =
      [] := List.filter_eq_nil_iff.2 fun n hn => by simp [isTrivia_of_mem_hoisted n hn]
  conv_rhs => rw [← List.take_append_drop
    (hoisted detail (renderAll detail body) (renderAll detail orelse)) orelse]
  rw [code, code, List.filter_append, ← code, ← code, htake, List.nil_append]

/-- What is printed as an `elif` is a condition that is alone in its place. -/
theorem code_of_elif {ns : List Node} (h : (elifOf? detail (renderAll detail ns)).isSome = true) :
    ∃ test body orelse span, code ns = [⟨.ifStmt test body orelse, span⟩] := by
  have hone : ∃ n, code ns = [n] ∧ Child.isIf ⟨n, render detail n⟩ = true := by
    cases detail with
    | code =>
        have hsolid : solid (renderAll .code ns) = (code ns).map fun n => ⟨n, render .code n⟩ := by
          rw [renderAll_eq, solid, List.filter_map]
          rfl
        simp only [elifOf?, hsolid] at h
        split at h
        · next c hsingle =>
          obtain ⟨n, hn, rfl⟩ := List.map_eq_singleton_iff.1 hsingle
          exact ⟨n, hn, by by_contra hnot; simp [hnot] at h⟩
        · cases h
    | trivia =>
        simp only [elifOf?, renderAll_eq] at h
        split at h
        · next c hsingle =>
          obtain ⟨n, rfl, rfl⟩ := List.map_eq_singleton_iff.1 hsingle
          have hif : Child.isIf ⟨n, render .trivia n⟩ = true := by by_contra hnot; simp [hnot] at h
          refine ⟨n, ?_, hif⟩
          obtain ⟨kind, span⟩ := n
          cases kind <;> first | rfl | cases hif
        · cases h
  obtain ⟨⟨kind, span⟩, hcode, hif⟩ := hone
  cases kind <;> first | exact ⟨_, _, _, _, hcode⟩ | cases hif

/-- Nothing follows a block, or an `elif`, or an `else` with a block of its own. -/
theorem wording_orelse (detail : Detail) (conditions : Bool) (body orelse : List Node) (level : Nat) :
    (code orelse = [] ∧ orelseWording detail conditions body orelse level = []) ∨
    (conditions = true ∧ ∃ test body' orelse' span,
      code orelse = [⟨.ifStmt test body' orelse', span⟩] ∧
      orelseWording detail conditions body orelse level =
        Node.wording detail ⟨.ifStmt test body' orelse', span⟩ level true) ∨
    (orelseWording detail conditions body orelse level = (.name, "else") :: (.op, ":") ::
      indented ((code orelse).flatMap (·.wording detail (level + 1) false))) := by
  have hdrop := code_drop_hoisted detail body orelse
  have htake : ∀ elif, (orelse.take (orelseShape detail conditions body orelse).1).flatMap
      (·.wording detail level elif) = [] := fun elif =>
    List.flatMap_eq_nil_iff.2 fun n hn =>
      (laid_trivia detail (isTrivia_of_mem_hoisted n hn) 0 level elif []).2.2.2
  have hwords : orelseWording detail conditions body orelse level =
      if (orelseShape detail conditions body orelse).2 then
        (code orelse).flatMap (·.wording detail level true)
      else if orelse.any (!·.isTrivia) then (.name, "else") :: (.op, ":") ::
        indented ((code orelse).flatMap (·.wording detail (level + 1) false))
      else [] := by
    have hlay : ∀ (ns : List Node) (level : Nat) (elif : Bool),
        (ns.map (·.lay .wording detail)).flatMap (· level elif) =
          ns.flatMap (·.wording detail level elif) := fun ns level elif => List.flatMap_map ..
    have hrest : ∀ level elif, (orelse.drop (orelseShape detail conditions body orelse).1).flatMap
        (·.wording detail level elif) = (code orelse).flatMap (·.wording detail level elif) :=
      fun level elif => by rw [wording_code, orelseShape, hdrop]
    rw [orelseWording, layOrelse, layAll_eq, ← List.map_take, ← List.map_drop]
    simp only [hlay, htake, hrest, List.nil_append]
    split
    · rfl
    · split
      · rfl
      · next hsolid =>
        have hnil : code orelse = [] := by
          rw [← List.isEmpty_iff, isEmpty_code]
          simpa using hsolid
        rw [hnil]
        rfl
  rw [hwords]
  split
  · next hshape =>
    have hrender : ∀ count, (renderAll detail orelse).drop count =
        renderAll detail (orelse.drop count) := fun count => by
      rw [renderAll_eq, renderAll_eq, List.map_drop]
    rw [orelseShape, Bool.and_eq_true, hrender] at hshape
    obtain ⟨test, body', orelse', span, hcode⟩ := code_of_elif hshape.2
    rw [hdrop] at hcode
    refine .inr (.inl ⟨hshape.1, test, body', orelse', span, hcode, ?_⟩)
    rw [hcode]
    simp
  · split
    · exact .inr (.inr rfl)
    · next hsolid =>
      refine .inl ⟨?_, rfl⟩
      rw [← List.isEmpty_iff, isEmpty_code]
      simpa using hsolid

/-! ### Statements -/

/-- A statement is read again from its words: by itself, and, if it is a condition, as a branch of
another one. -/
structure ReadsAgain (keep : Retention) (detail : Detail) (n : Node) : Prop where
  alone : ∀ k level, (n.wording detail level false).length ≤ k →
    ReadsStatement (statement keep k) (n.wording detail level false) n.SameCode
  branch : ∀ test body orelse, n.kind = .ifStmt test body orelse → ∀ k fuel level elif,
    (n.wording detail level elif).length ≤ k + 1 → (n.wording detail level elif).length < fuel →
      Reads (ifStatement keep (statement keep k) fuel) (n.wording detail level elif) EndsStatement
        n.SameCode

/-- The statements of a block have fuel to be read. -/
theorem ReadsAgain.all {ns : List Node} (h : ∀ s ∈ code ns, ReadsAgain keep detail s) {k : Nat}
    (hk : ((code ns).flatMap (·.wording detail level false)).length ≤ k) :
    ∀ s ∈ code ns, ReadsStatement (statement keep k) (s.wording detail level false) s.SameCode :=
  fun s hs => (h s hs).alone k level ((length_le_flatMap hs).trans hk)

theorem readsAgain_simple (hwording : ∀ level, n.wording detail level false =
      words (n.header detail false) ++ [(.newline, "\n")])
    (hkind : ∀ test body orelse, n.kind ≠ .ifStmt test body orelse)
    (h : Reads (smallStatement keep) (words (n.header detail false)) EndsLine n.SameCode)
    (hbegins : First BeginsSimple (words (n.header detail false))) : ReadsAgain keep detail n := by
  refine ⟨fun k level hk => ?_, fun test body orelse hif => absurd hif (hkind test body orelse)⟩
  rw [hwording, List.length_append, List.length_singleton] at hk
  obtain ⟨k, rfl⟩ := exists_fuel hk
  rw [hwording]
  exact readsStatement_simple h hbegins

/-- What follows a block, when it is no `elif`. -/
theorem reads_orelse {ws : List Word} {k : Nat} (h : ∀ s ∈ code orelse, ReadsAgain keep detail s)
    (hws : (code orelse = [] ∧ ws = []) ∨ ∃ level, ws = (.name, "else") :: (.op, ":") ::
      indented ((code orelse).flatMap (·.wording detail level false))) (hk : ws.length ≤ k) :
    Reads (elseBlock keep (statement keep k)) ws EndsStatement
        (List.Forall₂ SameCode (code orelse)) ∧
      ∀ w, EndsStatement w → ws.headD w ≠ (.name, "elif") := by
  rcases hws with ⟨hnil, rfl⟩ | ⟨level, rfl⟩
  · rw [hnil]
    exact ⟨reads_elseBlock_none.imp fun _ has => List.forall₂_nil_left_iff.2 has, fun _ hw => hw.1⟩
  · simp only [indented, List.length_cons, List.length_append] at hk
    exact ⟨reads_elseBlock (ReadsAgain.all h (by omega)), fun _ _ => by simp⟩

/-- The words of a statement with a block and what follows it. -/
theorem wording_compound {conditions : Bool} {elif : Bool}
    (hlay : n.lay .wording detail level elif = Layout.wording.line level (n.header detail elif) ++
      Layout.wording.block ((layAll .wording detail body).flatMap (· (level + 1) false)) ++
      orelseWording detail conditions body orelse level) :
    n.wording detail level elif = words (n.header detail elif) ++
      (indented ((code body).flatMap (·.wording detail (level + 1) false)) ++
        orelseWording detail conditions body orelse level) := by
  rw [Node.wording, hlay, layAll_wording, wording_code]
  simp [Layout.wording, indented]

theorem wording_if (test : Node) (body orelse : List Node) (span : Option Span) (level : Nat)
    (elif : Bool) : Node.wording detail ⟨.ifStmt test body orelse, span⟩ level elif =
      (.name, if elif then "elif" else "if") :: (words (test.pieces detail .test) ++ (.op, ":") ::
        (indented ((code body).flatMap (·.wording detail (level + 1) false)) ++
          orelseWording detail true body orelse level)) := by
  have hcompound : Node.wording detail ⟨.ifStmt test body orelse, span⟩ level elif = _ :=
    wording_compound rfl
  rw [hcompound]
  simp [Node.header]

theorem sameCode_if {a : Node} {as bs : List Node} {span' : Option Span} (ha : test.SameCode a)
    (has : List.Forall₂ SameCode (code body) as) (hbs : List.Forall₂ SameCode (code orelse) bs) :
    SameCode ⟨.ifStmt test body orelse, span⟩ ⟨.ifStmt a as bs, span'⟩ := by
  refine sameCode_mk rfl rfl ?_
  show Kind.ifStmt _ _ _ = Kind.ifStmt _ _ _
  rw [map_eraseSpans_code has, map_eraseSpans_code hbs, ha]
  rfl

/-- What follows the block of a loop. -/
theorem reads_orelse_loop {k : Nat} (h : ∀ s ∈ code orelse, ReadsAgain keep detail s)
    (hk : (orelseWording detail false body orelse level).length ≤ k) :
    Reads (elseBlock keep (statement keep k)) (orelseWording detail false body orelse level)
      EndsStatement (List.Forall₂ SameCode (code orelse)) := by
  rcases wording_orelse detail false body orelse level with hnone | ⟨hfalse, _⟩ | hwords
  · exact (reads_orelse h (.inl hnone) hk).1
  · cases hfalse
  · exact (reads_orelse h (.inr ⟨_, hwords⟩) hk).1

section Compound

variable (hbody : ∀ s ∈ code body, ReadsAgain keep detail s)
  (horelse : ∀ s ∈ code orelse, ReadsAgain keep detail s)
include hbody horelse

theorem reads_printedIf (htest : Dressed .whole test) {k fuel : Nat} {elif : Bool}
    (hk : (Node.wording detail ⟨.ifStmt test body orelse, span⟩ level elif).length ≤ k + 1)
    (hfuel : (Node.wording detail ⟨.ifStmt test body orelse, span⟩ level elif).length < fuel) :
    Reads (ifStatement keep (statement keep k) fuel)
      (Node.wording detail ⟨.ifStmt test body orelse, span⟩ level elif) EndsStatement
      (SameCode ⟨.ifStmt test body orelse, span⟩) := by
  have hread := (readsPart keep detail htest).anyTest
  rw [wording_if] at hk hfuel ⊢
  simp only [List.length_cons, List.length_append, indented] at hk hfuel
  obtain ⟨fuel, rfl⟩ := exists_fuel hfuel
  have hstatements : ∀ s ∈ code body, ReadsStatement (statement keep k)
      (s.wording detail (level + 1) false) s.SameCode := ReadsAgain.all hbody (by omega)
  have helse := fun hws => reads_orelse horelse hws
    (show (orelseWording detail true body orelse level).length ≤ k by omega)
  rcases wording_orelse detail true body orelse level with
    hnone | ⟨-, test', body', orelse', span', hcode, helif⟩ | hwords
  · obtain ⟨helse, hfirst⟩ := helse (.inl hnone)
    exact reads_ifStatement hstatements hread helse hfirst
      fun a as bs span' ha has hbs => sameCode_if ha has hbs
  · have hmem : ⟨.ifStmt test' body' orelse', span'⟩ ∈ code orelse := hcode ▸ List.mem_singleton_self _
    have hnested := (horelse _ hmem).branch test' body' orelse' rfl k fuel level true
    rw [← helif] at hnested
    have hnested := hnested (by omega) (by omega)
    rw [wording_if] at helif
    rw [helif] at hnested ⊢
    refine reads_elif hstatements hread hnested fun a as b span' ha has hb => sameCode_if ha has ?_
    rw [hcode]
    exact .cons hb .nil
  · obtain ⟨helse, hfirst⟩ := helse (.inr ⟨_, hwords⟩)
    exact reads_ifStatement hstatements hread helse hfirst
      fun a as bs span' ha has hbs => sameCode_if ha has hbs

theorem readsAgain_if (htest : Dressed .whole test) :
    ReadsAgain keep detail ⟨.ifStmt test body orelse, span⟩ := by
  refine ⟨fun k level hk => ?_, fun _ _ _ _ k fuel level elif hk hfuel =>
    reads_printedIf hbody horelse htest hk hfuel⟩
  have hpos : 0 < k := by
    rw [wording_if, List.length_cons] at hk
    omega
  obtain ⟨k, rfl⟩ := exists_fuel hpos
  have hread : ∀ fuel, (Node.wording detail ⟨.ifStmt test body orelse, span⟩ level false).length < fuel →
      Reads (ifStatement keep (statement keep k) fuel)
        (Node.wording detail ⟨.ifStmt test body orelse, span⟩ level false) EndsStatement
        (SameCode ⟨.ifStmt test body orelse, span⟩) := fun fuel hfuel =>
    reads_printedIf hbody horelse htest hk hfuel
  rw [wording_if] at hread ⊢
  exact readsStatement_if hread

theorem readsAgain_while (htest : Dressed .whole test) :
    ReadsAgain keep detail ⟨.whileLoop test body orelse, span⟩ := by
  refine ⟨fun k level hk => ?_, by rintro _ _ _ ⟨⟩⟩
  have hwording : Node.wording detail ⟨.whileLoop test body orelse, span⟩ level false =
      (.name, "while") :: (words (test.pieces detail .test) ++ (.op, ":") ::
        (indented ((code body).flatMap (·.wording detail (level + 1) false)) ++
          orelseWording detail false body orelse level)) := by
    have hcompound : Node.wording detail ⟨.whileLoop test body orelse, span⟩ level false = _ :=
      wording_compound rfl
    rw [hcompound]
    simp [Node.header]
  rw [hwording] at hk ⊢
  simp only [List.length_cons, List.length_append, indented] at hk
  obtain ⟨k, rfl⟩ := exists_fuel hk
  refine readsStatement_while (reads_whileStatement (ReadsAgain.all hbody (by omega))
    (readsPart keep detail htest).anyTest (reads_orelse_loop horelse (by omega)) ?_)
  intro a as bs span' ha has hbs
  refine sameCode_mk rfl rfl ?_
  show Kind.whileLoop _ _ _ = Kind.whileLoop _ _ _
  rw [map_eraseSpans_code has, map_eraseSpans_code hbs, ha]
  rfl

theorem readsAgain_for {target iter : Node} (htarget : Dressed .item target)
    (hstrong : ¬ target.strength < .bitOr) (hiter : Dressed .item iter) :
    ReadsAgain keep detail ⟨.forLoop target iter body orelse, span⟩ := by
  refine ⟨fun k level hk => ?_, by rintro _ _ _ ⟨⟩⟩
  have hwording : Node.wording detail ⟨.forLoop target iter body orelse, span⟩ level false =
      (.name, "for") :: (words (target.pieces detail .tuple) ++ (.name, "in") ::
        (words (iter.pieces detail .tuple) ++ (.op, ":") ::
          (indented ((code body).flatMap (·.wording detail (level + 1) false)) ++
            orelseWording detail false body orelse level))) := by
    have hcompound : Node.wording detail ⟨.forLoop target iter body orelse, span⟩ level false = _ :=
      wording_compound rfl
    rw [hcompound]
    simp [Node.header]
  rw [hwording] at hk ⊢
  simp only [List.length_cons, List.length_append, indented] at hk
  obtain ⟨k, rfl⟩ := exists_fuel hk
  refine readsStatement_for (reads_forStatement (ReadsAgain.all hbody (by omega))
    (reads_target htarget hstrong) (reads_value hiter) (reads_orelse_loop horelse (by omega)) ?_)
  intro t a as bs span' ht ha has hbs
  refine sameCode_mk rfl rfl ?_
  show Kind.forLoop _ _ _ _ = Kind.forLoop _ _ _ _
  rw [map_eraseSpans_code has, map_eraseSpans_code hbs, ht, ha]
  rfl

end Compound

theorem readsAgain_def {name : String} {args : Node} (hname : IsIdentifier name)
    (hargs : DressedParameters args) (hbody : ∀ s ∈ code body, ReadsAgain keep detail s) :
    ReadsAgain keep detail ⟨.functionDef name args body, span⟩ := by
  refine ⟨fun k level hk => ?_, by rintro _ _ _ ⟨⟩⟩
  have hwording : Node.wording detail ⟨.functionDef name args body, span⟩ level false =
      (.name, "def") :: (.name, name) :: (.op, "(") :: (words (args.parameterPieces detail) ++
        (.op, ")") :: (.op, ":") ::
          indented ((code body).flatMap (·.wording detail (level + 1) false))) := by
    rw [Node.wording, Node.lay, layAll_wording, wording_code]
    simp [Layout.wording, indented, Node.header]
  rw [hwording] at hk ⊢
  simp only [List.length_cons, List.length_append, indented] at hk
  obtain ⟨k, rfl⟩ := exists_fuel hk
  refine readsStatement_def (reads_functionDef (ReadsAgain.all hbody (by omega)) hname.free
    (reads_printedParameters hargs) ?_)
  intro a as span' ha has
  refine sameCode_mk rfl rfl ?_
  show Kind.functionDef _ _ _ = Kind.functionDef _ _ _
  rw [map_eraseSpans_code has, ha]
  rfl

theorem readsAgain_return {value : Option Node} (hvalue : ∀ v ∈ value, Dressed .item v) :
    ReadsAgain keep detail ⟨.returnStmt value, span⟩ := by
  refine readsAgain_simple (fun _ => rfl) (by simp) ?_ ?_
  · cases value with
    | none => exact reads_return_none fun span' => sameCode_mk rfl rfl rfl
    | some v =>
        have hv := hvalue v rfl
        exact reads_return_some (reads_value hv) (begins_value hv) fun a span' ha =>
          sameCode_mk rfl rfl (congrArg (Kind.returnStmt ∘ some) ha)
  · cases value <;> exact .cons (.inr ⟨"return", by decide, rfl⟩)

theorem readsAgain_exprStmt {value : Node} (hvalue : Dressed .item value) :
    ReadsAgain keep detail ⟨.exprStmt value, span⟩ := by
  refine readsAgain_simple (fun _ => rfl) (by simp) ?_ ((begins_value hvalue).imp fun _ hw => .inl hw)
  have hread : Reads (smallStatement keep) (words (value.pieces detail .tuple) ++
      ([] : List Node).flatMap fun x => (.op, "=") :: words (x.pieces detail .tuple)) EndsLine
      (SameCode ⟨.exprStmt value, span⟩) := by
    refine reads_assigned (reads_value hvalue) (begins_value hvalue) (fun x hx => ?_)
      (fun _ a span' ha => sameCode_mk rfl rfl (congrArg Kind.exprStmt ha))
      fun a as b span' _ (has : List.Forall₂ SameCode [] (as ++ [b])) => ?_
    · cases hx
    · exact absurd (List.forall₂_nil_left_iff.1 has) (by simp)
  rw [List.flatMap_nil, List.append_nil] at hread
  exact hread

theorem readsAgain_augAssign {target value : Node} {op : BinaryOp} (htarget : Dressed .item target)
    (hvalue : Dressed .item value) : ReadsAgain keep detail ⟨.augAssign target op value, span⟩ := by
  have hwords : words (Node.header detail ⟨.augAssign target op value, span⟩ false) =
      words (target.pieces detail .tuple) ++ (.op, op.symbol ++ "=") ::
        words (value.pieces detail .tuple) := by
    simp [Node.header]
  refine readsAgain_simple (fun _ => rfl) (by simp) ?_ ?_ <;> rw [hwords]
  · exact reads_augAssign (reads_value htarget) (begins_value htarget) (reads_value hvalue)
      fun a b span' ha hb => sameCode_mk rfl rfl (congrArg₂ (Kind.augAssign · op ·) ha hb)
  · exact ((begins_value htarget).imp fun _ hw => .inl hw).append _

/-- The words of targets, each before an equals sign, and of a value. -/
theorem flatMap_equals (words : Node → List Word) (target value : Node) (targets : List Node) :
    ((target :: targets).flatMap fun t => words t ++ [(.op, "=")]) ++ words value =
      words target ++ (targets ++ [value]).flatMap fun x => (.op, "=") :: words x := by
  induction targets generalizing target with
  | nil => simp
  | cons next targets ih =>
      rw [List.flatMap_cons, List.append_assoc, ih]
      simp

theorem readsAgain_assign {targets : List Node} {value : Node} (hne : targets ≠ [])
    (htargets : ∀ t ∈ targets, Dressed .item t) (hvalue : Dressed .item value) :
    ReadsAgain keep detail ⟨.assign targets value, span⟩ := by
  obtain ⟨target, targets, rfl⟩ := List.exists_cons_of_ne_nil hne
  have hfirst := htargets target List.mem_cons_self
  have hwords : words (Node.header detail ⟨.assign (target :: targets) value, span⟩ false) =
      words (target.pieces detail .tuple) ++ (targets ++ [value]).flatMap fun x =>
        (.op, "=") :: words (x.pieces detail .tuple) := by
    rw [← flatMap_equals (fun x => words (x.pieces detail .tuple)), Node.header, words_append, words,
      List.filterMap_flatMap]
    congr 2
    funext t
    rw [← words, words_append]
    rfl
  refine readsAgain_simple (fun _ => rfl) (by simp) ?_ ?_ <;> rw [hwords]
  · refine reads_assigned (reads_value hfirst) (begins_value hfirst) (fun x hx => ?_) (by simp)
      fun a as b span' ha (has : List.Forall₂ SameCode (targets ++ [value]) (as ++ [b])) => ?_
    · rcases List.mem_append.1 hx with hx | hx
      · exact reads_value (htargets x (List.mem_cons_of_mem _ hx))
      · rw [List.mem_singleton.1 hx]
        exact reads_value hvalue
    · have hreverse := List.forall₂_reverse_iff.2 has
      simp only [List.reverse_append, List.reverse_singleton, List.singleton_append,
        List.forall₂_cons, List.forall₂_reverse_iff] at hreverse
      have hall : List.Forall₂ SameCode (code (target :: targets)) (a :: as) := by
        rw [code_eq_self fun t ht => (htargets t ht).isTrivia]
        exact .cons ha hreverse.2
      refine sameCode_mk rfl rfl ?_
      show Kind.assign _ _ = Kind.assign _ _
      rw [map_eraseSpans_code hall, hreverse.1]
      rfl
  · exact ((begins_value hfirst).imp fun _ hw => .inl hw).append _

theorem readsAgain_word {keyword : String} {kind : Kind Node} (h : (keyword, kind) ∈
      [("pass", Kind.pass), ("break", .breakStmt), ("continue", .continueStmt)]) :
    ReadsAgain keep detail ⟨kind, span⟩ := by
  have hread : Reads (smallStatement keep) [(.name, keyword)] EndsLine (SameCode ⟨kind, span⟩) := by
    refine reads_wordStatement h fun span' => ?_
    simp only [List.mem_cons, Prod.mk.injEq, List.not_mem_nil, or_false] at h
    rcases h with ⟨rfl, rfl⟩ | ⟨rfl, rfl⟩ | ⟨rfl, rfl⟩ <;> exact sameCode_mk rfl rfl rfl
  simp only [List.mem_cons, Prod.mk.injEq, List.not_mem_nil, or_false] at h
  rcases h with ⟨rfl, rfl⟩ | ⟨rfl, rfl⟩ | ⟨rfl, rfl⟩ <;>
    exact readsAgain_simple (fun _ => rfl) (by simp) hread (.cons (.inr ⟨_, by decide, rfl⟩))

/-- Every statement is read again from its words. -/
theorem readsAgain (keep : Retention) (detail : Detail) {n : Node} (h : DressedStatement n) :
    ReadsAgain keep detail n := by
  induction h with
  | functionDef hname hargs _ _ _ ih => exact readsAgain_def hname hargs ih
  | returnStmt hvalue => exact readsAgain_return hvalue
  | assign hne htargets hvalue => exact readsAgain_assign hne htargets hvalue
  | augAssign htarget hvalue => exact readsAgain_augAssign htarget hvalue
  | forLoop htarget hstrong hiter _ _ _ _ ihbody ihorelse =>
      exact readsAgain_for ihbody ihorelse htarget hstrong hiter
  | whileLoop htest _ _ _ _ ihbody ihorelse => exact readsAgain_while ihbody ihorelse htest
  | ifStmt htest _ _ _ _ ihbody ihorelse => exact readsAgain_if ihbody ihorelse htest
  | exprStmt hvalue => exact readsAgain_exprStmt hvalue
  | pass => exact readsAgain_word (.head _)
  | breakStmt => exact readsAgain_word (.tail _ (.head _))
  | continueStmt => exact readsAgain_word (.tail _ (.tail _ (.head _)))

/-! ### Modules -/

/-- A printed module is parsed as what stripping leaves of it. -/
theorem parseModule_source (keep : Retention) (detail : Detail) {n : Node} (h : DressedModule n)
    {options : PageOptions} (hsize : 1 ≤ options.indentSize) :
    ∃ a, parseModule (n.source detail options) keep = .ok a ∧ n.SameCode a := by
  cases h with
  | @module body span hbody hremarks =>
      obtain ⟨tokens, htokenize, hwords⟩ := codeWords_source hbody hremarks detail span hsize
      rw [wording_code] at hwords
      have hread : Reads (module keep) ((code body).flatMap (·.wording detail 0 false))
          (· = (.endMarker, "")) (SameCode ⟨.module body, span⟩) := by
        refine reads_module (fun k hk => ReadsAgain.all (fun s hs => readsAgain keep detail (hbody s hs))
          hk.le) fun as span' has => ?_
        exact sameCode_mk rfl rfl (congrArg Kind.module (map_eraseSpans_code has))
      obtain ⟨hcursor, -⟩ := ended_of_tokenize htokenize (.ofText _) rfl
      obtain ⟨a, c', hrun, ha, -⟩ := hread _ _ [] (hcursor.trans hwords) rfl
      exact ⟨a, parseModule_ok.2 ⟨tokens, htokenize, c', hrun⟩, ha⟩

end TriviaTree
