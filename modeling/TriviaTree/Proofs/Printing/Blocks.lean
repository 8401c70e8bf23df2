import Mathlib
import TriviaTree.Proofs.Printing.Scanning

/-!
The words of a printed module.

What the grammar reads of lines is their `codeLayout`. Statements are laid out one after the other,
each as its own words (`laid_statement`): a block one level deeper opens before its first line of
code and is closed before the next line of code that is no deeper, and lines of comments make no
difference. So a printed module is scanned as the words of its statements (`codeWords_source`).
-/

set_option autoImplicit false

namespace TriviaTree

open Piece

variable {rest rows : List Row} {level : Nat} {orelse : List Node} {ps : List Piece}

/-! ### What the grammar reads -/

/-- The words of lines from a level on, without the comments. -/
def codeLayout : Nat → List Row → List Word
  | level, [] => List.replicate level (.dedent, "") ++ [(.endMarker, "")]
  | level, .code next ps :: rows =>
      blockWords level next ++ words ps ++ (.newline, "\n") :: codeLayout next rows
  | level, _ :: rows => codeLayout level rows

theorem filter_found (h : ∀ p ∈ ps, p.Spelled) :
    (ps.flatMap found).filter (·.1 ≠ .comment) = words ps := by
  induction ps with
  | nil => rfl
  | cons p ps ih =>
      have ih := ih (List.forall_mem_cons.1 h).2
      have hp := h p List.mem_cons_self
      rw [List.flatMap_cons, List.filter_append, ih]
      cases p with
      | word kind text => simp [found, hp.1]
      | space => rfl
      | remark endOfLine text => rfl

theorem filter_trailWords (trail : List Char) :
    (trailWords trail).filter (·.1 ≠ .comment) = [] := by
  unfold trailWords
  split <;> rfl

theorem filter_lineEnd (pending : Bool) :
    (lineEnd pending).filter (·.1 ≠ .comment) = lineEnd pending := by
  cases pending <;> rfl

theorem filter_replicate_dedent (count : Nat) :
    (List.replicate count ((.dedent, "") : Word)).filter (·.1 ≠ .comment) =
      List.replicate count (.dedent, "") := by
  simp

theorem filter_blockWords (level next : Nat) :
    (blockWords level next).filter (·.1 ≠ .comment) = blockWords level next := by
  unfold blockWords
  split
  · rfl
  · exact filter_replicate_dedent _

/-- Without the comments, the layout is what the grammar reads. -/
theorem filter_layout (options : PageOptions) (h : ∀ row ∈ rows, row.IsNeat) (level : Nat)
    (pending : Bool) (trail : List Char) :
    (layout options level pending trail rows).filter (·.1 ≠ .comment) =
      lineEnd pending ++ codeLayout level rows := by
  induction rows generalizing level pending trail with
  | nil =>
      simp only [layout, List.filter_append, filter_trailWords, filter_lineEnd,
        filter_replicate_dedent, codeLayout, List.nil_append, List.append_assoc]
      rfl
  | cons row rows ih =>
      have ih := ih (List.forall_mem_cons.1 h).2
      have hrow := h row List.mem_cons_self
      cases row with
      | tail text => exact ih level pending _
      | comment next text =>
          simp only [layout, List.filter_append, filter_trailWords, filter_lineEnd, ih, codeLayout,
            List.nil_append]
          rfl
      | code next ps =>
          simp only [layout, List.filter_append, filter_trailWords, filter_lineEnd,
            filter_blockWords, filter_found hrow.1.spelled, ih, codeLayout, List.nil_append,
            List.append_assoc]
          rfl

/-! ### Statement after statement -/

/-- The next line of code is at most as deep as a level. -/
def Low : Nat → List Row → Prop
  | _, [] => True
  | level, .code next _ :: _ => next ≤ level
  | level, .comment _ _ :: rows => Low level rows
  | level, .tail _ :: rows => Low level rows

theorem Low.mono {level' : Nat} (h : Low level rows) (hle : level ≤ level') : Low level' rows := by
  induction rows with
  | nil => trivial
  | cons row rows ih =>
      cases row with
      | code next ps => exact le_trans h hle
      | comment next text => exact ih h
      | tail text => exact ih h

/-- A line of code that is no deeper closes the block. -/
theorem codeLayout_succ (h : Low level rows) :
    codeLayout (level + 1) rows = (.dedent, "") :: codeLayout level rows := by
  induction rows with
  | nil => rfl
  | cons row rows ih =>
      cases row with
      | comment next text => exact ih h
      | tail text => exact ih h
      | code next ps =>
          have hle : next ≤ level := h
          obtain ⟨closed, rfl⟩ : ∃ closed, level = next + closed := ⟨level - next, by omega⟩
          have hmore : blockWords (next + closed + 1) next =
              (.dedent, "") :: blockWords (next + closed) next := by
            rw [blockWords, if_neg (by omega), blockWords, if_neg (by omega),
              show next + closed + 1 - next = closed + 1 by omega,
              show next + closed - next = closed by omega, List.replicate_succ]
          simp [codeLayout, hmore]

theorem Nested.mono {level' : Nat} (h : Nested level rows) (hle : level ≤ level') :
    Nested level' rows := by
  induction rows with
  | nil => trivial
  | cons row rows ih =>
      cases row with
      | code next ps => exact ⟨h.1.trans (by omega), h.2⟩
      | comment next text => exact ih h
      | tail text => exact ih h

/-- Lines that follow a level: none is too deep, and the next line of code is not deeper. -/
structure Continues (level : Nat) (rows : List Row) : Prop where
  nested : Nested level rows
  low : Low level rows

/-- The statement is laid out as its words, before any lines that are not deeper. -/
def LaidOut (detail : Detail) (n : Node) : Prop :=
  ∀ k level elif rest, level ≤ k + 1 → Continues level rest →
    Nested k (n.rows detail level elif ++ rest) ∧
      codeLayout k (n.rows detail level elif ++ rest) =
        blockWords k level ++ n.wording detail level elif ++ codeLayout level rest

@[simp] theorem blockWords_self (level : Nat) : blockWords level level = [] := by
  simp [blockWords]

/-- Comments make no difference to what the grammar reads. -/
theorem laid_trivia (detail : Detail) {n : Node} (htrivia : n.isTrivia = true) (k level : Nat)
    (elif : Bool) (rest : List Row) :
    (Nested k (n.rows detail level elif ++ rest) ↔ Nested k rest) ∧
      (Low k (n.rows detail level elif ++ rest) ↔ Low k rest) ∧
      codeLayout k (n.rows detail level elif ++ rest) = codeLayout k rest ∧
      n.wording detail level elif = [] := by
  obtain ⟨kind, span⟩ := n
  cases kind <;> cases htrivia <;> cases detail
  case comment.refl.trivia c =>
    rw [Node.rows, Node.wording, Node.lay, Node.lay]
    cases c.endOfLine <;> exact ⟨Iff.rfl, Iff.rfl, rfl, rfl⟩
  all_goals exact ⟨Iff.rfl, Iff.rfl, rfl, rfl⟩

/-- The first line of a statement is a line of code at its level. -/
theorem rows_of_statement {n : Node} (h : DressedStatement n) (detail : Detail) (level : Nat)
    (elif : Bool) : ∃ more, n.rows detail level elif = .code level (n.header detail elif) :: more := by
  cases h <;> exact ⟨_, rfl⟩

/-- Statements one after the other, with comments among them. -/
theorem laid_all {detail : Detail} {ns : List Node}
    (hcode : ∀ n ∈ Node.code ns, LaidOut detail n ∧ DressedStatement n) (elif : Bool)
    (hrest : Continues level rest) :
    Continues level (ns.flatMap (·.rows detail level elif) ++ rest) ∧
      codeLayout level (ns.flatMap (·.rows detail level elif) ++ rest) =
        ns.flatMap (·.wording detail level elif) ++ codeLayout level rest := by
  induction ns with
  | nil => exact ⟨hrest, rfl⟩
  | cons n ns ih =>
      have hlater := ih fun m hm => hcode m (by
        rw [Node.mem_code] at hm ⊢
        exact ⟨List.mem_cons_of_mem _ hm.1, hm.2⟩)
      simp only [List.flatMap_cons, List.append_assoc]
      cases htrivia : n.isTrivia with
      | true =>
          obtain ⟨hnested, hlow, hlayout, hwording⟩ := laid_trivia detail htrivia level
            level elif (ns.flatMap (·.rows detail level elif) ++ rest)
          rw [hlayout, hwording]
          exact ⟨⟨hnested.2 hlater.1.nested, hlow.2 hlater.1.low⟩, hlater.2⟩
      | false =>
          obtain ⟨hlaid, hn⟩ := hcode n (Node.mem_code.2 ⟨List.mem_cons_self, htrivia⟩)
          obtain ⟨hnested, hlayout⟩ := hlaid level level elif _ (Nat.le_succ _) hlater.1
          obtain ⟨more, hmore⟩ := rows_of_statement hn detail level elif
          refine ⟨⟨hnested, ?_⟩, ?_⟩
          · rw [hmore]
            exact Nat.le_refl level
          · rw [hlayout, hlater.2, blockWords_self, List.nil_append]

/-- A block one level deeper. -/
theorem laid_block {detail : Detail} {ns : List Node}
    (hcode : ∀ n ∈ Node.code ns, LaidOut detail n ∧ DressedStatement n) (hne : Node.code ns ≠ [])
    (hrest : Continues level rest) :
    Nested level (ns.flatMap (·.rows detail (level + 1) false) ++ rest) ∧
      codeLayout level (ns.flatMap (·.rows detail (level + 1) false) ++ rest) =
        (.indent, "") :: ns.flatMap (·.wording detail (level + 1) false) ++
          (.dedent, "") :: codeLayout level rest := by
  have hdeeper : Continues (level + 1) rest :=
    ⟨hrest.nested.mono (Nat.le_succ _), hrest.low.mono (Nat.le_succ _)⟩
  induction ns with
  | nil => exact absurd rfl hne
  | cons n ns ih =>
      have hlater : ∀ m ∈ Node.code ns, LaidOut detail m ∧ DressedStatement m := fun m hm =>
        hcode m (by
          rw [Node.mem_code] at hm ⊢
          exact ⟨List.mem_cons_of_mem _ hm.1, hm.2⟩)
      simp only [List.flatMap_cons, List.append_assoc]
      cases htrivia : n.isTrivia with
      | true =>
          obtain ⟨hnested, -, hlayout, hwording⟩ := laid_trivia detail htrivia level
            (level + 1) false (ns.flatMap (·.rows detail (level + 1) false) ++ rest)
          obtain ⟨hnestedLater, hlayoutLater⟩ := ih hlater (by simpa [Node.code, htrivia] using hne)
          rw [hlayout, hwording, hlayoutLater]
          exact ⟨hnested.2 hnestedLater, rfl⟩
      | false =>
          obtain ⟨hlaid, -⟩ := hcode n (Node.mem_code.2 ⟨List.mem_cons_self, htrivia⟩)
          obtain ⟨hcontinues, hlayoutLater⟩ := laid_all hlater false hdeeper
          obtain ⟨hnested, hlayout⟩ := hlaid level (level + 1) false _ le_rfl hcontinues
          refine ⟨hnested, ?_⟩
          rw [hlayout, hlayoutLater, codeLayout_succ hrest.low, blockWords, if_pos rfl]
          simp

/-- What follows the block of a condition or a loop. -/
theorem laid_orelse {detail : Detail} (shape : Nat × Bool) (solid : Bool)
    (hcode : ∀ n ∈ Node.code orelse, LaidOut detail n ∧ DressedStatement n)
    (hsolid : shape.2 = false → solid = true → Node.code (orelse.drop shape.1) ≠ [])
    (hrest : Continues level rest) :
    Continues level (layOrelse .rows shape solid (layAll .rows detail orelse) level ++ rest) ∧
      codeLayout level (layOrelse .rows shape solid (layAll .rows detail orelse) level ++ rest) =
        layOrelse .wording shape solid (layAll .wording detail orelse) level ++
          codeLayout level rest := by
  have hpart : ∀ ns : List Node, (∀ n ∈ ns, n ∈ orelse) →
      ∀ n ∈ Node.code ns, LaidOut detail n ∧ DressedStatement n := fun ns hns n hn =>
    hcode n (Node.mem_code.2 ⟨hns n (Node.mem_code.1 hn).1, (Node.mem_code.1 hn).2⟩)
  have htake := hpart (orelse.take shape.1) fun n hn => List.mem_of_mem_take hn
  have hdrop := hpart (orelse.drop shape.1) fun n hn => List.mem_of_mem_drop hn
  have hlay : ∀ {β : Type} (on : Layout β) (ns : List Node) (level : Nat) (elif : Bool),
      (ns.map (·.lay on detail)).flatMap (· level elif) = ns.flatMap (·.lay on detail level elif) :=
    fun on ns level elif => List.flatMap_map ..
  simp only [layOrelse, layAll_eq, ← List.map_take, ← List.map_drop, hlay]
  have hrows : ∀ n level elif, Node.lay .rows detail n level elif = n.rows detail level elif :=
    fun _ _ _ => rfl
  have hwording : ∀ n level elif, Node.lay .wording detail n level elif = n.wording detail level elif :=
    fun _ _ _ => rfl
  simp only [hrows, hwording, List.append_assoc]
  split
  · have hback := laid_all hdrop true hrest
    have hfront := laid_all htake false hback.1
    exact ⟨hfront.1, by rw [hfront.2, hback.2]⟩
  · next hshape =>
    split
    · next hany =>
      obtain ⟨hnested, hblock⟩ := laid_block hdrop (hsolid (by simpa using hshape) hany) hrest
      have hback : Continues level (.code level [term "else", sign ":"] ::
          ((orelse.drop shape.1).flatMap (·.rows detail (level + 1) false) ++ rest)) :=
        ⟨⟨Nat.le_succ _, hnested⟩, le_refl level⟩
      have hfront := laid_all htake false hback
      refine ⟨hfront.1, hfront.2.trans ?_⟩
      rw [codeLayout, hblock]
      simp [Layout.wording]
    · have hback := laid_all hdrop false hrest
      have hfront := laid_all htake false hback.1
      exact ⟨hfront.1, by rw [hfront.2, hback.2]⟩

/-- What is left after the comments before an `else` has all the statements. -/
theorem code_drop_orelse {detail : Detail} {conditions : Bool} {body : List Node}
    (h : orelse.any (!·.isTrivia) = true) :
    Node.code (orelse.drop (orelseShape detail conditions body orelse).1) ≠ [] := by
  obtain ⟨n, hn, hcode⟩ := List.any_eq_true.1 h
  rw [← List.take_append_drop (orelseShape detail conditions body orelse).1 orelse,
    List.mem_append] at hn
  rcases hn with hn | hn
  · rw [isTrivia_of_mem_hoisted n hn] at hcode
    cases hcode
  · exact List.ne_nil_of_mem (Node.mem_code.2 ⟨hn, by simpa using hcode⟩)

/-- A block and what follows it. -/
theorem laid_blocks {detail : Detail} {body : List Node} (conditions : Bool)
    (hbody : ∀ n ∈ Node.code body, LaidOut detail n ∧ DressedStatement n)
    (hne : Node.code body ≠ [])
    (horelse : ∀ n ∈ Node.code orelse, LaidOut detail n ∧ DressedStatement n)
    (hrest : Continues level rest) : let shape := orelseShape detail conditions body orelse
    let solid := orelse.any (!·.isTrivia)
    let rows := (layAll .rows detail body).flatMap (· (level + 1) false) ++
      layOrelse .rows shape solid (layAll .rows detail orelse) level ++ rest
    Nested level rows ∧ codeLayout level rows =
      (.indent, "") :: (layAll .wording detail body).flatMap (· (level + 1) false) ++
        [(.dedent, "")] ++ layOrelse .wording shape solid (layAll .wording detail orelse) level ++
          codeLayout level rest := by
  intro shape solid rows
  obtain ⟨hcontinues, hlayout⟩ := laid_orelse shape solid horelse
    (fun _ hany => code_drop_orelse hany) hrest
  obtain ⟨hnested, hblock⟩ := laid_block hbody hne hcontinues
  have hrows : rows = body.flatMap (·.rows detail (level + 1) false) ++
      (layOrelse .rows shape solid (layAll .rows detail orelse) level ++ rest) := by
    simp only [rows, layAll_rows, List.append_assoc]
  rw [hrows, hblock, hlayout, layAll_wording]
  exact ⟨hnested, by simp⟩

/-- A statement is laid out as its words. -/
theorem laid_statement (detail : Detail) {n : Node} (h : DressedStatement n) :
    LaidOut detail n := by
  have hsimple : ∀ {n : Node}, (∀ {β : Type} (on : Layout β) level elif,
      n.lay on detail level elif = on.line level (n.header detail elif)) → LaidOut detail n := by
    intro n hlay k level elif rest hlevel hrest
    rw [Node.rows, Node.wording, hlay, hlay]
    refine ⟨⟨hlevel, hrest.nested⟩, ?_⟩
    simp [Layout.rows, Layout.wording, codeLayout]
  have hcompound : ∀ {n : Node} {body orelse : List Node} (conditions : Bool),
      (∀ {β : Type} (on : Layout β) level elif, n.lay on detail level elif =
        on.line level (n.header detail elif) ++
          on.block ((layAll on detail body).flatMap (· (level + 1) false)) ++
          layOrelse on (orelseShape detail conditions body orelse) (orelse.any (!·.isTrivia))
            (layAll on detail orelse) level) →
      (∀ m ∈ Node.code body, LaidOut detail m ∧ DressedStatement m) → Node.code body ≠ [] →
      (∀ m ∈ Node.code orelse, LaidOut detail m ∧ DressedStatement m) → LaidOut detail n := by
    intro n body orelse conditions hlay hbody hne horelse k level elif rest hlevel hrest
    obtain ⟨hnested, hblocks⟩ := laid_blocks conditions hbody hne horelse hrest
    rw [Node.rows, Node.wording, hlay, hlay, List.append_assoc, List.append_assoc]
    rw [List.append_assoc] at hnested hblocks
    refine ⟨⟨hlevel, hnested⟩, ?_⟩
    simp only [Layout.rows, Layout.wording, List.singleton_append, codeLayout] at hblocks ⊢
    rw [hblocks]
    simp
  have hboth : ∀ {ns : List Node}, (∀ n ∈ Node.code ns, DressedStatement n) →
      (∀ n ∈ Node.code ns, LaidOut detail n) →
      ∀ n ∈ Node.code ns, LaidOut detail n ∧ DressedStatement n :=
    fun hns hlaid n hn => ⟨hlaid n hn, hns n hn⟩
  induction h with
  | functionDef _ _ hne hbody _ ih =>
      intro k level elif rest hlevel hrest
      obtain ⟨hnested, hblock⟩ := laid_block (hboth hbody ih) hne hrest
      rw [Node.rows, Node.wording, Node.lay, Node.lay, layAll_rows, layAll_wording]
      refine ⟨⟨hlevel, hnested⟩, ?_⟩
      simp only [Layout.rows, Layout.wording, List.cons_append, codeLayout]
      simp [hblock]
  | forLoop _ _ _ hne hbody horelse _ ihbody ihorelse =>
      exact hcompound false (fun _ _ _ => rfl) (hboth hbody ihbody) hne (hboth horelse ihorelse)
  | whileLoop _ hne hbody horelse _ ihbody ihorelse =>
      exact hcompound false (fun _ _ _ => rfl) (hboth hbody ihbody) hne (hboth horelse ihorelse)
  | ifStmt _ hne hbody horelse _ ihbody ihorelse =>
      exact hcompound true (fun _ _ _ => rfl) (hboth hbody ihbody) hne (hboth horelse ihorelse)
  | returnStmt | assign | augAssign | exprStmt | pass | breakStmt | continueStmt =>
      exact hsimple fun _ _ _ => rfl

/-! ### Modules -/

/-- The lines of a module. -/
def moduleRows (detail : Detail) (body : List Node) : List Row :=
  body.flatMap (·.rows detail 0 false)

/-- A line that is not indented, or no line of its own. -/
def Row.Flush : Row → Prop
  | .code level _ | .comment level _ => level = 0
  | .tail _ => True

/-- The first line of a statement is at its level. -/
theorem flush_rows (detail : Detail) (n : Node) (elif : Bool) :
    ∀ row ∈ (n.rows detail 0 elif).head?, row.Flush := by
  obtain ⟨kind, span⟩ := n
  intro row hrow
  have hline : ∀ {level : Nat} {ps : List Piece} {more : List Row}, level = 0 →
      row ∈ (Row.code level ps :: more).head? → row.Flush := by
    intro level ps more hlevel hmem
    obtain rfl : Row.code level ps = row := by simpa using hmem
    exact hlevel
  cases kind with
  | comment c =>
      cases detail with
      | code => cases hrow
      | trivia =>
          rw [Node.rows, Node.lay] at hrow
          cases hend : c.endOfLine with
          | true =>
              rw [hend] at hrow
              obtain rfl : Row.tail c.line = row := by simpa [Layout.rows] using hrow
              trivial
          | false =>
              rw [hend] at hrow
              obtain rfl : Row.comment 0 c.line = row := by simpa [Layout.rows] using hrow
              rfl
  | directive d =>
      cases detail with
      | code => cases hrow
      | trivia =>
          obtain rfl : Row.comment 0 (Node.remark ⟨.directive d, span⟩) = row := by
            simpa [Node.rows, Node.lay, Layout.rows] using hrow
          rfl
  | _ => exact hline rfl hrow

theorem flush_moduleRows (detail : Detail) (body : List Node) :
    ∀ row ∈ (moduleRows detail body).head?, row.Flush := by
  induction body with
  | nil => simp [moduleRows]
  | cons n body ih =>
      intro row hrow
      rw [moduleRows, List.flatMap_cons, List.head?_append] at hrow
      cases hhead : (n.rows detail 0 false).head? with
      | none =>
          rw [hhead] at hrow
          exact ih row hrow
      | some first =>
          rw [hhead] at hrow
          obtain rfl : first = row := by simpa using hrow
          exact flush_rows detail n false first hhead

theorem text_concat (options : PageOptions) (level : Nat) (fresh : Bool) (ps : List Piece)
    (p : Piece) : ∃ fresh', Piece.text options level fresh (ps ++ [p]) =
      Piece.text options level fresh ps ++ p.chars options level fresh' := by
  induction ps generalizing fresh with
  | nil => exact ⟨fresh, by simp [Piece.text]⟩
  | cons q ps ih =>
      obtain ⟨fresh', hfresh'⟩ := ih q.isRemark
      exact ⟨fresh', by simp [Piece.text, hfresh']⟩

/-- A line of code ends in a word. -/
theorem NeatLine.last_word (h : NeatLine ps) :
    ∃ front kind text, ps = front ++ [.word kind text] := by
  obtain ⟨front, p, rfl⟩ : ∃ front p, ps = front ++ [p] := by
    obtain ⟨front, p, hps⟩ := (List.eq_nil_or_concat ps).resolve_left h.2
    exact ⟨front, p, by simpa using hps⟩
  have hends := h.1.ends p (by simp) '#' (by decide)
  cases p with
  | space => exact absurd rfl hends
  | remark endOfLine text =>
      have hsheltered := h.1.sheltered 0 le_rfl
      have hbalanced := h.1.balanced 0
      rw [depthAfter_append] at hbalanced
      rw [sheltered_append] at hsheltered
      have hdepth : 0 < depthAfter front 0 := hsheltered.2.1 rfl
      have hzero : depthAfter front 0 = 0 := hbalanced
      omega
  | word kind text => exact ⟨front, kind, text, rfl⟩

theorem last_line (options : PageOptions) (level : Nat) (fresh : Bool) (h : NeatLine ps) :
    ∃ c ∈ (Piece.text options level fresh ps).getLast?,
      Text.isBlank c = false ∧ c ≠ '\n' := by
  obtain ⟨front, kind, text, rfl⟩ := h.last_word
  obtain ⟨fresh', htext⟩ := text_concat options level fresh front (.word kind text)
  obtain ⟨-, hunbroken, -, c, hc, hblank⟩ := h.1.spelled _ (List.mem_append_right _ List.mem_cons_self)
  have hne : text.toList ≠ [] := by
    rintro hnil
    simp [hnil] at hc
  refine ⟨c, ?_, hblank, ?_⟩
  · rw [htext, Piece.chars, List.getLast?_append_of_ne_nil _ hne]
    exact hc
  · rintro rfl
    exact absurd (hunbroken '\n' (List.mem_of_getLast? hc)) (by decide)

theorem last_row (options : PageOptions) {row : Row} (h : row.IsNeat) :
    ∃ c ∈ (row.text options).getLast?, c ≠ '\n' := by
  have hcomment : ∀ (front : List Char) {text : String}, (Piece.remark false text).Spelled →
      ∃ c ∈ (front ++ text.toList).getLast?, c ≠ '\n' := by
    rintro front text ⟨hhead, hunbroken⟩
    have hne : text.toList ≠ [] := by
      rintro hnil
      simp [hnil] at hhead
    refine ⟨text.toList.getLast hne, ?_, ?_⟩
    · rw [List.getLast?_append_of_ne_nil _ hne]
      exact List.getLast?_eq_some_getLast hne
    · intro heq
      exact absurd (hunbroken _ (List.getLast_mem hne)) (by rw [heq]; decide)
  cases row with
  | code level ps =>
      obtain ⟨c, hc, -, hne⟩ := last_line options level true h
      have htext : Piece.text options level true ps ≠ [] := by
        rintro hnil
        simp [hnil] at hc
      refine ⟨c, ?_, hne⟩
      rw [Row.text, ← List.cons_append, List.getLast?_append_of_ne_nil _ htext]
      exact hc
  | comment level text => exact hcomment ('\n' :: Page.spaces _) h
  | tail text => exact hcomment _ h

/-- The last line ends in what stands on it. -/
theorem last_rowsText (options : PageOptions) (h : ∀ row ∈ rows, row.IsNeat) (hne : rows ≠ []) :
    ∃ c ∈ (rowsText options rows).getLast?, c ≠ '\n' := by
  obtain ⟨front, row, rfl⟩ : ∃ front row, rows = front ++ [row] := by
    obtain ⟨front, row, hrows⟩ := (List.eq_nil_or_concat rows).resolve_left hne
    exact ⟨front, row, by simpa using hrows⟩
  obtain ⟨c, hc, hbreak⟩ := last_row options (h row (by simp))
  have htext : row.text options ≠ [] := by
    rintro hnil
    simp [hnil] at hc
  refine ⟨c, ?_, hbreak⟩
  rw [rowsText, List.flatMap_append, List.flatMap_singleton, List.getLast?_append_of_ne_nil _ htext]
  exact hc

/-- The text of a page that does not end in an empty line. -/
theorem toList_finish {page : Page} {cs : List Char} {c : Char} (hwritten : page.written.reverse = cs)
    (hlast : c ∈ cs.getLast?) (hbreak : c ≠ '\n') :
    page.finish.toList = cs.dropWhile (· = '\n') ++ ['\n'] := by
  obtain ⟨front, rfl⟩ := List.getLast?_eq_some_iff.1 hlast
  have hkept : ∃ rest, (front ++ [c]).dropWhile (· = '\n') = rest ++ [c] := by
    rw [List.dropWhile_append]
    split
    · exact ⟨[], by simp [hbreak]⟩
    · exact ⟨_, rfl⟩
  obtain ⟨rest, hrest⟩ := hkept
  have hend : ((rest ++ [c]).reverse.dropWhile (· = '\n')).reverse = rest ++ [c] := by
    rw [List.reverse_append, List.reverse_singleton, List.singleton_append,
      List.dropWhile_cons_of_neg (by simpa using hbreak)]
    simp
  unfold Page.finish
  rw [hwritten, hrest]
  split
  · next hnil => simp at hnil
  · rw [String.toList_ofList, hend]

theorem head_spelled {text : String} (h : (Piece.remark false text).Spelled) :
    ∃ cs, text.toList = '#' :: cs := by
  obtain ⟨hhead, -⟩ := h
  cases hs : text.toList with
  | nil => simp [hs] at hhead
  | cons d ds => exact ⟨ds, by simpa [hs] using hhead⟩

theorem atLine_start (cs : List Char) (size : Nat) : AtLine (.start cs) cs (blockWidths size 0) :=
  ⟨rfl, rfl, rfl, rfl, rfl⟩

/-- A page of lines is scanned as the layout of the lines. -/
theorem scanned_finish {page : Page} {options : PageOptions}
    (hwritten : page.written.reverse = rowsText options rows) (hsize : 1 ≤ options.indentSize)
    (hneat : ∀ row ∈ rows, row.IsNeat) (hnested : Nested 0 rows)
    (hflush : ∀ row ∈ rows.head?, row.Flush) :
    Scanned (.start page.finish.toList) (layout options 0 false [] rows) := by
  cases rows with
  | nil =>
      have hempty : page.finish.toList = [] := by
        rw [Page.finish, hwritten]
        rfl
      rw [hempty]
      exact scanned_end (atLine_start [] 0)
  | cons row rows =>
      have hrow := hneat row List.mem_cons_self
      have hlater : ∀ row ∈ rows, row.IsNeat := (List.forall_mem_cons.1 hneat).2
      have hlevel := hflush row rfl
      obtain ⟨c, hc, hbreak⟩ := last_rowsText options hneat (by simp)
      have htext := toList_finish hwritten hc hbreak
      cases row with
      | tail text =>
          obtain ⟨cs, hcs⟩ := head_spelled hrow
          have hrest : page.finish.toList = rowsText options (.tail text :: rows) ++ ['\n'] := by
            rw [htext]
            cases hpadding : options.eolPadding <;>
              simp [rowsText, Row.text, hcs, hpadding, Page.spaces, List.replicate_succ]
          have hs := atLine_start page.finish.toList options.indentSize
          rw [hrest] at hs ⊢
          exact scan_rows hsize hneat _ 0 false [] ⟨by simp, by simp⟩ hnested hs
      | comment level text =>
          obtain rfl : level = 0 := hlevel
          obtain ⟨cs, hcs⟩ := head_spelled hrow
          have hrest : page.finish.toList = Page.spaces (0 * options.indentSize) ++ text.toList ++
              (rowsText options rows ++ ['\n']) := by
            rw [htext]
            simp [rowsText, Row.text, hcs, Page.spaces]
          have hs := atLine_start page.finish.toList options.indentSize
          rw [hrest] at hs ⊢
          exact scan_rows hsize hlater _ 0 false _ (trail_comment hrow _) hnested hs
      | code level ps =>
          obtain rfl : level = 0 := hlevel
          obtain ⟨d, ds, hd, hstarts, -⟩ := head_line options 0 true hrow
          have hfirst : d ≠ '\n' := by
            rintro rfl
            exact absurd hstarts.2.1 (by decide)
          have hrest : page.finish.toList = Page.spaces (0 * options.indentSize) ++
              Piece.text options 0 true ps ++ (rowsText options rows ++ ['\n']) := by
            rw [htext]
            simp [rowsText, Row.text, hd, hfirst, Page.spaces]
          have hs := atLine_start page.finish.toList options.indentSize
          rw [hrest] at hs ⊢
          exact scanned_code hsize (Nat.zero_le _) hrow hlater (scan_rows hsize hlater) hnested.2 hs

section Module

variable {body : List Node} (hcode : ∀ s ∈ Node.code body, DressedStatement s)
  (hremarks : ∀ r ∈ body, r.isTrivia = true → r.IsRemark)
include hcode hremarks

theorem neat_moduleRows (detail : Detail) : ∀ row ∈ moduleRows detail body, row.IsNeat := by
  intro row hrow
  obtain ⟨n, hn, hrow⟩ := List.mem_flatMap.1 hrow
  exact neatRows_nodes hremarks (fun s hs => neat_rows detail (hcode s hs)) n hn 0 false row hrow

omit hremarks in
/-- The lines of a module are laid out as the words of its statements. -/
theorem laid_moduleRows (detail : Detail) : Nested 0 (moduleRows detail body) ∧
    codeLayout 0 (moduleRows detail body) =
      body.flatMap (·.wording detail 0 false) ++ [(.endMarker, "")] := by
  have hstatements : ∀ s ∈ Node.code body, LaidOut detail s ∧ DressedStatement s := fun s hs =>
    ⟨laid_statement detail (hcode s hs), hcode s hs⟩
  have hempty : Continues 0 [] := ⟨trivial, trivial⟩
  have hlaid := laid_all hstatements false hempty
  rw [List.append_nil] at hlaid
  exact ⟨hlaid.1.nested, hlaid.2⟩

theorem written_module (detail : Detail) (span : Option Span) (options : PageOptions) :
    (render detail ⟨.module body, span⟩ .line (.blank options)).written.reverse =
      rowsText options (moduleRows detail body) := by
  have hnodes := lays_nodes hremarks fun s hs => render_rows detail (hcode s hs)
  have hrows := written_putRows (neat_moduleRows hcode hremarks detail) (.blank options)
  have hrender : render detail ⟨.module body, span⟩ .line (.blank options) =
      putRows (moduleRows detail body) (.blank options) := all_statements body hnodes (.blank options)
  rw [hrender, hrows]
  simp [Page.blank]

/-- A printed module is scanned as the layout of its lines. -/
theorem tokenize_source (detail : Detail) (span : Option Span) {options : PageOptions}
    (hsize : 1 ≤ options.indentSize) :
    ∃ tokens, tokenize (Node.source ⟨.module body, span⟩ detail options) = .ok tokens ∧
      tokens.map Token.word = layout options 0 false [] (moduleRows detail body) := by
  obtain ⟨tokens, hwords, hscan⟩ := scanned_finish
    (written_module hcode hremarks detail span options) hsize (neat_moduleRows hcode hremarks detail)
    (laid_moduleRows hcode detail).1 (flush_moduleRows detail body)
  exact ⟨tokens, tokenize_eq_ok.2 (hscan []), hwords⟩

/-- What the grammar reads of a printed module: the words of its statements. -/
theorem codeWords_source (detail : Detail) (span : Option Span) {options : PageOptions}
    (hsize : 1 ≤ options.indentSize) :
    ∃ tokens, tokenize (Node.source ⟨.module body, span⟩ detail options) = .ok tokens ∧
      codeWords tokens = body.flatMap (·.wording detail 0 false) ++ [(.endMarker, "")] := by
  obtain ⟨tokens, htokenize, hwords⟩ := tokenize_source hcode hremarks detail span hsize
  refine ⟨tokens, htokenize, ?_⟩
  rw [codeWords_eq_filter, hwords, filter_layout options (neat_moduleRows hcode hremarks detail)]
  exact (laid_moduleRows hcode detail).2

end Module

end TriviaTree
