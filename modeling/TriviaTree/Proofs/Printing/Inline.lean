import Mathlib
import TriviaTree.Proofs.Printing.Neat

/-!
Expressions without trivia take one line, and say the words of their tree.

`Text.words` are the maximal runs of letters, digits and underscores in a text, as many as there are.
`Node.said` are the words that a tree stands for, told from its nodes. `Piece.OnLine` says of pieces that
they are put on the page as one text without line breaks, with given words. Pieces with a space or an
operator between them are, when those on both sides are (`Piece.OnLine.wall`), and all that is printed of
an expression is put together in this way (`onLine_of_printable`).
-/

set_option autoImplicit false

namespace TriviaTree

/-! ### The words of a text -/

namespace Text

/-- The words of a text: the longest runs of characters that are part of a name. -/
def words (cs : List Char) : Multiset (List Char) :=
  ↑((cs.splitOnP (!isNamePart ·)).filter (· ≠ []))

@[simp] theorem words_nil : words [] = 0 := by
  simp [words]

theorem words_wall (front : List Char) {c : Char} (back : List Char) (hc : isNamePart c = false) :
    words (front ++ c :: back) = words front + words back := by
  simp [words, List.splitOnP_append_cons, hc]

theorem words_cons {c : Char} (cs : List Char) (hc : isNamePart c = false) :
    words (c :: cs) = words cs := by
  simpa using words_wall [] cs hc

/-- Two texts have the words of both, when no word goes on from the one to the other. -/
theorem words_append {front back : List Char}
    (h : front.getLast?.any isNamePart = true → back.head?.any isNamePart = false) :
    words (front ++ back) = words front + words back := by
  rcases List.eq_nil_or_concat front with rfl | ⟨init, c, rfl⟩
  · simp
  cases back with
  | nil => simp
  | cons d back =>
      cases hc : isNamePart c with
      | true =>
          have hd : isNamePart d = false := by simpa [hc] using h
          rw [words_wall _ _ hd, words_cons _ hd]
      | false => simp [words_wall _ _ hc]

theorem words_eq_zero {cs : List Char} (h : ∀ c ∈ cs, isNamePart c = false) : words cs = 0 := by
  induction cs with
  | nil => exact words_nil
  | cons c cs ih =>
      rw [words_cons _ (h c List.mem_cons_self)]
      exact ih (List.forall_mem_cons.1 h).2

end Text

/-- There is no line break among the characters. -/
def Unbroken (cs : List Char) : Prop :=
  ∀ c ∈ cs, Token.isBreak c = false

instance : DecidablePred Unbroken := fun cs =>
  decidable_of_iff (cs.all (!Token.isBreak ·) = true) (by simp [Unbroken])

theorem Unbroken.append {cs ds : List Char} (h : Unbroken cs) (h' : Unbroken ds) :
    Unbroken (cs ++ ds) := by
  intro c hc
  rcases List.mem_append.1 hc with hc | hc
  · exact h c hc
  · exact h' c hc

theorem Unbroken.subset {cs ds : List Char} (h : Unbroken cs) (hsub : ds ⊆ cs) : Unbroken ds :=
  fun c hc => h c (hsub hc)

theorem unbroken_of_isIdentifier {id : String} (h : IsIdentifier id) : Unbroken id.toList :=
  fun c hc => Token.isBreak_eq_false (isNamePart_of_mem h.spelled c hc) (by decide) (by decide)

theorem unbroken_source {value : Constant} (h : value.IsSpelled) : Unbroken value.source.toList := by
  have hnumber : ∀ {kind : TokenKind} {text : String}, IsNumber kind text → Unbroken text.toList :=
    fun h c hc => Token.isBreak_eq_false (h.numeral c hc) (by decide) (by decide)
  cases value with
  | int text | float text => exact hnumber h
  | str value => exact Token.unbroken_quoteString value
  | bool b => cases b <;> decide
  | nothing => decide

/-! ### The words of a tree -/

/-- The words that a node stands for itself: names, literals and operators that are words. -/
def Kind.saying {α : Type} : Kind α → Multiset (List Char)
  | .name id | .attribute _ id | .keyword (some id) _ => Text.words id.toList
  | .constant value => Text.words value.source.toList
  | .boolOp op values => (values.length - 1) • Text.words op.symbol.toList
  | .unaryOp op _ => Text.words op.symbol.toList
  | .compare _ ops _ => (ops.map fun op => Text.words op.symbol.toList).sum
  | .ifExp .. => Text.words "if".toList + Text.words "else".toList
  | _ => 0

/-- The words that a tree stands for. -/
def Node.said (n : Node) : Multiset (List Char) :=
  (n.preorder.map (·.kind.saying)).sum

/-- The words that several trees stand for. -/
def saidOf (ns : List Node) : Multiset (List Char) :=
  (ns.map Node.said).sum

@[simp] theorem saidOf_nil : saidOf [] = 0 := rfl

@[simp] theorem saidOf_cons (n : Node) (ns : List Node) : saidOf (n :: ns) = n.said + saidOf ns := by
  simp [saidOf]

@[simp] theorem saidOf_append (ns ns' : List Node) : saidOf (ns ++ ns') = saidOf ns + saidOf ns' := by
  simp [saidOf]

/-- A tree stands for what its root stands for itself and what the children stand for. -/
theorem Node.said_mk (kind : Kind Node) (span : Option Span) :
    (Node.mk kind span).said = kind.saying + saidOf kind.children := by
  have hchildren : ∀ ns : List Node,
      (((ns.map preorder).flatten).map (·.kind.saying)).sum = saidOf ns := by
    intro ns
    induction ns with
    | nil => rfl
    | cons n ns ih =>
        rw [List.map_cons, List.flatten_cons, List.map_append, List.sum_append, ih, saidOf_cons, said]
  rw [said, preorder_eq, List.map_cons, List.sum_cons, hchildren]
  rfl

/-! ### Pieces on a line -/

namespace Piece

/-- The characters of a piece. -/
def letters : Piece → List Char
  | .word _ text | .remark _ text => text.toList
  | .space => [' ']

/-- The characters of pieces. -/
def flat (ps : List Piece) : List Char :=
  ps.flatMap letters

/-- A piece that ends the word before it and is no part of a word. -/
def isWall : Piece → Bool
  | .word .op text => text ≠ "" && text.toList.all fun c => !Text.isNamePart c && !Token.isBreak c
  | .space => true
  | _ => false

/-- The pieces are put on the page as one text, without line breaks, with the given words. -/
structure OnLine (ps : List Piece) (said : Multiset (List Char)) : Prop where
  puts : putAll ps = .text (String.ofList (flat ps))
  unbroken : Unbroken (flat ps)
  words : Text.words (flat ps) = said

namespace OnLine

variable {ps qs : List Piece} {said said' : Multiset (List Char)} {p : Piece}

theorem nil : OnLine [] 0 :=
  ⟨rfl, by simp [Unbroken, flat], Text.words_nil⟩

theorem word (kind : TokenKind) {text : String} (h : Unbroken text.toList := by decide) :
    OnLine [.word kind text] (Text.words text.toList) :=
  ⟨funext fun page => by simp [flat, letters], by simpa [flat, letters] using h, by
    simp [flat, letters]⟩

theorem term (text : String) (h : Unbroken text.toList := by decide) :
    OnLine [term text] (Text.words text.toList) :=
  word .name h

theorem wall (first : OnLine ps said) (second : OnLine qs said')
    (hp : p.isWall = true := by decide) : OnLine (ps ++ p :: qs) (said + said') := by
  have hletters : p.put = .text (String.ofList p.letters) ∧ ∃ c cs, p.letters = c :: cs ∧
      ∀ d ∈ p.letters, Text.isNamePart d = false ∧ Token.isBreak d = false := by
    cases p with
    | space => exact ⟨rfl, ' ', [], rfl, by simp [letters]; decide⟩
    | remark => cases hp
    | word kind text =>
        cases kind <;> simp [isWall] at hp
        obtain ⟨c, cs, hcs⟩ := List.exists_cons_of_ne_nil (mt String.toList_eq_nil_iff.1 hp.1)
        exact ⟨by simp [put, letters], c, cs, hcs, hp.2⟩
  obtain ⟨hput, c, cs, hcs, hall⟩ := hletters
  have hflat : flat (ps ++ p :: qs) = flat ps ++ (p.letters ++ flat qs) := by simp [flat]
  refine ⟨funext fun page => ?_, ?_, ?_⟩
  · rw [putAll_append, first.puts, hflat]
    show putAll qs (p.put _) = _
    rw [second.puts, hput]
    simp [String.ofList_append]
  · rw [hflat]
    exact first.unbroken.append (Unbroken.append (fun d hd => (hall d hd).2) second.unbroken)
  · have hwall : Text.words (p.letters ++ flat qs) = said' := by
      rw [Text.words_append, Text.words_eq_zero fun d hd => (hall d hd).1, zero_add, second.words]
      intro hlast
      obtain ⟨d, hd, hpart⟩ := (Option.any_eq_true _ _).1 hlast
      rw [(hall d (List.mem_of_getLast? hd)).1] at hpart
      cases hpart
    rw [hflat, Text.words_append, first.words, hwall]
    simp [hcs, (hall c (by simp [hcs])).1]

theorem spaced (first : OnLine ps said) (second : OnLine qs said') :
    OnLine (ps ++ .space :: qs) (said + said') :=
  first.wall second rfl

theorem before (h : OnLine qs said) (hp : p.isWall = true := by decide) : OnLine (p :: qs) said := by
  simpa using nil.wall h hp

theorem after (h : OnLine ps said) (hp : p.isWall = true := by decide) : OnLine (ps ++ [p]) said := by
  simpa using h.wall nil hp

theorem enclosed (needed : Bool) (h : OnLine ps said) : OnLine (enclosed needed ps) said := by
  cases needed with
  | false => exact h
  | true => exact (before (p := sign "(") h).after

/-- Between brackets. -/
theorem between {q : Piece} (h : OnLine ps said) (hp : p.isWall = true := by decide)
    (hq : q.isWall = true := by decide) : OnLine ([p] ++ ps ++ [q]) said :=
  (before h hp).after hq

end OnLine

end Piece

open Piece

/-! ### Expressions -/

section Lists

variable {α : Type} {said : α → Multiset (List Char)}

/-- Parts with a word between each two. -/
theorem onLine_joined {text : String} (htext : Unbroken text.toList) {pieces : α → List Piece}
    {xs : List α} (h : ∀ x ∈ xs, OnLine (pieces x) (said x)) :
    OnLine (joined [.space, term text, .space] (xs.map pieces))
      ((xs.length - 1) • Text.words text.toList + (xs.map said).sum) := by
  induction xs with
  | nil => simpa [joined] using OnLine.nil
  | cons x xs ih =>
      have hx := h x List.mem_cons_self
      have ih := ih (List.forall_mem_cons.1 h).2
      cases xs with
      | nil => simpa [joined] using hx
      | cons y xs =>
          have whole := hx.spaced ((OnLine.term _ htext).spaced ih)
          have hsum : ((x :: y :: xs).length - 1) • Text.words text.toList +
              ((x :: y :: xs).map said).sum = said x + (Text.words text.toList +
                (((y :: xs).length - 1) • Text.words text.toList + ((y :: xs).map said).sum)) := by
            rw [show (x :: y :: xs).length - 1 = (y :: xs).length - 1 + 1 from rfl, succ_nsmul,
              List.map_cons, List.sum_cons]
            abel
          rw [hsum]
          simpa [joined] using whole

/-- Entries that are no trivia have commas between them. -/
theorem onLine_listed {chunk : α → Chunk} {xs : List α}
    (h : ∀ x ∈ xs, (chunk x).isTrivia = false ∧ OnLine (chunk x).pieces (said x)) :
    OnLine (listed (xs.map chunk)) (xs.map said).sum := by
  induction xs with
  | nil => exact OnLine.nil
  | cons x xs ih =>
      have hx := h x List.mem_cons_self
      have ih := ih (List.forall_mem_cons.1 h).2
      cases xs with
      | nil => simpa [listed] using hx.2
      | cons y xs =>
          have hy := h y (by simp)
          have whole := hx.2.wall (p := sign ",") (OnLine.nil.spaced ih)
          simpa [listed, comma, hx.1, hy.1] using whole

end Lists

/-- What is printed of a node takes one line, wherever the node stands in an expression. -/
structure Node.OnLine (n : Node) : Prop where
  isTrivia : n.isTrivia = false
  inline : ∀ strength, Piece.OnLine (n.pieces .trivia strength) n.said
  subscript : Piece.OnLine (n.subscriptPieces .trivia) n.said

theorem onLine_of_inline {kind : Kind Node} {span : Option Span} {said : Multiset (List Char)}
    (htrivia : kind.isTrivia = false) (hkind : ∀ elts, kind ≠ .tuple elts)
    (h : ∀ strength, OnLine (Node.pieces .trivia ⟨kind, span⟩ strength) said)
    (hsaid : kind.saying + saidOf kind.children = said) : Node.OnLine ⟨kind, span⟩ := by
  rw [← hsaid, ← Node.said_mk kind span] at h
  refine ⟨htrivia, h, ?_⟩
  cases kind with
  | tuple elts => exact absurd rfl (hkind elts)
  | _ => exact h .tuple

theorem onLine_entries {ns : List Node} (h : ∀ n ∈ ns, n.OnLine) :
    OnLine (listed (chunksAll .trivia ns)) (saidOf ns) := by
  rw [chunksAll_eq]
  exact onLine_listed fun n hn => ⟨(h n hn).isTrivia, (h n hn).inline .test⟩

theorem onLine_tupled {ns : List Node} (h : ∀ n ∈ ns, n.OnLine) :
    OnLine (tupled (chunksAll .trivia ns)) (saidOf ns) := by
  rw [tupled]
  split
  · exact (onLine_entries h).after
  · simpa using onLine_entries h

theorem onLine_option {n : Option Node} (h : ∀ m ∈ n, m.OnLine) :
    OnLine (piecesOption .trivia n []) (saidOf n.toList) := by
  cases n with
  | none => exact OnLine.nil
  | some n => simpa [piecesOption] using (h n rfl).inline .test

/-- What is compared with a first operand. -/
theorem onLine_comparisons {ops : List CompareOp} {ns : List Node} {ps : List Piece}
    {said : Multiset (List Char)} (first : OnLine ps said) (hlength : ns.length = ops.length)
    (h : ∀ n ∈ ns, n.OnLine) :
    OnLine (ps ++ (ops.zip (piecesAll .trivia ns .bitOr)).flatMap fun (op, qs) =>
        .space :: op.pieces ++ .space :: qs)
      (said + ((ops.map fun op => Text.words op.symbol.toList).sum + saidOf ns)) := by
  have hoperator : ∀ op : CompareOp, OnLine op.pieces (Text.words op.symbol.toList) := by
    intro op
    cases op with
    | isNot | notIn => exact (OnLine.word _).spaced (OnLine.word _)
    | _ => exact OnLine.word _
  induction ops generalizing ns ps said with
  | nil =>
      obtain rfl := List.length_eq_zero_iff.1 hlength
      simpa [piecesAll] using first
  | cons op ops ih =>
      obtain ⟨n, ns, rfl⟩ := List.exists_cons_of_length_eq_add_one hlength
      obtain ⟨hn, h⟩ := List.forall_mem_cons.1 h
      have next := first.spaced ((hoperator op).spaced (hn.inline .bitOr))
      have whole := ih next (by simpa using hlength) h
      rw [piecesAll, List.map_cons, List.sum_cons, saidOf_cons]
      simpa [add_assoc, add_left_comm] using whole

/-- The entries of a dictionary that holds no trivia. -/
theorem onLine_pairs {keys values : List Node} (hlength : values.length = keys.length)
    (hkeys : ∀ k ∈ keys, k.OnLine) (hvalues : ∀ v ∈ values, v.OnLine) :
    OnLine (listed (paired (chunksAll .trivia keys) (chunksAll .trivia values)))
      (saidOf keys + saidOf values) := by
  have hgrouped : ∀ {ns : List Node}, (∀ n ∈ ns, n.OnLine) →
      grouped [] (ns.map (·.chunk .trivia)) = (ns.map fun n => ([], n.chunk .trivia), []) := by
    intro ns h
    induction ns with
    | nil => rfl
    | cons n ns ih =>
        obtain ⟨hn, h⟩ := List.forall_mem_cons.1 h
        simp [grouped, Node.chunk, hn.isTrivia] at ih ⊢
        simp [ih h]
  have hpaired : paired (keys.map (·.chunk .trivia)) (values.map (·.chunk .trivia)) =
      (keys.zip values).map fun entry => pair (entry.1.chunk .trivia) [] (entry.2.chunk .trivia) := by
    rw [paired, hgrouped hkeys, hgrouped hvalues, List.zip_map, List.flatMap_map]
    simp [List.map_eq_flatMap]
  have hsaid : ((keys.zip values).map fun entry => entry.1.said + entry.2.said).sum =
      saidOf keys + saidOf values := by
    have hfirst := congrArg saidOf (List.map_fst_zip hlength.ge)
    have hsecond := congrArg saidOf (List.map_snd_zip hlength.le)
    rw [List.sum_map_add, ← hfirst, ← hsecond, saidOf, saidOf, List.map_map, List.map_map]
    rfl
  rw [chunksAll_eq, chunksAll_eq, hpaired, ← hsaid]
  refine onLine_listed fun entry hentry => ⟨rfl, ?_⟩
  have hmem := List.of_mem_zip (show (entry.1, entry.2) ∈ _ from hentry)
  have whole := ((hkeys _ hmem.1).inline .test).wall (p := sign ":")
    (OnLine.nil.spaced ((hvalues _ hmem.2).inline .test))
  simpa [pair, Node.chunk] using whole

/-- An expression without trivia takes one line and says the words of its tree. -/
theorem onLine_of_printable {strict : Bool} {part : Part} {n : Node} (h : Printable strict part n) :
    n.OnLine := by
  have htuple : ∀ {elts : List Node} {span : Option Span}, (∀ e ∈ elts, e.OnLine) →
      Node.OnLine ⟨.tuple elts, span⟩ := by
    intro elts span h
    have htupled := onLine_tupled h
    have hsaid : saidOf elts = Node.said ⟨.tuple elts, span⟩ := by
      simp [Node.said_mk, Kind.saying, Kind.children, Kind.contents]
    rw [hsaid] at htupled
    refine ⟨rfl, fun _ => ?_, htupled.enclosed _⟩
    rw [Node.pieces]
    exact OnLine.between htupled
  have hnames : ∀ {id : String}, IsIdentifier id → OnLine [term id] (Text.words id.toList) :=
    fun hid => OnLine.term _ (unbroken_of_isIdentifier hid)
  induction h with
  | item _ ih | index _ ih | single _ _ ih => exact ih
  | tuple _ ih | several _ _ ih => exact htuple ih
  | name hid =>
      refine onLine_of_inline rfl (by simp) (fun _ => hnames hid) ?_
      simp [Kind.saying, Kind.children, Kind.contents]
  | @constant value _ hvalue =>
      have hpiece : ∃ kind, value.piece = .word kind value.source := by
        cases value with
        | bool b => cases b <;> exact ⟨_, rfl⟩
        | _ => exact ⟨_, rfl⟩
      obtain ⟨kind, hkind⟩ := hpiece
      refine onLine_of_inline rfl (by simp) (fun _ => ?_) (add_zero _)
      rw [Node.pieces, hkind]
      exact OnLine.word kind (unbroken_source hvalue)
  | @boolOp op values _ _ _ ih =>
      have whole := onLine_joined (show Unbroken op.symbol.toList by cases op <;> decide)
        fun v hv => (ih v hv).inline op.precedence.next
      rw [← piecesAll_eq] at whole
      refine onLine_of_inline rfl (by simp) (fun _ => whole.enclosed _) ?_
      simp [Kind.saying, Kind.children, Kind.contents, saidOf]
  | @binOp left right op _ _ _ ihleft ihright =>
      have hop : (sign op.symbol).isWall = true := by cases op <;> decide
      have whole := (ihleft.inline op.operandStrengths.1).spaced
        ((OnLine.nil.spaced (ihright.inline op.operandStrengths.2)).before hop)
      refine onLine_of_inline rfl (by simp) (fun _ => by simpa [Node.pieces] using whole.enclosed _) ?_
      simp [Kind.saying, Kind.children, Kind.contents, saidOf]
  | @unaryOp op operand _ _ ih =>
      have whole : OnLine (op.pieces ++ operand.pieces .trivia op.precedence)
          (Text.words op.symbol.toList + operand.said) := by
        cases op with
        | not => exact (OnLine.word _).spaced (ih.inline _)
        | _ => exact OnLine.nil.wall (p := sign _) (ih.inline _)
      refine onLine_of_inline rfl (by simp) (fun _ => whole.enclosed _) ?_
      simp [Kind.saying, Kind.children, Kind.contents]
  | @compare left ops comparators _ _ _ hlength _ ihleft ih =>
      have whole := onLine_comparisons (ihleft.inline .bitOr) hlength ih
      refine onLine_of_inline rfl (by simp) (fun _ => whole.enclosed _) ?_
      simp [Kind.saying, Kind.children, Kind.contents, add_left_comm]
  | @ifExp test body orelse _ _ _ _ ihtest ihbody ihorelse =>
      have helse := (OnLine.term "else").spaced (ihorelse.inline .test)
      have hif := (OnLine.term "if").spaced ((ihtest.inline .or).spaced helse)
      have whole := (ihbody.inline .or).spaced hif
      refine onLine_of_inline rfl (by simp) (fun _ => by simpa [Node.pieces] using whole.enclosed _) ?_
      simp [Kind.saying, Kind.children, Kind.contents, add_assoc, add_comm, add_left_comm]
  | @call func args keywords _ _ _ _ ihfunc ihargs ihkeywords =>
      have hentries := onLine_entries (List.forall_mem_append.2 ⟨ihargs, ihkeywords⟩)
      rw [chunksAll_eq, List.map_append, ← chunksAll_eq, ← chunksAll_eq] at hentries
      have whole := (ihfunc.inline .atom).wall (p := sign "(")
        (hentries.after (p := sign ")"))
      refine onLine_of_inline rfl (by simp) (fun _ => by simpa [Node.pieces, Detail.shown] using whole) ?_
      simp [Kind.saying, Kind.children, Kind.contents]
  | @member value _ _ _ hattr ih =>
      have whole := ((ih.inline .atom).enclosed (isIntLiteral value)).wall (p := sign ".")
        (hnames hattr)
      refine onLine_of_inline rfl (by simp) (fun _ => whole) ?_
      simp [Kind.saying, Kind.children, Kind.contents, add_comm]
  | subscript _ _ ihvalue ihindex =>
      have whole := (ihvalue.inline .atom).wall (p := sign "[")
        (ihindex.subscript.after (p := sign "]"))
      refine onLine_of_inline rfl (by simp) (fun _ => by simpa [pieces_subscript] using whole) ?_
      simp [Kind.saying, Kind.children, Kind.contents]
  | list _ ih | set _ _ ih =>
      refine onLine_of_inline rfl (by simp)
        (fun _ => OnLine.between (onLine_entries ih)) ?_
      simp [Kind.saying, Kind.children, Kind.contents]
  | dict hlength _ _ ihkeys ihvalues =>
      refine onLine_of_inline rfl (by simp)
        (fun _ => OnLine.between (onLine_pairs hlength ihkeys ihvalues)) ?_
      simp [Kind.saying, Kind.children, Kind.contents]
  | bracketed _ _ ih | starred _ ih =>
      refine onLine_of_inline rfl (by simp) (fun _ => OnLine.before (ih.inline .bitOr)) ?_
      simp [Kind.saying, Kind.children, Kind.contents]
  | @slice lower upper step _ _ _ _ ihlower ihupper ihstep =>
      have hupper : OnLine (piecesOption .trivia upper [] ++ piecesOption .trivia step [sign ":"])
          (saidOf upper.toList + saidOf step.toList) := by
        cases step with
        | none => simpa [piecesOption] using onLine_option ihupper
        | some n => exact (onLine_option ihupper).wall (onLine_option ihstep)
      have whole := (onLine_option ihlower).wall (p := sign ":") hupper
      refine onLine_of_inline rfl (by simp) (fun _ => by simpa [Node.pieces] using whole) ?_
      simp [Kind.saying, Kind.children, Kind.contents]
  | @keyword arg _ _ harg _ ih =>
      cases arg with
      | none =>
          refine onLine_of_inline rfl (by simp) (fun _ => OnLine.before (ih.inline .bitOr)) ?_
          simp [Kind.saying, Kind.children, Kind.contents]
      | some name =>
          have whole := (hnames (harg name rfl)).wall (p := sign "=") (ih.inline .test)
          refine onLine_of_inline rfl (by simp) (fun _ => whole) ?_
          simp [Kind.saying, Kind.children, Kind.contents]

/-- What is printed of an expression in a line. -/
def Node.lineText (n : Node) : List Char :=
  flat (n.pieces .trivia .tuple)

theorem render_lineText {strict : Bool} {part : Part} {n : Node} (h : Printable strict part n) :
    render .trivia n (.inline .tuple) = .text (String.ofList n.lineText) :=
  ((puts_of_inlined .trivia h.inlined).inline .tuple).trans ((onLine_of_printable h).inline .tuple).puts

end TriviaTree
