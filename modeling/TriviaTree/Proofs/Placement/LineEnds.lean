import Mathlib
import TriviaTree.Proofs.Placement.Interleaving
import TriviaTree.Proofs.Source.LineText
import TriviaTree.Proofs.Token.Endings

/-!
Comments at the end of a line have code before them on that line.

A comment is flagged when the sibling that ends last before it ends on its line, or when the code
before it on its line ends with a colon. The second case speaks of the line itself. In the first one
the sibling ends where a lexeme ends (`nested_within_code`), the last character of that lexeme is no
blank (`Token.Spelled.ends_visibly`), and since the lexeme ends on the line of the comment that
character is on it too. Settling a plan only takes flags away.
-/

set_option autoImplicit false

namespace TriviaTree

/-! ### Where lexemes end -/

/-- Code does not end in a blank. -/
theorem Token.Spelled.ends_visibly {t : Token} (h : t.Spelled) (hlayout : t.kind.isLayout = false)
    (hcomment : t.kind ≠ .comment) : ∀ c ∈ t.text.toList.getLast?, Text.isBlank c = false := by
  intro c hc
  have hmem := List.mem_of_getLast? hc
  cases hkind : t.kind with
  | name =>
      have hname := h.name hkind
      cases hchars : t.text.toList with
      | nil => simp [hchars] at hmem
      | cons first rest =>
          rw [hchars, Text.isIdentifier, Bool.and_eq_true, List.all_eq_true] at hname
          rcases List.mem_cons.1 (hchars ▸ hmem) with rfl | hrest
          · exact Text.isBlank_of_isNamePart (Text.isNamePart_of_isNameStart hname.1)
          · exact Text.isBlank_of_isNamePart (hname.2 c hrest)
  | int | float => exact Text.isBlank_of_isNumeral ((h.number (by simp [hkind])).numeral c hmem)
  | str =>
      rcases h.string hkind with hquote | hquote <;>
      · rw [hquote] at hc
        cases hc
        decide
  | op => exact Token.isBlank_of_mem_operators _ (h.operator hkind) c hmem
  | comment => exact absurd hkind hcomment
  | newline | indent | dedent | endMarker => simp [hkind, TokenKind.isLayout] at hlayout

/-! ### Code before a comment -/

section Code

variable {source : String} {tokens : List Token} {t comment : Token}

/-- A lexeme that ends before a comment, on its line, ends with a character there. -/
theorem visible_of_lexeme (htokens : tokenize source = .ok tokens) (ht : t ∈ tokens)
    (hlayout : t.kind.isLayout = false) (hcode : t.kind ≠ .comment) (hmem : comment ∈ tokens)
    (hbefore : t.stop ≤ comment.start)
    (hline : ((LineIndex.ofText source).location t.stop).line =
      ((LineIndex.ofText source).location comment.start).line) :
    ∃ before, textBefore? source ((LineIndex.ofText source).location comment.start) = some before ∧
      ∃ c ∈ before, Text.isBlank c = false := by
  have laid := laid_of_tokenize htokens
  obtain ⟨front, after, hsource, hstart, hstop⟩ := laid.cut t ht
  obtain ⟨front', after', hsource', hstart', -⟩ := laid.cut comment hmem
  rw [Nat.zero_add] at hstart hstop hstart'
  have hroom := ((inOrder_of_tokenize htokens).1.room t ht).resolve_left (by simp [hlayout])
  obtain ⟨text, c, htext⟩ : ∃ text c, t.text.toList = text ++ [c] := by
    rcases List.eq_nil_or_concat t.text.toList with hnone | h
    · rw [hstart, hstop, hnone, List.append_nil] at hroom
      exact absurd hroom (lt_irrefl _)
    · simpa using h
  have hvisible := (spelled_of_tokenize htokens t ht).ends_visibly hlayout hcode c (by simp [htext])
  -- the text up to the comment begins with the text up to the end of the lexeme
  obtain ⟨middle, hmiddle⟩ : ∃ middle, front' = (front ++ text) ++ c :: middle := by
    have hsplit : (front ++ text ++ [c]) ++ after = front' ++ (comment.text.toList ++ after') := by
      rw [← hsource', hsource, htext]
      simp
    rw [hstart', hstop, htext, ← List.append_assoc] at hbefore
    obtain ⟨middle, hmiddle⟩ := Text.isPrefix_of_byteSize_le hsplit hbefore
    exact ⟨middle, by simpa using hmiddle.symm⟩
  rw [hstart', hmiddle] at hline ⊢
  rw [hstop, htext, ← List.append_assoc] at hline
  have hcut : source.toList = (front ++ text) ++ c :: (middle ++ (comment.text.toList ++ after')) := by
    rw [hsource', hmiddle]
    simp
  have hc : c ≠ '\n' := by
    rintro rfl
    revert hvisible
    decide
  obtain ⟨before, hbefore, hc⟩ := mem_textBefore?_of_same_line hcut hc hline
  exact ⟨before, hbefore, c, hc, hvisible⟩

/-- The place is the end of a lexeme that is no layout, or the origin of the text. -/
def EndsCode (source : String) (tokens : List Token) (place : Location) : Prop :=
  place = .origin ∨ ∃ t ∈ tokens, t.kind ≠ .comment ∧ t.kind.isLayout = false ∧
    place = (LineIndex.ofText source).location t.stop

/-- The nodes of a tree end where code ends. -/
theorem nested_within_code (htokens : tokenize source = .ok tokens) {full : Node}
    (hfull : parseModule source .full = .ok full) :
    full.Nested ⟨(Location.origin ≤ ·), EndsCode source tokens⟩ :=
  nested_within_bounds htokens (.inl rfl)
    (fun t ht hkind => ⟨LineIndex.origin_le_location source _,
      fun hlayout => .inr ⟨t, ht, hkind, hlayout, rfl⟩⟩) hfull

theorem mem_childSpans {full : Node} {owner : Nat} {span : Span}
    (h : span ∈ full.nativeSpanned.childSpans owner) :
    ∃ f ∈ full.flatten.nodes, f.node.span = some span := by
  obtain ⟨⟨f, own⟩, hzip, hown⟩ := List.mem_filterMap.1 h
  have hmem := (List.of_mem_zip hzip).2
  rw [Node.nativeSpanned, FlatTree.ownSpans, List.mem_map] at hmem
  obtain ⟨g, hg, rfl⟩ := hmem
  exact ⟨g, hg, (Option.ite_none_right_eq_some.1 hown).2⟩

theorem lastBefore?_mem {spans : List Span} {target span : Span}
    (h : SpannedTree.lastBefore? spans target = some span) :
    span ∈ spans ∧ span.stop ≤ target.start := by
  have : Std.TransCmp fun a b : Span => compare a.stop b.stop :=
    inferInstanceAs (Std.TransCmp (compareOn Span.stop))
  by_cases hnone : spans.filter (·.endsBefore target) = []
  · rw [SpannedTree.lastBefore?, hnone] at h
    cases h
  · obtain ⟨found, hmem, hfound, -⟩ := lastGreatest?_spec h hnone
    cases hfound
    obtain ⟨hmem, hends⟩ := List.mem_filter.1 hmem
    exact ⟨hmem, by simpa [Span.endsBefore] using hends⟩

/-- A sibling that ends on the line of a comment, before it, ends with a character there. -/
theorem visible_of_sibling (htokens : tokenize source = .ok tokens) {full : Node}
    (hfull : parseModule source .full = .ok full) (hmem : comment ∈ tokens) {owner : Nat} {span : Span}
    (hspan : SpannedTree.lastBefore? (full.nativeSpanned.childSpans owner)
      (comment.toTrivia (.ofText source)).span = some span)
    (hline : span.stop.line = (comment.toTrivia (.ofText source)).span.start.line) :
    ∃ before, textBefore? source (comment.toTrivia (.ofText source)).span.start = some before ∧
      ∃ c ∈ before, Text.isBlank c = false := by
  obtain ⟨hchild, hbefore⟩ := lastBefore?_mem hspan
  obtain ⟨f, hf, hspan⟩ := mem_childSpans hchild
  obtain ⟨hroom, hstart, hstop⟩ :=
    ((nested_within_code htokens hfull).of_mem_flatten f hf).of_span hspan
  rcases hstop with horigin | ⟨t, ht, hcode, hlayout, hstop⟩
  · exact absurd hroom (not_lt.2 (horigin ▸ hstart))
  · rw [hstop] at hbefore hline
    refine visible_of_lexeme htokens ht hlayout hcode hmem ?_ hline
    by_contra hlate
    have hwithin := (inOrder_of_tokenize htokens).1.within t ht
    exact absurd hbefore (not_le.2 (LineIndex.location_strictMono _ (not_le.1 hlate) hwithin.2.2))

end Code

/-! ### Headers -/

theorem Text.eq_append_of_takeBytes {size : Nat} {cs taken : List Char}
    (h : Text.takeBytes size cs = some taken) :
    ∃ rest, cs = taken ++ rest ∧ size = Text.byteSize taken := by
  induction cs generalizing size taken with
  | nil =>
      obtain ⟨rfl, hnil⟩ := Option.ite_none_right_eq_some.1 h
      cases hnil
      exact ⟨[], rfl, rfl⟩
  | cons c cs ih =>
      unfold Text.takeBytes at h
      split at h
      · next hsize =>
        cases h
        exact ⟨c :: cs, rfl, hsize⟩
      · obtain ⟨hfits, hmore⟩ := Option.ite_none_right_eq_some.1 h
        obtain ⟨taken, htaken, rfl⟩ := Option.map_eq_some_iff.1 hmore
        obtain ⟨rest, rfl, hsize⟩ := ih htaken
        exact ⟨rest, rfl, by rw [Text.byteSize_cons]; omega⟩

/-- A line without its end is the beginning of a piece between line feeds. -/
theorem exists_piece {cs line : List Char} {i : Nat} (h : (textLines cs)[i]? = some line) :
    ∃ more, (cs.splitOn '\n')[i]? = some (line ++ more) := by
  obtain ⟨pieces, last, hpieces⟩ : ∃ pieces last, cs.splitOn '\n' = pieces ++ [last] := by
    have hne : cs.splitOn '\n' ≠ [] := List.ne_nil_of_length_pos (by simp [length_splitOn_newline])
    exact ⟨_, _, (List.dropLast_append_getLast hne).symm⟩
  simp only [textLines, hpieces, List.dropLast_concat, List.getLast?_concat] at h
  rw [hpieces]
  rw [List.getElem?_append] at h ⊢
  simp only [List.length_map] at h
  split at h
  · next hlt =>
    rw [List.getElem?_map] at h
    obtain ⟨piece, hpiece, rfl⟩ := Option.map_eq_some_iff.1 h
    rw [if_pos hlt, hpiece]
    split
    · next hreturn =>
      obtain ⟨front, rfl⟩ := List.getLast?_eq_some_iff.1 hreturn
      exact ⟨['\r'], by simp⟩
    · exact ⟨[], by simp⟩
  · next hge =>
    have hlast := List.mem_of_getElem? h
    rw [if_neg hge]
    obtain ⟨hzero, -⟩ := List.getElem?_eq_some_iff.1 h
    have hone : i - pieces.length = 0 := by
      have : (Option.filter (· ≠ []) (some last)).toList.length ≤ 1 := by
        cases Option.filter (· ≠ []) (some last) <;> simp
      omega
    obtain rfl : last = line := by
      simpa using (Option.filter_eq_some_iff.1 (Option.mem_toList.1 hlast)).1
    exact ⟨[], by simp [hone]⟩

/-- The colon of a header stands before the comment. -/
theorem visible_of_followsHeader {source : String} {target : Span}
    (h : followsHeader source target = true) :
    ∃ before, textBefore? source target.start = some before ∧ ∃ c ∈ before, Text.isBlank c = false := by
  unfold followsHeader at h
  split at h
  · next before hbefore =>
    obtain ⟨line, hline, htake⟩ := Option.bind_eq_some_iff.1 hbefore
    obtain ⟨more, hpiece⟩ := exists_piece hline
    obtain ⟨rest, rfl, hsize⟩ := Text.eq_append_of_takeBytes htake
    refine ⟨before, ?_, ':', ?_, by decide⟩
    · rw [textBefore?, hpiece, Option.bind_some, hsize, List.append_assoc,
        Text.takeBytes_byteSize_append]
    · obtain ⟨tail, htail, -⟩ := Text.trimEnd_append before
      rw [← htail]
      exact List.mem_append_left _ (List.mem_of_getLast? (by simpa using h))
  · cases h

/-! ### Flags -/

/-- A comment that is not on a line of its own has code before it. -/
theorem visible_of_linePosition {source : String} {tokens : List Token} {comment : Token}
    (htokens : tokenize source = .ok tokens) {full : Node}
    (hfull : parseModule source .full = .ok full) (hmem : comment ∈ tokens) {point : InsertionPoint}
    (h : full.nativeSpanned.linePosition source point (comment.toTrivia (.ofText source)).span ≠
      .ownLine) :
    ∃ before, textBefore? source (comment.toTrivia (.ofText source)).span.start = some before ∧
      ∃ c ∈ before, Text.isBlank c = false := by
  unfold SpannedTree.linePosition at h
  dsimp only at h
  split at h
  · exact absurd rfl h
  split at h
  · next hsibling =>
    obtain ⟨span, hspan, hline⟩ := (Option.any_eq_true _ _).1 hsibling
    exact visible_of_sibling htokens hfull hmem hspan (by simpa using hline)
  split at h
  · next hheader => exact visible_of_followsHeader (Bool.and_eq_true _ _ ▸ hheader).2
  · exact absurd rfl h

/-- The flag of a settled comment is one that was planned. -/
theorem Planned.endOfLine_of_settle {p : Planned} {before : List Planned} {c : Comment}
    (h : (p.settle before).trivia = .comment c) (hend : c.endOfLine = true) :
    p.trivia = .comment c := by
  unfold settle at h
  dsimp only at h
  split at h
  · unfold markEndOfLine at h
    split at h
    · cases h
      cases hend
    · exact h
  · exact h

/-- The nodes of a tree after a batch: those put in with it, and the nodes it had, each after a part of
the batch. -/
theorem mem_preorder_insertTogether (n : Node) : ∀ {es : List Insertion},
    ∀ m ∈ (n.insertTogether es).preorder, (∃ e ∈ es, m ∈ e.node.preorder) ∨
      ∃ old ∈ n.preorder, ∃ part, m = old.insertTogether part := by
  induction n with
  | step n ih =>
    intro es m hm
    rcases Node.mem_preorder_iff.1 hm with rfl | ⟨c', hc', hm⟩
    · exact .inr ⟨n, Node.mem_preorder_iff.2 (.inl rfl), es, rfl⟩
    · rw [Node.children, Kind.children_eq, Node.entries_insertTogether] at hc'
      obtain ⟨entry, hentry', hc'⟩ := List.mem_flatMap.1 hc'
      obtain ⟨⟨field, cs⟩, hentry, rfl⟩ := List.mem_map.1 hentry'
      rcases Field.mem_insertTogether hentry hc' with ⟨e, he, -, -, rfl⟩ | ⟨c, hc, place, -, rfl⟩
      · exact .inl ⟨e, he, hm⟩
      · have hmem := Kind.mem_children_of_mem_entries hentry hc
        rcases ih c hmem m hm with ⟨x, hx, hm⟩ | ⟨old, hold, part, rfl⟩
        · obtain ⟨e, he, rest, -, rfl⟩ := exists_of_mem_insertionsBelow hx
          exact .inl ⟨e, he, hm⟩
        · exact .inr ⟨old, Node.mem_preorder_iff.2 (.inr ⟨c, hmem, hold⟩), part, rfl⟩

/-- The trivia of a tree without any, after a batch of trivia, is the batch. -/
theorem exists_of_isTrivia {n m : Node} {es : List Insertion} (plain : n.Plain)
    (trivia : ∀ e ∈ es, e.node.isTrivia = true) (hm : m ∈ (n.insertTogether es).preorder)
    (htrivia : m.isTrivia = true) : ∃ e ∈ es, m = e.node := by
  rcases mem_preorder_insertTogether n m hm with ⟨e, he, hm⟩ | ⟨old, hold, part, rfl⟩
  · rw [Node.preorder_of_isTrivia (trivia e he), List.mem_singleton] at hm
    exact ⟨e, he, hm⟩
  · rw [Node.isTrivia_insertTogether, plain old hold] at htrivia
    cases htrivia

/-- A comment is planned with its flag only when code is before it. -/
theorem visible_of_planToken {classifier : Classifier} {source : String} {tokens : List Token}
    {comment : Token} (htokens : tokenize source = .ok tokens) {full : Node}
    (hfull : parseModule source .full = .ok full) (hmem : comment ∈ tokens) {p : Planned}
    (hp : full.nativeSpanned.planToken classifier source full.native
      (comment.toTrivia (.ofText source)) = .ok p)
    {c : Comment} (hc : p.trivia = .comment c) (hend : c.endOfLine = true) :
    ∃ before, textBefore? source p.span.start = some before ∧ ∃ ch ∈ before, Text.isBlank ch = false := by
  unfold SpannedTree.planToken at hp
  split at hp
  · cases hp
  split at hp
  · cases hp
  split at hp
  · cases hp
    cases hc
  · cases hp
    cases hc
    exact visible_of_linePosition htokens hfull hmem (by simpa using hend)

/-- A comment that is flagged as one at the end of a line has code before it: what stands on its line
before it is not all blank. -/
theorem code_before_endOfLine {classifier : Classifier} {source : String} {augmented n : Node}
    {c : Comment} (h : parseAugmented classifier source = .ok augmented)
    (hn : n ∈ augmented.preorder) (hkind : n.kind = .comment c) (hend : c.endOfLine = true) :
    ∃ span before, n.span = some span ∧ textBefore? source span.start = some before ∧
      ∃ ch ∈ before, Text.isBlank ch = false := by
  obtain ⟨full, tokens, plan, hfull, hnative, -, htokens, hplan, -, rfl⟩ := exists_plan h
  have htrivia : n.isTrivia = true := by rw [Node.isTrivia, hkind]; rfl
  have hplanned : ∀ e ∈ (schedule plan).reverse.map Planned.insertion, e.node.isTrivia = true :=
    List.forall_mem_map.2 fun q _ => Planned.isTrivia_node q
  obtain ⟨e, he, rfl⟩ := exists_of_isTrivia (parseModule_plain hnative) hplanned hn htrivia
  obtain ⟨comment, hmem, -, p, earlier, hp, rfl⟩ := exists_of_mem_plan hplan he
  obtain ⟨trivia, hsettle⟩ := p.settle_eq earlier
  have hsettled : (p.settle earlier).trivia = .comment c := by
    rw [Planned.insertion, Planned.node] at hkind
    cases htrivia : (p.settle earlier).trivia with
    | comment c' =>
        rw [htrivia] at hkind
        cases hkind
        rfl
    | directive d =>
        rw [htrivia] at hkind
        cases hkind
  obtain ⟨before, hbefore, hvisible⟩ := visible_of_planToken htokens hfull hmem hp
    (Planned.endOfLine_of_settle hsettled hend) hend
  refine ⟨p.span, before, ?_, hbefore, hvisible⟩
  rw [Planned.insertion, Planned.span_node, hsettle]

/-- The line of the comment begins inside a string. -/
theorem code_before_endOfLine_header :
    let source := "if '''\n''':  # c\n    pass"
    ∃ augmented, parseAugmented .standard source = .ok augmented ∧
      ∃ n ∈ augmented.preorder, ∃ c, n.kind = .comment c ∧ c.endOfLine = true ∧
        ∃ span before, n.span = some span ∧ textBefore? source span.start = some before ∧
          ∃ ch ∈ before, Text.isBlank ch = false := by
  intro source
  have hflagged : (parseAugmented .standard source).map
      (·.preorder.any Node.isEndOfLineComment) = .ok true := by decide +kernel
  cases h : parseAugmented .standard source with
  | error fault => simp [h, Except.map] at hflagged
  | ok augmented =>
      simp only [h, Except.map, Except.ok.injEq, List.any_eq_true] at hflagged
      obtain ⟨⟨kind, span⟩, hn, hflag⟩ := hflagged
      cases kind with
      | comment c => exact ⟨augmented, rfl, _, hn, c, rfl, hflag, code_before_endOfLine h hn rfl hflag⟩
      | _ => cases hflag

end TriviaTree
