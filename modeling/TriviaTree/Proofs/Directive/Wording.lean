import Mathlib
import TriviaTree.Proofs.Grammar.Identifiers
import TriviaTree.Proofs.Printing.Remarks
import TriviaTree.Proofs.Token.Layout

/-!
The words of a directive and those of the comment it was read from.

A text has the words of its tokens, when no token breaks off in the middle of a word (`Laid.words_eq`):
a number does, in `1if x else 2`. Of the tokens of an expression the grammar sees all but the comments,
and the tree stands for all words that it sees (`said_of_parseExpression`). What is not an expression is
printed as it was found, with other blanks and commas. So the line of a directive has all words of its
comment but those of comments in its expression (`words_line`).
-/

set_option autoImplicit false

namespace TriviaTree

open Grammar

variable {cs text : List Char} {rs : List Read} {tokens : List Token} {ws : List Word}

/-! ### The words of tokens -/

/-- The words in the texts of words. -/
def wordsIn (ws : List Word) : Multiset (List Char) :=
  (ws.map fun w => Text.words w.2.toList).sum

@[simp] theorem wordsIn_nil : wordsIn [] = 0 := rfl

@[simp] theorem wordsIn_cons (w : Word) (ws : List Word) :
    wordsIn (w :: ws) = Text.words w.2.toList + wordsIn ws := by
  simp [wordsIn]

@[simp] theorem wordsIn_append (ws ws' : List Word) :
    wordsIn (ws ++ ws') = wordsIn ws + wordsIn ws' := by
  simp [wordsIn]

theorem wordsIn_eq_zero (h : ∀ w ∈ ws, Text.words w.2.toList = 0) : wordsIn ws = 0 := by
  induction ws with
  | nil => rfl
  | cons w ws ih => simp [h w, ih (List.forall_mem_cons.1 h).2]

/-- No token goes on with a word that another one ends with. -/
def Apart (tokens : List Token) : Prop :=
  ∀ t ∈ tokens, ∀ t' ∈ tokens, t.stop = t'.start →
    t.text.toList.getLast?.any Text.isNamePart = true → t'.text.toList.head?.any Text.isNamePart = false

instance : DecidablePred Apart := fun tokens =>
  inferInstanceAs (Decidable (∀ t ∈ tokens, ∀ t' ∈ tokens, _ → _ → _))

theorem Text.isNamePart_of_isBlank {c : Char} (h : isBlank c = true) : isNamePart c = false := by
  by_contra hpart
  rw [Bool.not_eq_false] at hpart
  rw [isBlank_of_isNamePart hpart] at h
  cases h

theorem IsGap.isNamePart {c : Char} (h : IsGap c cs) : Text.isNamePart c = false := by
  rcases h with hblank | ⟨rfl, -⟩
  · exact Text.isNamePart_of_isBlank hblank
  · decide

/-- A character that is no gap begins a token. -/
theorem Laid.head {offset : Nat} {c : Char} (h : Laid offset (c :: cs) tokens) (hc : ¬ IsGap c cs) :
    ∃ t ∈ tokens, t.start = offset ∧ t.text.toList.head? = some c := by
  generalize hds : c :: cs = ds at h
  induction h with
  | nil => cases hds
  | gap hgap =>
      cases hds
      exact absurd hgap hc
  | @token offset text rest tokens kind _ _ _ ih =>
      cases text with
      | nil =>
          obtain ⟨t, ht, hstart⟩ := ih hds
          exact ⟨t, List.mem_cons_of_mem _ ht, hstart⟩
      | cons d text =>
          cases hds
          exact ⟨_, List.mem_cons_self, rfl, by simp⟩

theorem Laid.words_eq {offset : Nat} (h : Laid offset cs tokens) (apart : Apart tokens) :
    Text.words cs = wordsIn (tokens.map Token.word) := by
  induction h with
  | nil => exact Text.words_nil
  | gap hgap _ ih => rw [Text.words_cons _ hgap.isNamePart, ih apart]
  | @token _ text cs tokens kind _ _ rest ih =>
      have ih := ih fun t ht t' ht' =>
        apart t (List.mem_cons_of_mem _ ht) t' (List.mem_cons_of_mem _ ht')
      rw [Text.words_append, ih]
      · simp [Token.word]
      intro hlast
      cases cs with
      | nil => rfl
      | cons c cs =>
          by_contra hpart
          replace hpart : Text.isNamePart c = true := by simpa using hpart
          obtain ⟨t, ht, hstart, hhead⟩ := rest.head fun hgap => by simp [hgap.isNamePart] at hpart
          have hnext := apart _ List.mem_cons_self t (List.mem_cons_of_mem _ ht) hstart.symm
            (by simpa using hlast)
          simp [hhead, hpart] at hnext

/-- Layout has no words. -/
theorem Laid.words_layout {offset : Nat} (h : Laid offset cs tokens) :
    ∀ t ∈ tokens, t.kind.isLayout = true → Text.words t.text.toList = 0 := by
  induction h with
  | nil => simp
  | gap _ _ ih => exact ih
  | token kind _ hlayout _ ih =>
      refine List.forall_mem_cons.2 ⟨fun hkind => Text.words_eq_zero fun c hc => ?_, ih⟩
      exact Text.isNamePart_of_isBlank (hlayout hkind c (by simpa using hc))

/-! ### The words of an expression -/

namespace Grammar

/-- The words that a node is read from, no strings among them, are those that it stands for. -/
def Voiced (_ : Role) (n : Node) (ws : List Word) : Prop :=
  (∀ w ∈ ws, w.1 ≠ .str) → wordsIn ws = n.said

theorem Spells.wordsIn_eq (spells : Spells Voiced rs ws) (hstrings : ∀ w ∈ ws, w.1 ≠ .str) :
    wordsIn ws = wordsIn (Read.words rs) + saidOf (Read.nodes rs) := by
  induction spells with
  | nil => rfl
  | word w _ ih =>
      simp [ih (List.forall_mem_cons.1 hstrings).2, add_assoc]
  | node voiced _ ih =>
      obtain ⟨hfirst, hrest⟩ := List.forall_mem_append.1 hstrings
      simp [voiced hfirst, ih hrest, add_left_comm]

theorem Spells.mem {P : Role → Node → List Word → Prop} (spells : Spells P rs ws) {w : Word}
    (h : w ∈ Read.words rs) : w ∈ ws := by
  induction spells with
  | nil => exact h
  | word v _ ih => exact (List.mem_cons.1 h).elim (by rintro rfl; simp) fun h => List.mem_cons_of_mem _ (ih h)
  | node _ _ ih => exact List.mem_append_right _ (ih h)

theorem Listed.wordsIn_eq {α : Type} {reads : α → List Read} {xs : List α} (h : Listed reads xs rs)
    (hreads : ∀ x, wordsIn (Read.words (reads x)) = 0) : wordsIn (Read.words rs) = 0 := by
  induction h with
  | nil => rfl
  | last x => exact hreads x
  | cons x _ ih => simp +decide [hreads, ih]

/-- The words that a node is made of are those that it stands for itself. -/
theorem Production.wordsIn_eq {role : Role} {kind : Kind Node}
    (production : Production role kind rs) (hstrings : ∀ w ∈ Read.words rs, w.1 ≠ .str) :
    wordsIn (Read.words rs) = kind.saying := by
  cases production with
  | string text texts value => exact absurd rfl (hstrings (.str, text) (by simp))
  | keywordConstant h =>
      unfold keywordConstant? at h
      split at h <;> cases h <;> decide
  | tuple h | list h | set _ h | indices _ h | row _ h =>
      simp +decide [h.wordsIn_eq (fun _ => rfl), Kind.saying]
  | dict h => simp +decide [h.wordsIn_eq, pairReads, Kind.saying]
  | call h => simp +decide [h.wordsIn_eq, argumentReads, Kind.saying]
  | unaryOp operator | binOp _ _ operator => cases operator <;> rfl
  | @compare left rest hne =>
      have hoperator : ∀ operator : CompareOp,
          wordsIn operator.words = Text.words operator.symbol.toList := by
        intro operator
        cases operator <;> rfl
      clear hne hstrings
      rw [Kind.saying, Read.words]
      induction rest with
      | nil => rfl
      | cons step rest ih => simp [compareReads, hoperator, ih]
  | @boolOp operator first rest hne =>
      clear hne hstrings
      rw [Kind.saying, Read.words]
      induction rest with
      | nil => rfl
      | cons n rest ih => simpa [succ_nsmul, add_comm] using ih
  | ifExp => rfl
  | _ => simp +decide [Kind.saying, Constant.source]

theorem saidOf_perm {ns ns' : List Node} (h : ns.Perm ns') : saidOf ns = saidOf ns' :=
  (h.map Node.said).sum_eq

/-- What an expression is read from has the words that it stands for. -/
def voices (keep : Retention) : Account keep :=
  spellings keep (P := Voiced)
    (fun span production spells hstrings => by
      rw [Node.said_mk, saidOf_perm production.children_perm,
        ← production.wordsIn_eq fun w hw => hstrings w (spells.mem hw)]
      exact spells.wordsIn_eq hstrings)
    (fun spells hstrings => (spells.wordsIn_eq hstrings).trans (by simp +decide))
    (fun _ voiced => voiced)

/-- Only layout follows an expression that takes up the whole text. -/
theorem isLayout_of_skipNewlines {n : Nat} {c c' : Cursor} {done : Unit} (ended : c.Ended)
    (run : skipNewlines n c = .ok (done, c')) (hend : c'.atKind .endMarker = true) :
    ∀ w ∈ c.words, w.1.isLayout = true := by
  have hlast : c'.Ended → ∀ w ∈ c'.words, w.1.isLayout = true := by
    intro ended
    obtain ⟨text, htext⟩ := ended.words_eq (by simpa [Cursor.atKind] using hend)
    simp [htext, TokenKind.isLayout]
  induction n generalizing c with
  | zero =>
      simp only [skipNewlines, pure_ok] at run
      exact run.2 ▸ hlast (run.2 ▸ ended)
  | succ n ih =>
      simp [skipNewlines] at run
      rcases run with ⟨hkind, run⟩ | ⟨-, rfl⟩
      · replace hkind : c.current.kind = .newline := by simpa [Cursor.atKind] using hkind
        have hmore : c.current.kind ≠ .endMarker := by simp [hkind]
        rw [ended.words_advance hmore]
        refine List.forall_mem_cons.2 ⟨?_, ih (ended.advance hmore) run⟩
        simp [Lexeme.word, hkind, TokenKind.isLayout]
      · exact hlast ended

end Grammar

/-- The words in the comments among tokens. -/
def commentWords (tokens : List Token) : Multiset (List Char) :=
  wordsIn ((tokens.filter (·.kind = .comment)).map Token.word)

/-- An expression stands for all words of its text but those of comments. -/
theorem said_of_parseExpression {source : String} {e : Node} (h : parseExpression source = .ok e)
    (hquotes : ∀ c ∈ source.toList, c ≠ '"' ∧ c ≠ '\'') :
    ∃ tokens, tokenize source = .ok tokens ∧
      (Apart tokens → Text.words source.toList = e.said + commentWords tokens) := by
  obtain ⟨tokens, htokens, c', run⟩ := parseExpression_ok h
  refine ⟨tokens, htokens, fun apart => ?_⟩
  have laid := laid_of_tokenize htokens
  obtain ⟨hcode, ended⟩ := ended_of_tokenize htokens (.ofText source) rfl
  generalize Cursor.ofLexemes _ = c at run hcode ended
  simp [soleExpression] at run
  obtain ⟨-, middle, hexpression, ⟨_, hskip⟩, hend⟩ := run
  obtain ⟨ws, hwords, spells⟩ := accounts_anyTest (A := voices .full) hexpression ended
  have htoken : ∀ w ∈ ws ++ middle.words, ∃ t ∈ tokens, t.word = w := by
    intro w hw
    rw [← hwords, hcode] at hw
    obtain ⟨t, ht, rfl⟩ := List.mem_map.1 hw
    exact ⟨t, List.mem_of_mem_filter ht, rfl⟩
  have hstrings : ∀ w ∈ ws, w.1 ≠ .str := by
    intro w hw hkind
    obtain ⟨t, ht, rfl⟩ := htoken w (List.mem_append_left _ hw)
    obtain ⟨before, after, hsource, -⟩ := laid.cut t ht
    have hmem : ∀ c ∈ t.text.toList.getLast?, c ∈ source.toList := fun c hc => by
      simp [hsource, List.mem_of_getLast? hc]
    rcases (spelled_of_tokenize htokens t ht).string hkind with hlast | hlast
    · exact (hquotes _ (hmem _ hlast)).1 rfl
    · exact (hquotes _ (hmem _ hlast)).2 rfl
  have hrest : wordsIn middle.words = 0 := by
    refine wordsIn_eq_zero fun w hw => ?_
    have hlayout := isLayout_of_skipNewlines (ended.of_words hwords) hskip hend w hw
    obtain ⟨t, ht, rfl⟩ := htoken w (List.mem_append_right _ hw)
    exact laid.words_layout t ht hlayout
  have hsaid : wordsIn ws = e.said := spells_node_iff.1 spells hstrings
  have hparts : wordsIn (tokens.map Token.word) = wordsIn (codeWords tokens) +
      commentWords tokens := by
    have hperm := List.filter_append_perm (·.kind ≠ .comment) tokens
    rw [commentWords, ← wordsIn_append, codeWords, ← List.map_append]
    simpa [wordsIn] using ((hperm.map Token.word).map fun w => Text.words w.2.toList).sum_eq.symm
  rw [laid.words_eq apart, hparts, ← hcode, hwords, wordsIn_append, hsaid, hrest, add_zero]

/-! ### The words of a directive -/

namespace Text

theorem words_trimStart (cs : List Char) : words (trimStart cs) = words cs := by
  induction cs with
  | nil => rfl
  | cons c cs ih =>
      rw [trimStart, List.dropWhile_cons]
      split
      · next hc => rw [words_cons _ (isNamePart_of_isBlank hc), ← ih, trimStart]
      · rfl

theorem words_append_of_head (front : List Char) {back : List Char}
    (h : ∀ c ∈ back.head?, isNamePart c = false) :
    words (front ++ back) = words front + words back := by
  refine words_append fun _ => ?_
  cases back with
  | nil => rfl
  | cons c back => simpa using h c rfl

theorem words_trim (cs : List Char) : words (trim cs) = words cs := by
  obtain ⟨tail, htail, hblank⟩ := trimEnd_append (trimStart cs)
  have hwall : ∀ c ∈ tail, isNamePart c = false := fun c hc => isNamePart_of_isBlank (hblank c hc)
  rw [← words_trimStart cs, ← htail, words_append_of_head _ fun c hc => hwall c (List.mem_of_head? hc),
    words_eq_zero hwall, add_zero, trim]

/-- Texts with a space before each. -/
theorem words_flatMap_space {α : Type} (f : α → List Char) (xs : List α) :
    words (xs.flatMap fun x => ' ' :: f x) = (xs.map fun x => words (f x)).sum := by
  have hspace : isNamePart ' ' = false := by decide
  induction xs with
  | nil => exact words_nil
  | cons x xs ih =>
      rw [List.flatMap_cons, List.cons_append, words_cons _ hspace, words_append_of_head, ih,
        List.map_cons, List.sum_cons]
      cases xs <;> simp [hspace]

end Text

theorem words_afterKeywords? {glued : Bool} {keywords : List String} {rest : List Char}
    (h : afterKeywords? glued keywords cs = some rest) :
    Text.words cs = (keywords.map (Text.words ·.toList)).sum + Text.words rest := by
  induction keywords generalizing glued cs with
  | nil =>
      cases h
      simp
  | cons keyword keywords ih =>
      obtain ⟨-, later, htrim, hends, hlater⟩ := afterKeywords?_cons_eq_some.1 h
      rw [← Text.words_trimStart, htrim,
        Text.words_append_of_head _ (isNamePart_of_endsKeyword hends), ih hlater]
      simp [add_assoc]

/-- A text that a form fits has the words of its keywords and those of the text after them. -/
theorem words_recognize? {form : DirectiveForm} (hne : form.keywords ≠ []) {found : Recognized}
    (h : form.recognize? text = some found) :
    Text.words text = (form.keywords.map (Text.words ·.toList)).sum + Text.words found.rest := by
  obtain ⟨first, keywords, hkeywords⟩ := List.exists_cons_of_ne_nil hne
  obtain ⟨-, hmatch, -⟩ := DirectiveForm.recognize?_eq_some.1 h
  obtain ⟨later, hfirst, hlater⟩ := (DirectiveForm.match?_eq_some hkeywords).1 hmatch
  obtain ⟨after, hafter, hcolon⟩ := afterFirstKeyword?_eq_some.1 hfirst
  have hwall : (∀ c ∈ after.head?, Text.isNamePart c = false) ∧ Text.words after = Text.words later := by
    split at hcolon
    · subst hcolon
      have hwall : Text.isNamePart ':' = false := by decide
      exact ⟨by simpa using hwall, Text.words_cons _ hwall⟩
    · exact ⟨hcolon.1 ▸ isNamePart_of_endsKeyword hcolon.2, by rw [hcolon.1]⟩
  rw [← Text.words_trimStart, hafter, Text.words_append_of_head _ hwall.1, hwall.2,
    words_afterKeywords? hlater, hkeywords]
  simp [add_assoc]

theorem ClauseText.words_eq {list : List Clause} (h : ClauseText cs list) :
    Text.words cs = (list.map (Text.words ·.text.toList)).sum := by
  have hopen : Text.isNamePart '(' = false := by decide
  have hclose : Text.isNamePart ')' = false := by decide
  induction h with
  | nil => exact Text.words_nil
  | skip hc _ ih =>
      rw [Text.words_cons, ih]
      rcases hc with hc | rfl
      · exact Text.isNamePart_of_isBlank hc
      · decide
  | bare _ hcs _ ih =>
      rw [Text.words_append_of_head _ fun c hc => (hcs c hc).1, ih]
      simp [Clause.text]
  | @call name inner cs _ _ _ _ ih =>
      have hclause : Text.words (name.toList ++ '(' :: (Text.trim inner ++ [')'])) =
          Text.words name.toList + Text.words inner := by
        rw [Text.words_wall _ _ hopen, Text.words_wall _ _ hclose, Text.words_trim]
        simp
      rw [Text.words_wall _ _ hopen, Text.words_wall _ _ hclose, ih]
      simp [Clause.text, hclause, add_assoc]

/-- What is printed has the words of a text, but for those of comments in the part of the text that is
read as an expression. -/
def Reworded (part text printed : List Char) : Prop :=
  ∃ tokens, tokenize (String.ofList part) = .ok tokens ∧
    (Apart tokens → Text.words text = Text.words printed + commentWords tokens)

theorem reworded_nil {printed : List Char} (h : Text.words text = Text.words printed) :
    Reworded [] text printed :=
  ⟨[⟨.endMarker, "", 0, 0⟩], by decide +kernel, fun _ => h.trans (add_zero _).symm⟩

theorem reworded_expression {e : Node} (h : parsePayloadExpression text = .ok e)
    (hquotes : ∀ c ∈ text, c ≠ '"' ∧ c ≠ '\'') : Reworded text text e.lineText := by
  have hsaid := ((onLine_of_printable (printable_of_parsePayloadExpression h)).inline .tuple).words
  have hread : parseExpression (String.ofList text) = .ok e := by
    unfold parsePayloadExpression at h
    split at h <;> cases h
    assumption
  obtain ⟨tokens, htokens, hwords⟩ := said_of_parseExpression hread (by simpa using hquotes)
  exact ⟨tokens, htokens, fun apart => by simpa [Node.lineText, hsaid] using hwords apart⟩

/-- What is printed of a payload has all words of its text but those of comments in an expression. -/
theorem PayloadText.reworded {family : Family} {payload : Payload Node}
    (h : PayloadText family text payload) (hquotes : ∀ c ∈ text, c ≠ '"' ∧ c ≠ '\'') :
    Reworded (family.expressionPart text) text payload.printed := by
  have hspace : Text.isNamePart ' ' = false := by decide
  cases h with
  | verbatim hpart h =>
      rw [hpart]
      refine reworded_nil ?_
      rw [h.printed]
      split
      · next hempty => rw [hempty]
      · rw [Text.words_cons _ hspace]
  | clauses hpart h =>
      rw [hpart]
      exact reworded_nil (h.words_eq.trans (Text.words_flatMap_space _ _).symm)
  | condition hpart h =>
      obtain ⟨tokens, htokens, hwords⟩ := reworded_expression h hquotes
      rw [hpart]
      exact ⟨tokens, htokens, by rwa [Payload.printed, Text.words_cons _ hspace]⟩
  | @definition _ value hname hnone h =>
      set name := text.takeWhile (!Text.isBlank ·)
      have hquotes' : ∀ c ∈ Family.define.expressionPart text, c ≠ '"' ∧ c ≠ '\'' := fun c hc =>
        hquotes c ((List.dropWhile_suffix _).subset (List.mem_of_mem_drop (trim_subset _ hc)))
      have htext : Text.words text =
          Text.words name + Text.words (Family.define.expressionPart text) := by
        have hsplit : name ++ text.dropWhile (!Text.isBlank ·) = text := List.takeWhile_append_dropWhile
        have hblank := List.head?_dropWhile_not (!Text.isBlank ·) text
        rw [Family.expressionPart, Text.words_trim]
        conv_lhs => rw [← hsplit]
        cases hrest : text.dropWhile (!Text.isBlank ·) with
        | nil => simp
        | cons c rest =>
            rw [hrest] at hblank
            exact Text.words_wall _ _ (Text.isNamePart_of_isBlank (by simpa using hblank))
      cases value with
      | none =>
          rw [hnone rfl] at htext ⊢
          exact reworded_nil (by simpa [Payload.printed, Text.words_cons _ hspace] using htext)
      | some e =>
          obtain ⟨tokens, htokens, hwords⟩ := reworded_expression (h e rfl) hquotes'
          refine ⟨tokens, htokens, fun apart => ?_⟩
          rw [htext, hwords apart, Payload.printed, Text.words_cons _ hspace, Text.words_wall _ _ hspace,
            String.toList_ofList, add_assoc]

/-- The line of a directive has all words of the comment it was read from, but for those of comments
in its expression, unless a number in the expression goes on with a word. -/
theorem words_line {classifier : Classifier} {raw : String} {d : Directive Node}
    (h : classifier.classify raw = .ok (.directive d))
    (hquotes : ∀ c ∈ raw.toList, c ≠ '"' ∧ c ≠ '\'') (options : PageOptions) :
    ∃ rest tokens,
      classifier.recognize? raw.toList = some ⟨⟨d.family, d.keywords⟩, d.marker, rest⟩ ∧
      tokenize (String.ofList (d.family.expressionPart (Text.trim rest))) = .ok tokens ∧
      (Apart tokens → Text.words raw.toList =
        Text.words (d.line options).toList + commentWords tokens) := by
  obtain ⟨henabled, rest, hfound, hpayload⟩ := classify_eq_directive.1 h
  obtain ⟨⟨hform, -⟩, hown, -⟩ := recognize?_eq_some.1 hfound
  have hread := payloadText_of_parsePayload hpayload
  have hne := (orderly_directiveTable.words _ hform).1
  have hrecognized : classifier.recognize? raw.toList =
      some ⟨⟨d.family, d.keywords⟩, d.marker, rest⟩ := by
    rw [Classifier.recognize?, henabled]
    exact hfound
  obtain ⟨tokens, htokens, hwords⟩ := hread.reworded fun c hc =>
    hquotes c ((recognize?_some hrecognized).2 (trim_subset _ hc))
  refine ⟨rest, tokens, hrecognized, htokens, fun apart => ?_⟩
  have hlead := recognize?_lead hform (DirectiveForm.recognize?_eq_some.1 hown).2.2.2
    d.payload.isBlank_head_printed
  have hline : Text.words (d.line options).toList =
      (d.keywords.map (Text.words ·.toList)).sum + Text.words d.payload.printed := by
    rw [toList_line fun e he => render_lineText (hread.printable e he), Text.words_cons _ (by decide)]
    exact words_recognize? hne hlead
  rw [words_recognize? hne hown, hline, add_assoc, ← hwords apart, Text.words_trim]

theorem exists_directive (raw line : String) (hline : line ≠ "")
    (h : (Classifier.standard.classify raw).map
      (Trivia.rec (fun _ => "") fun d => d.line .standard) = .ok line) :
    ∃ d, Classifier.standard.classify raw = .ok (.directive d) ∧ d.line .standard = line := by
  obtain ⟨trivia, htrivia, hshown⟩ := exists_of_map_ok h
  cases trivia with
  | comment => exact absurd hshown.symm hline
  | directive d => exact ⟨d, htrivia, hshown⟩

theorem words_line_commented :
    let raw := " def: f\tg(x, 1)[a:b].y is not (c)  # h"
    ∃ d, Classifier.standard.classify raw = .ok (.directive d) ∧
      d.line .standard = "# def: f g(x, 1)[a:b].y is not c" ∧ ∃ rest tokens,
      Classifier.standard.recognize? raw.toList = some ⟨⟨d.family, d.keywords⟩, d.marker, rest⟩ ∧
      tokenize (String.ofList (d.family.expressionPart (Text.trim rest))) = .ok tokens ∧
      (Apart tokens → Text.words raw.toList =
        Text.words (d.line .standard).toList + commentWords tokens) := by
  intro raw
  obtain ⟨d, hd, hline⟩ := exists_directive raw "# def: f g(x, 1)[a:b].y is not c" (by decide)
    (by decide +kernel)
  exact ⟨d, hd, hline, words_line hd (by simp [raw]) .standard⟩

/-- A comment after a condition is not printed. -/
theorem comment_not_printed :
    ∃ raw d, Classifier.standard.classify raw = .ok (.directive d) ∧
      (∀ c ∈ raw.toList, c ∉ ['\n', '\r', '"', '\'', '\\']) ∧
      Text.words (d.line .standard).toList ≠ Text.words raw.toList := by
  obtain ⟨d, hd, hline⟩ := exists_directive "if x # c" "#if x" (by decide) (by decide +kernel)
  refine ⟨_, d, hd, by simp, ?_⟩
  rw [hline]
  decide

end TriviaTree
