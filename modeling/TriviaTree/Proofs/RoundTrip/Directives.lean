import Mathlib
import TriviaTree.Proofs.Directive.Lines
import TriviaTree.Proofs.RoundTrip.Rereading

/-!
Printed directives, read again.

A condition or a macro is printed on one line that ends with its expression. The scanner reads such
a text to its end (`scanned_line`): the last word needs nothing after it, since a comment could stand
there and be deleted. So the expression is what the text is read as (`parseExpression_text`), and what
the directive says is read from its payload (`parsePayload_printed`).
-/

set_option autoImplicit false

namespace TriviaTree

open Grammar Piece

/-! ### A line that ends with the text -/

/-- A word that ends before a comment ends with the text, too. -/
theorem Ends.scans_last {kind : TokenKind} {text : String} (h : Ends kind text '#')
    (hspelled : (Piece.word kind text).Spelled) {s : ScanState} {depth : Nat} {indents : List Nat}
    (hs : Inside s text.toList depth indents) :
    ∃ s', Scans s [(kind, text)] s' ∧ s'.rest = [] ∧ s'.lineOpen = true ∧ s'.indents = indents := by
  -- the word is read beside a scanner for which a comment follows it
  let commented : ScanState := { s with rest := text.toList ++ ['#'] }
  let starts (offset : Nat) : Bool := offset = s.offset + Text.byteSize text.toList
  have hbefore : ∀ o, s.offset ≤ o → o < s.offset + Text.byteSize text.toList → starts o = false :=
    fun o _ hlt => decide_eq_false hlt.ne
  have hdeleted : ∀ offset, starts offset = true → deleteComments starts offset false ['#'] = [] := by
    intro offset hstarts
    simp [deleteComments, hstarts, Token.isBreak]
  have beside : Beside starts commented s := by
    refine ⟨?_, rfl, rfl, rfl, rfl⟩
    rw [hs.rest, deleteComments_append hbefore, hdeleted _ (decide_eq_true rfl), List.append_nil]
  have marks : Marks starts commented.offset commented.rest := by
    refine ⟨fun before c after hsplit hstarts => ?_, fun before line after hsplit _ => ?_⟩
    · have hsize : Text.byteSize before = Text.byteSize text.toList := by
        simpa [starts, commented] using hstarts
      have hdrop := congrArg (Text.dropBytes (Text.byteSize before)) hsplit
      rw [Text.dropBytes_byteSize_append, hsize, Text.dropBytes_byteSize_append] at hdrop
      exact (List.cons.inj (Option.some.inj hdrop.symm)).1
    · have hmem : '\n' ∈ text.toList ++ ['#'] := by
        rw [show text.toList ++ ['#'] = _ from hsplit]
        simp
      have hword : '\n' ∈ text.toList := by simpa using hmem
      exact absurd (hspelled.2.1 _ hword) (by decide)
  have hstep := h commented [] rfl hs.lineStart
  have hcomments : CommentsBetween starts commented.offset
      (commented.offset + Text.byteSize text.toList) [commented.tokenHere kind text.toList] := by
    intro o hle hlt
    simp [hbefore o hle hlt, ScanState.tokenHere, hspelled.1]
  rcases beside_step beside marks hcomments hstep with ⟨-, hnone⟩ | ⟨found, s', hfound, hbeside, hwords⟩
  · rw [codeWords_word hspelled.1] at hnone
    cases hnone
  · rw [codeWords_word hspelled.1] at hwords
    refine ⟨s', ?_, hbeside.rest.trans (hdeleted _ (decide_eq_true rfl)), hbeside.lineOpen,
      hbeside.indents.trans hs.indents⟩
    have hscans := Scans.of_step hfound
    rw [hwords] at hscans
    simpa [Token.word, ScanState.tokenHere] using hscans

theorem scanned_line (options : PageOptions) (level : Nat) (fresh : Bool) {ps : List Piece}
    (h : NeatLine ps) : Scanned (.start (Piece.text options level fresh ps))
      (ps.flatMap found ++ [(.newline, ""), (.endMarker, "")]) := by
  obtain ⟨c, cs, htext, hc, -⟩ := head_line options level fresh h
  have hs : AtLine (.start (c :: cs)) (Page.spaces (0 * 1) ++ c :: cs) (blockWidths 1 0) :=
    atLine_start (c :: cs) 1
  obtain ⟨s₁, hstart, hs₁⟩ := scans_indentation le_rfl (Nat.zero_le _) hc hs
  rw [← htext] at hstart hs₁
  obtain ⟨front, kind, text, rfl⟩ := h.last_word
  obtain ⟨fresh', hconcat⟩ := text_concat options level fresh front (.word kind text)
  have hspelled := h.1.spelled (.word kind text) (by simp)
  obtain ⟨hfront, -, hlink⟩ := List.isChain_append.1 h.1.linked
  obtain ⟨d, hd, -⟩ := hspelled.2.2.head
  obtain ⟨ds, hds⟩ := List.head?_eq_some_iff.1 hd
  have hpasses : Passes (Piece.text options level fresh front) (front.flatMap found) text.toList 0
      (depthAfter front 0) := by
    rw [hds]
    refine passes_pieces options level (fun p hp => h.1.spelled p (by simp [hp])) hfront
      (fun p hp => hlink p hp _ rfl d (by simp [firsts, hds])) ?_ fresh
    exact (sheltered_append.1 (h.1.sheltered 0 le_rfl)).1
  rw [hconcat] at hs₁
  obtain ⟨s₂, hscans, hs₂⟩ := hpasses s₁ _ hs₁
  have hends : Ends kind text '#' :=
    h.1.ends (.word kind text) (by simp) '#' (by decide)
  obtain ⟨s₃, hlast, hrest, hopen, hindents⟩ := hends.scans_last hspelled hs₂
  have hclosing : Scanned s₃ [(.newline, ""), (.endMarker, "")] := by
    refine ⟨s₃.closing, ?_, fun done => scan_of_step_none (ScanState.step_end hrest)⟩
    simp [ScanState.closing, hopen, hindents, blockWidths, Token.word, ScanState.tokenHere]
  have hall := hstart.scanned (hscans.scanned (hlast.scanned hclosing))
  simpa [blockWords, found] using hall

/-! ### Expressions that take up a text -/

theorem reads_soleExpression {ws : List Word} {good : Node → Prop}
    (h : Reads (anyTest .full) ws (Stops .test) good) (hbegins : First (·.Begins .test) ws) :
    Reads soleExpression (ws ++ [(.newline, "")]) (· = (.endMarker, "")) good := by
  have hskip : Reads (bounded skipNewlines) [(.newline, "")] (· = (.endMarker, "")) fun _ => True := by
    refine .bounded fun fuel hfuel => ?_
    obtain ⟨fuel, rfl⟩ : ∃ k, fuel = k + 2 := ⟨fuel - 2, by simp at hfuel; omega⟩
    refine .ifTrue (sees_kind fun _ _ => rfl) (.skip (.ifFalse (sees_notKind ?_) (.pure trivial)))
    rintro _ rfl
    decide
  have hstart : Sees (atKind .endMarker) (ws ++ [(.newline, "")]) (· = (.endMarker, "")) false := by
    refine sees_notKind fun w _ hend => ?_
    have hword := (hbegins.append [(.newline, "")]).headD w
    generalize List.headD _ w = first at hword hend
    obtain ⟨kind, text⟩ := first
    obtain rfl : kind = .endMarker := hend
    exact hword
  have hstop : Stops .test (.newline, "") := by decide
  unfold soleExpression
  refine .ifFalse hstart (h.bind (fun a ha => ?_) fun _ _ => hstop)
  refine hskip.andThen (fun _ _ => ?_) fun _ hw => hw
  exact .unlessTrue (sees_kind fun w hw => by rw [hw]; rfl) (.pure ha)

theorem Dressed.neatLine (detail : Detail) {e : Node} (h : Dressed .whole e) :
    NeatLine (e.pieces detail .tuple) :=
  have ⟨hneat, hne⟩ := NeatPart.closed (neat_pieces detail h) .tuple
  ⟨hneat.mono (fun _ => And.left) fun _ => id, hne⟩

/-- An expression is read from its text, when that is all there is. -/
theorem parseExpression_text (options : PageOptions) (level : Nat) (fresh : Bool) (detail : Detail)
    {e : Node} (h : Dressed .whole e) :
    ∃ a, parseExpression (String.ofList (Piece.text options level fresh (e.pieces detail .tuple))) =
      .ok a ∧ e.SameCode a := by
  have hline := h.neatLine detail
  obtain ⟨tokens, hwords, hscan⟩ := scanned_line options level fresh hline
  have htokenize : tokenize (String.ofList (Piece.text options level fresh (e.pieces detail .tuple))) =
      .ok tokens := by
    rw [tokenize_eq_ok, String.toList_ofList]
    exact hscan []
  have hcode : codeWords tokens = words (e.pieces detail .test) ++ [(.newline, "")] ++
      [(.endMarker, "")] := by
    rw [codeWords_eq_filter, hwords, List.filter_append, filter_found hline.1.spelled, pieces_tuple]
    simp
  have hreads : ReadsAs .full detail e := readsPart .full detail h
  obtain ⟨hcursor, -⟩ := ended_of_tokenize htokenize (.ofText _) rfl
  obtain ⟨a, c', hrun, ha, -⟩ := reads_soleExpression hreads.anyTest (hreads.begins .test) _ _ []
    (hcursor.trans hcode) rfl
  refine ⟨a, ?_, ha⟩
  rw [parseExpression, lexemes, htokenize]
  exact run'_ok.2 ⟨c', hrun⟩

/-! ### Payloads -/

/-- What a condition or a macro says, when it can be printed. -/
inductive PrintablePayload : Family → Payload Node → Prop
  | condition {family : Family} {e : Node} (hfamily : family = .cond ∨ family = .elif)
      (he : Printable true .whole e) : PrintablePayload family (.expression e)
  | definition {name : String} {value : Option Node} (hname : Text.isIdentifier name.toList = true)
      (hvalue : ∀ e ∈ value, Printable true .whole e) :
      PrintablePayload .define (.definition name value)

theorem Printable.dressed {e : Node} (h : Printable true .whole e) : Dressed .whole e := by
  have plain := h.isCode.plain
  exact dressed_of_strip e plain.trimmed .whole (by rwa [plain.strip_eq])

section Expression

variable {e : Node} (h : Printable true .whole e)
include h

/-- On the line of a directive an expression has no trivia to be written among its words. -/
theorem text_eq_lineText (options : PageOptions) :
    Piece.text options 0 false (e.pieces .trivia .tuple) = e.lineText := by
  have hline := h.dressed.neatLine .trivia
  have hready : ∀ p ∈ (e.pieces .trivia .tuple).head?, (Page.blank options).Ready false p := by
    intro p hp hremark
    have hstarts := hline.1.starts p hp
    cases p <;> cases hremark
    exact absurd rfl (hstarts '#' (by simp [firsts])).2.2
  have hwritten := (written_putAll hline.1.spelled hline.1.linked hready).1
  rw [((onLine_of_printable h).inline .tuple).puts] at hwritten
  simpa [Page.blank, Page.write, Node.lineText] using hwritten.symm

theorem isTight_expression : Text.IsTight e.lineText := by
  have hline := h.dressed.neatLine .trivia
  rw [← text_eq_lineText h .standard]
  obtain ⟨c, cs, htext, -, hblank⟩ := head_line .standard 0 false hline
  obtain ⟨d, hd, hblank', -⟩ := last_line .standard 0 false hline
  exact ⟨⟨c, by simp [htext], hblank⟩, d, hd, hblank'⟩

theorem parsePayloadExpression_text :
    ∃ a, parsePayloadExpression e.lineText = .ok a ∧ e.SameCode a := by
  obtain ⟨a, hparse, hcode⟩ := parseExpression_text .standard 0 false .trivia h.dressed
  rw [text_eq_lineText h] at hparse
  exact ⟨a, by rw [parsePayloadExpression, hparse], hcode⟩

end Expression

/-- A macro's name ends at the blank after it. -/
theorem splitName {name : List Char} (h : Text.isIdentifier name = true) (rest : List Char)
    (hrest : ∀ c ∈ rest.head?, Text.isBlank c = true) :
    (name ++ rest).takeWhile (!Text.isBlank ·) = name ∧
      (name ++ rest).dropWhile (!Text.isBlank ·) = rest := by
  have hname : ∀ c ∈ name, (!Text.isBlank c) = true := fun c hc => by
    rw [Text.isBlank_of_isNamePart (isNamePart_of_mem h c hc)]
    rfl
  have hstop : rest.takeWhile (!Text.isBlank ·) = [] ∧ rest.dropWhile (!Text.isBlank ·) = rest := by
    cases rest with
    | nil => exact ⟨rfl, rfl⟩
    | cons c cs => simp [hrest c rfl]
  rw [List.takeWhile_append_of_pos hname, List.dropWhile_append_of_pos hname, hstop.1, hstop.2]
  simp

/-- What a condition or a macro says is read from what is printed of it. -/
theorem parsePayload_printed {family : Family} {payload : Payload Node}
    (h : PrintablePayload family payload) :
    ∃ read, parsePayload family (Text.trim payload.printed) = .ok read ∧
      read.map Node.eraseSpans = payload.map Node.eraseSpans := by
  have hsame : ∀ {e a : Node}, Printable true .whole e → e.SameCode a →
      a.eraseSpans = e.eraseSpans := by
    intro e a he hcode
    rw [hcode, he.isCode.plain.strip_eq]
  cases h with
  | @condition family e hfamily he =>
      have htight := isTight_expression he
      obtain ⟨a, hread, hcode⟩ := parsePayloadExpression_text he
      refine ⟨.expression a, ?_, congrArg Payload.expression (hsame he hcode)⟩
      rw [Payload.printed, Text.trim_space, htight.trim_eq]
      rcases hfamily with rfl | rfl <;> rw [parsePayload, htight.isEmpty, hread] <;> rfl
  | @definition name value hname hvalue =>
      have hname' : Text.IsTight name.toList := by
        obtain ⟨c, cs, hcs, -⟩ := head_isIdentifier hname
        exact Text.isTight_of_forall (by simp [hcs]) fun c hc =>
          Text.isBlank_of_isNamePart (isNamePart_of_mem hname c hc)
      cases value with
      | none =>
          obtain ⟨htake, hdrop⟩ := splitName hname [] (by simp)
          rw [List.append_nil] at htake hdrop
          refine ⟨.definition name none, ?_, rfl⟩
          rw [Payload.printed, Text.trim_space, hname'.trim_eq]
          simp [parsePayload, parseDefinition, htake, hdrop, hname, Text.trim, Text.trimStart,
            Text.trimEnd]
      | some e =>
          have he := hvalue e rfl
          have htight := isTight_expression he
          obtain ⟨a, hread, hcode⟩ := parsePayloadExpression_text he
          obtain ⟨htake, hdrop⟩ := splitName hname (' ' :: e.lineText) (by simp; decide)
          refine ⟨.definition name (some a), ?_, ?_⟩
          · rw [Payload.printed, Text.trim_space, (hname'.append_cons htight ' ').trim_eq]
            simp [parsePayload, parseDefinition, htake, hdrop, hname, htight.trim_eq, htight.isEmpty,
              hread, Except.map]
          · exact congrArg (Payload.definition name ∘ some) (hsame he hcode)

theorem PrintablePayload.printable {family : Family} {payload : Payload Node}
    (h : PrintablePayload family payload) : family ∈ [.cond, .elif, .define] ∧
      ∀ e ∈ payload.expressions, Printable true .whole e := by
  cases h with
  | condition hfamily he =>
      exact ⟨by rcases hfamily with rfl | rfl <;> decide, by simpa [Payload.expressions] using he⟩
  | definition _ hvalue =>
      exact ⟨by decide, fun e he => hvalue e (by simpa [Payload.expressions] using he)⟩

/-- The line of a condition or of a macro is classified as the directive it was printed from. -/
theorem classify_line {d : Directive Node} (hpayload : PrintablePayload d.family d.payload)
    (hform : ⟨d.family, d.keywords⟩ ∈ directiveTable)
    (hmarker : d.marker.padded = true → d.marker.colon = true) (options : PageOptions) :
    ∃ read, Classifier.standard.classify (String.ofList ((d.line options).toList.drop 1)) =
        .ok (.directive read) ∧
      (⟨.directive read, none⟩ : Node).eraseSpans = (⟨.directive d, none⟩ : Node).eraseSpans := by
  obtain ⟨hfamily, hprintable⟩ := hpayload.printable
  obtain ⟨payload, hread, hsame⟩ := parsePayload_printed hpayload
  have hline : (d.line options).toList = '#' :: (d.marker.lead d.keywords ++ d.payload.printed) :=
    toList_line fun e he => render_lineText (hprintable e he)
  -- no keyword sequence continues that of a condition or of a macro
  have hlast : ∀ form ∈ directiveTable, form.family ∈ [.cond, .elif, .define] →
      ∀ form' ∈ directiveTable, form.keywords <+: form'.keywords →
        form'.keywords.length ≤ form.keywords.length := by decide +kernel
  have hall : ∀ family : Family, family ∈ Classifier.standard.families := by
    intro family
    cases family <;> decide
  refine ⟨{ d with payload := payload }, ?_, ?_⟩
  · refine (classify_line_iff rfl hform (hall _) hmarker hline
      d.payload.isBlank_head_printed).2 ⟨?_, hread⟩
    intro form hmem _ more hmore hkeywords
    have hlength := hlast _ hform hfamily form hmem ⟨more, hkeywords.symm⟩
    simp only [hkeywords, List.length_append] at hlength
    exact absurd (List.length_eq_zero_iff.1 (by omega)) hmore
  · rw [Node.eraseSpans_eq, Node.eraseSpans_eq]
    simp [Kind.mapAll, Kind.withContents, Kind.withPayload, Kind.payload, hsame]

theorem classify_line_macro :
    let code (kind : Kind Node) : Node := ⟨kind, none⟩
    let call := code (.call (code (.name "f")) [code (.starred (code (.name "a")))] [])
    let slice := code (.slice (some (code (.constant (.int "1")))) none none)
    let value := code (.binOp (code (.subscript call slice)) .add (code (.constant (.str "#\n"))))
    let d : Directive Node := ⟨.define, ["def"], .definition "if" (some value), ⟨true, true⟩⟩
    PrintablePayload d.family d.payload ∧ d.line .standard = "# def: if f(*a)[1:] + '#\\n'" ∧
      ∃ read, Classifier.standard.classify (String.ofList ((d.line .standard).toList.drop 1)) =
          .ok (.directive read) ∧
        (⟨.directive read, none⟩ : Node).eraseSpans = (⟨.directive d, none⟩ : Node).eraseSpans := by
  intro code call slice value d
  have hone : (Constant.int "1").IsSpelled := ⟨⟨'1', [], by decide, .inl (by decide)⟩, by decide⟩
  have hcall : Printable true .whole call := by
    refine .call (.name ⟨by decide, by decide⟩) ?_ (by simp)
    simpa using Printable.starred (.name ⟨by decide, by decide⟩)
  have hslice : Printable true .index slice :=
    .slice (by simpa using .constant hone) (by simp) (by simp)
  have hvalue : Printable true .whole value :=
    .binOp (.subscript hcall (.single hslice (by simp [slice, code]))) (.constant trivial)
  have hpayload : PrintablePayload d.family d.payload :=
    .definition (by decide) (by simpa using hvalue)
  exact ⟨hpayload, by decide +kernel, classify_line hpayload (by decide) (by decide) .standard⟩

end TriviaTree
