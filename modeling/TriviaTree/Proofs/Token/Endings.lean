import Mathlib
import TriviaTree.Proofs.Grammar.Words
import TriviaTree.Proofs.Text.Literal
import TriviaTree.Proofs.Token.Sequence

/-!
Where a printed word ends.

`Ends kind text next` says that a scanner which stands before `text`, with the character `next`
after it, reads exactly `text` as a token of the kind `kind`. There is one lemma for names, one for
numbers, one for strings and one for operators; what is asked of `next` is only that it does not
carry the word on. No character of a name, a number or an operator is a blank.
-/

set_option autoImplicit false

namespace TriviaTree

variable {c : Char} {symbol : String} {p : Char → Bool}

/-- The number of open brackets after a word. -/
def Word.depth : Word → Nat → Nat
  | (.op, symbol), depth => ScanState.depthAfter symbol depth
  | _, depth => depth

/-- A scanner that stands before `text`, with `next` after it, reads `text` as one token. -/
def Ends (kind : TokenKind) (text : String) (next : Char) : Prop :=
  ∀ (s : ScanState) (tail : List Char), s.rest = text.toList ++ next :: tail →
    s.lineStart = false →
    s.step = .ok (some ([s.tokenHere kind text.toList],
      { s.skip text.toList (next :: tail) with
        lineOpen := true, depth := Word.depth (kind, text) s.depth }))

namespace Token

theorem splitWhile_append_cons {cs tail : List Char} {next : Char} (hnext : p next = false) :
    splitWhile p (cs ++ next :: tail) =
      ((splitWhile p cs).1, (splitWhile p cs).2 ++ next :: tail) := by
  induction cs with
  | nil => simp [splitWhile, hnext]
  | cons c cs ih =>
      simp only [splitWhile, Prod.mk.injEq] at ih
      by_cases hc : p c = true <;> simp [splitWhile, hc, ih]

theorem splitWhile_of_all {cs : List Char} (h : cs.all p = true) : splitWhile p cs = (cs, []) := by
  rw [List.all_eq_true] at h
  simp only [splitWhile, Prod.mk.injEq]
  exact ⟨List.takeWhile_eq_self_iff.2 h, List.dropWhile_eq_nil_iff.2 h⟩

end Token

/-! ### Names -/

theorem isDigit_of_isNameStart (h : Text.isNameStart c = true) : c.isDigit = false := by
  by_contra hdigit
  obtain ⟨hlow, hhigh⟩ : 48 ≤ c.toNat ∧ c.toNat ≤ 57 := by
    simpa [Char.isDigit, UInt32.le_iff_toNat_le] using hdigit
  rw [← Char.ofNat_toNat c] at h
  interval_cases c.toNat <;> revert h <;> decide

/-- A name is none of the characters that something else begins with. -/
theorem ne_of_isNameStart {d : Char} (h : Text.isNameStart c = true)
    (hd : Text.isNameStart d = false) : c ≠ d := by
  rintro rfl
  rw [h] at hd
  cases hd

theorem ends_name {text : String} {next : Char} (h : Text.isIdentifier text.toList = true)
    (hnext : Text.isNamePart next = false) : Ends .name text next := by
  intro s tail hrest hstart
  obtain ⟨c, cs, hcs⟩ : ∃ c cs, text.toList = c :: cs := by
    cases hcs : text.toList with
    | nil => simp [hcs, Text.isIdentifier] at h
    | cons c cs => exact ⟨c, cs, rfl⟩
  rw [hcs] at hrest h ⊢
  simp only [Text.isIdentifier, Bool.and_eq_true] at h
  obtain ⟨hc, hcs'⟩ := h
  have hsplit : Token.splitWhile Text.isNamePart (c :: (cs ++ next :: tail)) =
      (c :: cs, next :: tail) := by
    have hall : (c :: cs).all Text.isNamePart = true := by
      rw [List.all_cons, Text.isNamePart_of_isNameStart hc, hcs']
      rfl
    rw [← List.cons_append, Token.splitWhile_append_cons hnext, Token.splitWhile_of_all hall]
    rfl
  have hne := fun d hd => ne_of_isNameStart (d := d) hc hd
  rw [ScanState.step, hrest]
  simp only [List.cons_append, hstart, ScanState.lexeme, Token.isIndentation, Token.isBreak,
    hne ' ' (by decide), hne '\t' (by decide), hne '\x0c' (by decide), hne '\r' (by decide),
    hne '\n' (by decide), hne '\\' (by decide), hne '#' (by decide), hne '"' (by decide),
    hne '\'' (by decide), hne '.' (by decide), isDigit_of_isNameStart hc, hc, hsplit]
  rfl

/-! ### Numbers -/

/-- A character that cannot carry on a number, unless it is a point. -/
structure AfterNumber (next : Char) : Prop where
  alphanum : next.isAlphanum = false
  underscore : next ≠ '_'
  plus : next ≠ '+'
  minus : next ≠ '-'

namespace AfterNumber

variable {next : Char}

theorem isDigit (h : AfterNumber next) : next.isDigit = false := by
  have := h.alphanum
  simp only [Char.isAlphanum, Bool.or_eq_false_iff] at this
  exact this.2

theorem isDigitPart (h : AfterNumber next) : Token.isDigitPart next = false := by
  simp [Token.isDigitPart, h.isDigit, h.underscore]

theorem ne_letter (h : AfterNumber next) (hc : c.isAlphanum = true) : next ≠ c := by
  rintro rfl
  rw [h.alphanum] at hc
  cases hc

end AfterNumber

namespace Token

variable {cs tail : List Char} {next : Char}

theorem splitFraction_append_cons (h : AfterNumber next) (hpoint : cs = [] → next ≠ '.') :
    splitFraction (cs ++ next :: tail) =
      ((splitFraction cs).1, (splitFraction cs).2 ++ next :: tail) := by
  match cs with
  | [] =>
      rw [List.nil_append, splitFraction]
      · rfl
      · exact fun _ hcons => hpoint rfl (List.cons.inj hcons).1
  | c :: cs =>
      by_cases hc : c = '.'
      · subst hc
        simp only [List.cons_append, splitFraction, splitWhile_append_cons h.isDigitPart]
      · have hplain : ∀ ds, splitFraction (c :: ds) = ([], c :: ds) := by
          intro ds
          rw [splitFraction]
          exact fun _ hcons => hc (List.cons.inj hcons).1
        rw [List.cons_append, hplain, hplain]
        rfl

theorem splitExponent_append_cons (h : AfterNumber next) :
    splitExponent (cs ++ next :: tail) =
      ((splitExponent cs).1, (splitExponent cs).2 ++ next :: tail) := by
  have hmark := h.ne_letter (c := 'e') (by decide)
  have hMark := h.ne_letter (c := 'E') (by decide)
  match cs with
  | [] => cases tail <;> simp [splitExponent, hmark, hMark]
  | [mark] => simp [splitExponent, h.isDigit, h.plus, h.minus]
  | mark :: sign :: cs =>
      have hhead : ((cs ++ next :: tail).head?.any Char.isDigit) = cs.head?.any Char.isDigit := by
        cases cs <;> simp [h.isDigit]
      have hlong : splitWhile Char.isDigit (sign :: (cs ++ next :: tail)) =
          ((splitWhile Char.isDigit (sign :: cs)).1,
            (splitWhile Char.isDigit (sign :: cs)).2 ++ next :: tail) := by
        rw [← List.cons_append, splitWhile_append_cons h.isDigit]
      simp only [List.cons_append, splitExponent, hhead, hlong, splitWhile_append_cons h.isDigit]
      split
      · split
        · rfl
        · split <;> rfl
      · rfl

theorem splitImaginary_append_cons (h : AfterNumber next) :
    splitImaginary (cs ++ next :: tail) =
      ((splitImaginary cs).1, (splitImaginary cs).2 ++ next :: tail) := by
  have hj := h.ne_letter (c := 'j') (by decide)
  have hJ := h.ne_letter (c := 'J') (by decide)
  cases cs with
  | nil => simp [splitImaginary, hj, hJ]
  | cons c cs =>
      simp only [List.cons_append, splitImaginary]
      split <;> rfl

theorem splitDecimal_append_cons (h : AfterNumber next)
    (hpoint : (splitDecimal cs).1 = .int → next ≠ '.') :
    splitDecimal (cs ++ next :: tail) =
      ((splitDecimal cs).1, (splitDecimal cs).2.1, (splitDecimal cs).2.2 ++ next :: tail) := by
  have hfraction : splitFraction ((splitWhile isDigitPart cs).2 ++ next :: tail) =
      ((splitFraction (splitWhile isDigitPart cs).2).1,
        (splitFraction (splitWhile isDigitPart cs).2).2 ++ next :: tail) := by
    refine splitFraction_append_cons h fun hnil => hpoint ?_
    simp [splitDecimal, hnil, splitFraction, splitExponent, splitImaginary]
  simp only [splitDecimal, splitWhile_append_cons h.isDigitPart, hfraction,
    splitExponent_append_cons h, splitImaginary_append_cons h]

theorem splitNumber_append_cons (h : AfterNumber next)
    (hpoint : (splitNumber cs).1 = .int → next ≠ '.') :
    splitNumber (cs ++ next :: tail) =
      ((splitNumber cs).1, (splitNumber cs).2.1, (splitNumber cs).2.2 ++ next :: tail) := by
  by_cases hbase : ∃ base rest, cs = '0' :: base :: rest ∧ isBaseLetter base = true
  · obtain ⟨base, rest, rfl, hbase⟩ := hbase
    rw [List.cons_append, List.cons_append, splitNumber_of_base hbase, splitNumber_of_base hbase,
      splitWhile_append_cons (by simp [h.alphanum, h.underscore])]
  · push Not at hbase
    have hplain : splitNumber cs = splitDecimal cs :=
      splitNumber_of_not_base fun base rest hcs => by simpa using hbase base rest hcs
    rw [hplain] at hpoint ⊢
    rw [splitNumber_of_not_base, splitDecimal_append_cons h hpoint]
    intro base rest hcons
    match cs with
    | [] => exact absurd (List.cons.inj hcons).1 (h.ne_letter (by decide))
    | [c] =>
        obtain rfl : next = base := (List.cons.inj (List.cons.inj hcons).2).1
        by_contra hnext
        simp only [isBaseLetter, List.contains_iff_mem, List.mem_cons, List.not_mem_nil,
          Bool.not_eq_false, or_false] at hnext
        rcases hnext with rfl | rfl | rfl | rfl | rfl | rfl <;>
          exact absurd h.alphanum (by decide)
    | c :: b :: ds =>
        have hds : c :: b :: ds = '0' :: base :: ds := by
          rw [(List.cons.inj hcons).1, (List.cons.inj (List.cons.inj hcons).2).1]
        simpa using hbase base ds hds

end Token

theorem Token.isBreak_eq_false (hp : p c = true) (hreturn : p '\r' = false)
    (hfeed : p '\n' = false) : isBreak c = false := by
  by_contra hbreak
  rw [Bool.not_eq_false, isBreak, Bool.or_eq_true, decide_eq_true_eq, decide_eq_true_eq] at hbreak
  rcases hbreak with rfl | rfl
  · rw [hreturn] at hp
    cases hp
  · rw [hfeed] at hp
    cases hp

/-- The characters that numbers are spelled with. -/
def Token.isNumeral (c : Char) : Bool :=
  c.isAlphanum || c = '_' || c = '.' || c = '+' || c = '-'

theorem Token.splitNumber_numeral (cs : List Char) :
    ∀ c ∈ (splitNumber cs).2.1, isNumeral c = true := by
  have hdigit : ∀ c : Char, c.isDigit = true → isNumeral c = true := fun c hc => by
    simp [isNumeral, Char.isAlphanum, hc]
  have hpart : ∀ ds, ∀ c ∈ (splitWhile isDigitPart ds).1, isNumeral c = true := by
    intro ds c hc
    have hc := List.mem_takeWhile_imp hc
    rw [isDigitPart, Bool.or_eq_true, decide_eq_true_eq] at hc
    rcases hc with hc | rfl
    · exact hdigit c hc
    · rfl
  have hdigits : ∀ ds, ∀ c ∈ (splitWhile Char.isDigit ds).1, isNumeral c = true :=
    fun _ c hc => hdigit c (List.mem_takeWhile_imp hc)
  have hfraction : ∀ ds, ∀ c ∈ (splitFraction ds).1, isNumeral c = true := by
    intro ds c hc
    unfold splitFraction at hc
    split at hc
    · rcases List.mem_cons.1 hc with rfl | hc
      · rfl
      · exact hpart _ c hc
    · cases hc
  have hexponent : ∀ ds, ∀ c ∈ (splitExponent ds).1, isNumeral c = true := by
    intro ds c hc
    unfold splitExponent at hc
    split at hc
    · split at hc
      · next mark _ _ hmark =>
        have hmark : isNumeral mark = true := by
          rw [Bool.or_eq_true, decide_eq_true_eq, decide_eq_true_eq] at hmark
          rcases hmark with rfl | rfl <;> rfl
        split at hc
        · rcases List.mem_cons.1 hc with rfl | hc
          · exact hmark
          · exact hdigits _ c hc
        · split at hc
          · next hsign =>
            rw [Bool.and_eq_true, Bool.or_eq_true, decide_eq_true_eq, decide_eq_true_eq] at hsign
            rcases List.mem_cons.1 hc with rfl | hc
            · exact hmark
            · rcases List.mem_cons.1 hc with rfl | hc
              · rcases hsign.1 with rfl | rfl <;> rfl
              · exact hdigits _ c hc
          · cases hc
      · cases hc
    · cases hc
  have himaginary : ∀ ds, ∀ c ∈ (splitImaginary ds).1, isNumeral c = true := by
    intro ds c hc
    unfold splitImaginary at hc
    split at hc
    · split at hc
      · next hsuffix =>
        rw [Bool.or_eq_true, decide_eq_true_eq, decide_eq_true_eq] at hsuffix
        rw [List.mem_singleton.1 hc]
        rcases hsuffix with rfl | rfl <;> rfl
      · cases hc
    · cases hc
  have hdecimal : ∀ c ∈ (splitDecimal cs).2.1, isNumeral c = true := by
    intro c hc
    simp only [splitDecimal, List.mem_append] at hc
    rcases hc with hc | (hc | hc) | hc
    · exact hpart _ c hc
    · exact hfraction _ c hc
    · exact hexponent _ c hc
    · exact himaginary _ c hc
  unfold splitNumber
  split
  · split
    · next hbase =>
      intro c hc
      rcases List.mem_cons.1 hc with rfl | hc
      · rfl
      · rcases List.mem_cons.1 hc with rfl | hc
        · simp only [isBaseLetter, List.contains_iff_mem, List.mem_cons, List.not_mem_nil,
            or_false] at hbase
          rcases hbase with rfl | rfl | rfl | rfl | rfl | rfl <;> rfl
        · have hc := List.mem_takeWhile_imp hc
          rw [Bool.or_eq_true, decide_eq_true_eq] at hc
          rcases hc with hc | rfl
          · simp [isNumeral, hc]
          · rfl
    · exact hdecimal
  · exact hdecimal

theorem IsNumber.numeral {kind : TokenKind} {text : String} (h : IsNumber kind text) :
    ∀ c ∈ text.toList, Token.isNumeral c = true := by
  have := Token.splitNumber_numeral text.toList
  rwa [h.all] at this

namespace Text

/-- Ranges that lie apart have no character in common. -/
theorem inRanges_eq_false {ranges others : List (Nat × Nat)}
    (hapart : ∀ r ∈ ranges, ∀ r' ∈ others, r.2 < r'.1 ∨ r'.2 < r.1) (h : inRanges ranges c = true) :
    inRanges others c = false := by
  simp only [inRanges, List.any_eq_true, List.any_eq_false, Bool.and_eq_true, decide_eq_true_eq] at h ⊢
  obtain ⟨r, hr, hlow, hhigh⟩ := h
  rintro r' hr' ⟨hlow', hhigh'⟩
  have := hapart r hr r' hr'
  omega

theorem isAscii_of_isAlphanum (h : c.isAlphanum = true) : isAscii c = true := by
  simp only [Char.isAlphanum, Char.isAlpha, Char.isUpper, Char.isLower, Char.isDigit, Bool.or_eq_true,
    Bool.and_eq_true, decide_eq_true_eq, ge_iff_le, UInt32.le_iff_toNat_le, Char.reduceVal,
    UInt32.reduceToNat] at h
  simp only [isAscii, decide_eq_true_eq, Char.toNat]
  omega

/-- No part of a name is a blank. -/
theorem isBlank_of_isNamePart (h : isNamePart c = true) : isBlank c = false := by
  have halphabetic : ∀ r ∈ blankRanges, ∀ r' ∈ alphabeticRanges, r.2 < r'.1 ∨ r'.2 < r.1 := by
    decide +kernel
  have hnumeric : ∀ r ∈ blankRanges, ∀ r' ∈ numericRanges, r.2 < r'.1 ∨ r'.2 < r.1 := by
    decide +kernel
  by_contra hblank
  rw [Bool.not_eq_false, isBlank] at hblank
  by_cases hascii : isAscii c = true
  · -- the six blanks of ASCII
    rw [if_pos hascii, Bool.or_eq_true, Bool.and_eq_true] at hblank
    simp only [decide_eq_true_eq] at hblank
    rcases hblank with rfl | ⟨hlow, hhigh⟩
    · revert h
      decide
    · rw [← Char.ofNat_toNat c] at h
      interval_cases c.toNat <;> revert h <;> decide
  · rw [if_neg hascii] at hblank
    have hsome : c ≠ '_' := fun hc => hascii (hc ▸ rfl)
    simp [isNamePart, isAlphanumeric, hsome, hascii, inRanges_eq_false halphabetic hblank,
      inRanges_eq_false hnumeric hblank] at h

theorem isBlank_of_isNumeral (h : Token.isNumeral c = true) : isBlank c = false := by
  simp only [Token.isNumeral, Bool.or_eq_true, decide_eq_true_eq] at h
  rcases h with (((h | rfl) | rfl) | rfl) | rfl
  · refine isBlank_of_isNamePart ?_
    rw [isNamePart, isAlphanumeric, if_pos (isAscii_of_isAlphanum h), h, Bool.or_true]
  all_goals decide

end Text

theorem Token.isBlank_of_mem_operators : ∀ op ∈ operators, ∀ c ∈ op.toList, Text.isBlank c = false := by
  have hall : (operators.all fun op => op.toList.all (!Text.isBlank ·)) = true := by decide +kernel
  simpa only [List.all_eq_true, Bool.not_eq_true'] using hall

/-- What begins like a number is read as one. -/
theorem ScanState.lexeme_number {s : ScanState} {cs : List Char}
    (h : c.isDigit = true ∨ c = '.' ∧ cs.head?.any Char.isDigit = true) :
    s.lexeme c cs = .ok (s.emit (Token.splitNumber (c :: cs)).1 (Token.splitNumber (c :: cs)).2.1
      (Token.splitNumber (c :: cs)).2.2) := by
  have hne : ∀ d : Char, d.isDigit = false → d ≠ '.' → c ≠ d := by
    rintro d hd hdot rfl
    rcases h with h | h
    · rw [h] at hd
      cases hd
    · exact hdot h.1
  have hnumber : (c.isDigit || (c = '.' && cs.head?.any Char.isDigit)) = true := by
    simpa using h
  simp only [lexeme, Token.isIndentation, Token.isBreak, hne ' ' (by decide) (by decide),
    hne '\t' (by decide) (by decide), hne '\x0c' (by decide) (by decide),
    hne '\r' (by decide) (by decide), hne '\n' (by decide) (by decide),
    hne '\\' (by decide) (by decide), hne '#' (by decide) (by decide),
    hne '"' (by decide) (by decide), hne '\'' (by decide) (by decide), hnumber]
  rfl

theorem ends_number {kind : TokenKind} {text : String} {next : Char} (h : IsNumber kind text)
    (hkind : kind ≠ .op) (hnext : AfterNumber next) (hpoint : kind = .int → next ≠ '.') :
    Ends kind text next := by
  intro s tail hrest hstart
  have hsplit : Token.splitNumber (text.toList ++ next :: tail) =
      (kind, text.toList, next :: tail) := by
    rw [Token.splitNumber_append_cons hnext (by rw [h.all]; exact hpoint), h.all]
    rfl
  obtain ⟨c, cs, hcs, hc⟩ := h.starts
  have hstarts : c.isDigit = true ∨ c = '.' ∧ (cs ++ next :: tail).head?.any Char.isDigit = true := by
    refine hc.imp_right fun hpoint => ⟨hpoint.1, ?_⟩
    cases cs with
    | nil => simp at hpoint
    | cons d ds => simpa using hpoint.2
  have hdepth : Word.depth (kind, text) s.depth = s.depth := by
    cases kind <;> first | rfl | exact absurd rfl hkind
  rw [ScanState.step, hrest, hdepth]
  rw [hcs, List.cons_append] at hsplit ⊢
  simp only [hstart, Bool.false_eq_true, if_false, ScanState.lexeme_number hstarts, hsplit]
  rfl

/-! ### Strings and operators -/

theorem quoteString_cons (value : String) : ∃ quote cs,
    (Text.quoteString value).toList = quote :: cs ∧ Text.IsQuote quote :=
  ⟨_, _, by rw [Text.quoteString, String.toList_ofList], Text.isQuote_quoteFor value.toList⟩

theorem step_quoteString {s : ScanState} {value : String} {rest : List Char}
    (hrest : s.rest = (Text.quoteString value).toList ++ rest) (hstart : s.lineStart = false)
    (hnext : ∀ c, Text.IsQuote c → rest.head? ≠ some c) :
    s.step = .ok (some (s.emit .str (Text.quoteString value).toList rest)) := by
  have hsplit := Token.splitString_quoteString value rest hnext
  obtain ⟨quote, cs, hcs, hquote⟩ := quoteString_cons value
  rw [ScanState.step, hrest]
  rw [hcs, List.cons_append] at hsplit ⊢
  simp only [hstart, Bool.false_eq_true, if_false]
  unfold ScanState.lexeme
  rcases hquote with rfl | rfl
  all_goals
    simp only [Token.isIndentation, Token.isBreak, Char.reduceEq, decide_false, decide_true,
      Bool.or_self, Bool.false_eq_true, if_false, Bool.or_true, Bool.true_or, if_true, hsplit]
    rfl

theorem ends_string {value : String} {next : Char} (hnext : ¬ Text.IsQuote next) :
    Ends .str (Text.quoteString value) next := by
  intro s tail hrest hstart
  have hstep := step_quoteString hrest hstart fun c hc heq => hnext (by simp_all)
  rw [hstep]
  rfl

/-- A literal is one token of its line, and the value of the literal is the one that it was written for. -/
theorem tokenize_quoteString (value : String) :
    let literal := Text.quoteString value
    let size := Text.byteSize literal.toList
    tokenize literal = .ok [⟨.str, literal, 0, size⟩, ⟨.newline, "", size, size⟩,
      ⟨.endMarker, "", size, size⟩] ∧ Text.decodeString literal = value := by
  intro literal size
  refine ⟨?_, Text.decodeString_quoteString value⟩
  obtain ⟨quote, cs, hcs, hquote⟩ := quoteString_cons value
  let margin : ScanState := { ScanState.start (Text.quoteString value).toList with lineStart := false }
  have hmargin : (ScanState.start (Text.quoteString value).toList).step = .ok (some ([], margin)) := by
    have hcut : Token.splitWhile Token.isIndentation (quote :: cs) = ([], quote :: cs) := by
      rcases hquote with rfl | rfl <;> rfl
    have hblank : (ScanState.start (quote :: cs)).blankLine? = none := by
      rw [ScanState.blankLine?_eq_none_iff hcut]
      rcases hquote with rfl | rfl <;> exact ⟨_, cs, rfl, by decide⟩
    simp only [margin, hcs]
    rw [ScanState.step_indentation rfl hblank]
    simp [ScanState.indentation, hcut, ScanState.skip, ScanState.indentWidth, ScanState.start, Except.map]
  have hrest : margin.rest = (Text.quoteString value).toList ++ [] := by
    simp [margin, ScanState.start]
  have hliteral := step_quoteString hrest rfl (by simp)
  rw [tokenize, scan_of_step_some hmargin, scan_of_step_some hliteral,
    scan_of_step_none (ScanState.step_end rfl)]
  simp [ScanState.tokenHere, ScanState.closing, ScanState.skip, margin, ScanState.start, literal, size]

/-- The operator `symbol` and the character after it begin a longer operator. -/
def joins (symbol : String) (next : Char) : Prop :=
  ∃ longer ∈ Token.operators, (symbol.toList ++ [next]) <+: longer.toList

theorem afterStart_isPrefix {start cs : List Char} {rest : List Char}
    (h : Text.afterStart start cs = some rest) : start <+: cs :=
  ⟨rest, Token.afterStart_append h⟩

theorem afterStart_self (start rest : List Char) :
    Text.afterStart start (start ++ rest) = some rest := by
  induction start with
  | nil => cases rest <;> rfl
  | cons c start ih => rw [List.cons_append, Text.afterStart, if_pos rfl, ih]

/-- Longer operators come first in the table. -/
theorem operators_sorted : Token.operators.Pairwise fun a b =>
    b.toList.length ≤ a.toList.length ∧ a ≠ b := by
  decide

theorem splitOperator_eq {next : Char} {tail : List Char} (hmem : symbol ∈ Token.operators)
    (hnext : ¬ joins symbol next) :
    Token.splitOperator (symbol.toList ++ next :: tail) = some (symbol, next :: tail) := by
  obtain ⟨before, after, hsplit⟩ := List.append_of_mem hmem
  have hnone : ∀ other ∈ before,
      Text.afterStart other.toList (symbol.toList ++ next :: tail) = none := by
    intro other hother
    have hsorted := operators_sorted
    rw [hsplit, List.pairwise_append] at hsorted
    obtain ⟨hlength, hne⟩ := hsorted.2.2 other hother symbol List.mem_cons_self
    cases hfound : Text.afterStart other.toList (symbol.toList ++ next :: tail) with
    | none => rfl
    | some rest =>
        refine absurd ⟨other, hsplit ▸ List.mem_append_left _ hother, ?_⟩ hnext
        have hother := afterStart_isPrefix hfound
        have hlonger : symbol.toList.length ≠ other.toList.length := by
          intro heq
          have hsame := List.prefix_of_prefix_length_le hother
            (List.prefix_append symbol.toList (next :: tail)) heq.ge
          exact hne (String.toList_inj.1 (hsame.eq_of_length heq.symm))
        refine List.prefix_of_prefix_length_le ?_ hother ?_
        · exact ⟨tail, by simp⟩
        · rw [List.length_append, List.length_singleton]
          omega
  rw [Token.splitOperator, hsplit]
  rw [List.findSome?_append, List.findSome?_eq_none_iff.2 (by simpa using hnone), Option.none_or,
    List.findSome?_cons, afterStart_self]
  rfl

/-- The first character of an operator begins nothing else. -/
theorem operator_head : ∀ symbol ∈ Token.operators, ∃ c cs, symbol.toList = c :: cs ∧
    Token.isIndentation c = false ∧ Token.isBreak c = false ∧ c ≠ '\\' ∧ c ≠ '#' ∧ c ≠ '"' ∧
    c ≠ '\'' ∧ c.isDigit = false ∧ Text.isNameStart c = false ∧ (c = '.' → cs = [] ∨ cs = ['.', '.']) := by
  have hall : ∀ symbol ∈ Token.operators, symbol.toList ≠ [] ∧ symbol.toList.head?.all (fun c =>
      !Token.isIndentation c && !Token.isBreak c && c ≠ '\\' && c ≠ '#' && c ≠ '"' && c ≠ '\'' &&
      !c.isDigit && !Text.isNameStart c &&
      (c ≠ '.' || symbol.toList.tail = [] || symbol.toList.tail = ['.', '.'])) = true := by decide
  intro symbol hsymbol
  obtain ⟨hne, hhead⟩ := hall symbol hsymbol
  obtain ⟨c, cs, hcs⟩ := List.exists_cons_of_ne_nil hne
  simp only [hcs, List.head?_cons, List.tail_cons, Option.all_some, Bool.and_eq_true,
    Bool.not_eq_true', decide_eq_true_eq, Bool.or_eq_true, ne_eq, decide_not,
    decide_eq_false_iff_not] at hhead
  exact ⟨c, cs, hcs, by tauto⟩

theorem ends_op {next : Char} (hmem : symbol ∈ Token.operators) (hnext : ¬ joins symbol next)
    (hpoint : symbol = "." → next.isDigit = false) : Ends .op symbol next := by
  intro s tail hrest hstart
  have hsplit : Token.splitOperator (symbol.toList ++ next :: tail) = some (symbol, next :: tail) :=
    splitOperator_eq hmem hnext
  obtain ⟨c, cs, hcs, hindentation, hbreak, hbackslash, hhash, hdouble, hsingle, hdigit, hname,
    hdot⟩ := operator_head symbol hmem
  have hnumber : (c.isDigit || (c = '.' && ((cs ++ next :: tail).head?.any Char.isDigit))) =
      false := by
    rw [hdigit, Bool.false_or, Bool.and_eq_false_imp]
    intro hc
    rcases hdot (by simpa using hc) with rfl | rfl
    · have hsymbol : symbol = "." := String.toList_inj.1 (by rw [hcs, of_decide_eq_true hc]; rfl)
      simpa using hpoint hsymbol
    · rfl
  rw [ScanState.step, hrest]
  rw [hcs, List.cons_append] at hsplit ⊢
  simp only [hstart, Bool.false_eq_true, if_false, ScanState.lexeme, hindentation, hbreak,
    hbackslash, hhash, hdouble, hsingle, hname, hnumber, hsplit]
  simp [ScanState.emit, Except.map, Word.depth, ScanState.skip, hcs]

/-- The characters that an operator may go on with. -/
def operatorTails : List Char := ['*', '=', '/', '<', '>']

theorem not_joins {next : Char} (hmem : symbol ∈ Token.operators) (hpoint : symbol ≠ ".")
    (hnext : next ∉ operatorTails) : ¬ joins symbol next := by
  have htails : Token.operators.all (fun o => o = "..." ||
      o.toList.tail.all fun c => operatorTails.contains c) = true := by decide
  have hpoints : Token.operators.all (fun o => o = "." ||
      !((o.toList ++ ['.']).isPrefixOf "...".toList)) = true := by decide
  rintro ⟨longer, hlonger, hjoined⟩
  obtain ⟨c, cs, hcs, _⟩ := operator_head symbol hmem
  obtain ⟨rest, hrest⟩ := hjoined
  have htail : longer.toList.tail = cs ++ next :: rest := by
    rw [← hrest, hcs]
    simp
  have hfound := List.all_eq_true.1 htails longer hlonger
  rw [Bool.or_eq_true] at hfound
  rcases hfound with hdots | htails
  · obtain rfl : longer = "..." := by simpa using hdots
    have hlast : next = '.' := by
      have hmemTail : next ∈ "...".toList.tail := by
        rw [htail]
        simp
      simpa using hmemTail
    have := List.all_eq_true.1 hpoints symbol hmem
    rw [Bool.or_eq_true] at this
    rcases this with hsymbol | hjoined
    · exact hpoint (by simpa using hsymbol)
    · rw [← hlast, Bool.not_eq_true', ← Bool.not_eq_true, List.isPrefixOf_iff_prefix] at hjoined
      exact hjoined ⟨rest, hrest⟩
  · have := List.all_eq_true.1 htails next (by simp [htail])
    exact hnext (List.contains_iff_mem.1 this)

/-- Brackets, commas and the tilde begin no longer operator. -/
theorem not_joins_delimiter {next : Char}
    (hsymbol : symbol ∈ ["(", ")", "[", "]", "\x7b", "\x7d", ",", "~"]) : ¬ joins symbol next := by
  have hsole : ["(", ")", "[", "]", "\x7b", "\x7d", ",", "~"].all (fun symbol =>
      Token.operators.all fun o => o = symbol || !symbol.toList.isPrefixOf o.toList) = true := by
    decide
  rintro ⟨longer, hlonger, hjoined⟩
  have := List.all_eq_true.1 (List.all_eq_true.1 hsole symbol hsymbol) longer hlonger
  rw [Bool.or_eq_true] at this
  rcases this with hsame | hother
  · obtain rfl : longer = symbol := by simpa using hsame
    have := hjoined.length_le
    simp at this
  · rw [Bool.not_eq_true', ← Bool.not_eq_true, List.isPrefixOf_iff_prefix] at hother
    exact hother ((List.prefix_append _ _).trans hjoined)

end TriviaTree
