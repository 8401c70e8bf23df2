import Mathlib
import TriviaTree.Proofs.Token.Order

/-!
A text is its tokens and the gaps between them.

`Laid offset cs tokens` says so of a text `cs` that begins at `offset`: it falls into the texts of
`tokens`, one after the other, and characters that may be left out, blanks and backslashes that join
lines. One bite of the scanner lays out what it reads (`Step.laid`), so a scan lays out the whole text
(`laid_of_tokenize`), and from a layout one reads off that every token is the slice at its place and
that nothing else is left out (`tokens_and_gaps`).
-/

set_option autoImplicit false

namespace TriviaTree

namespace Text

@[simp] theorem byteSize_nil : byteSize [] = 0 := rfl

theorem byteSize_cons (c : Char) (cs : List Char) :
    byteSize (c :: cs) = c.utf8Size + byteSize cs := by
  simp [byteSize_eq_sum]

theorem dropBytes_byteSize_append (front cs : List Char) :
    dropBytes (byteSize front) (front ++ cs) = some cs := by
  induction front with
  | nil => cases cs <;> simp [dropBytes]
  | cons c front ih =>
      have hpos := c.utf8Size_pos
      simp only [List.cons_append, dropBytes, byteSize_cons]
      rw [if_neg (by omega), if_pos (by omega), Nat.add_sub_cancel_left, ih]

theorem takeBytes_byteSize_append (front cs : List Char) :
    takeBytes (byteSize front) (front ++ cs) = some front := by
  induction front with
  | nil => cases cs <;> simp [takeBytes]
  | cons c front ih =>
      have hpos := c.utf8Size_pos
      simp only [List.cons_append, takeBytes, byteSize_cons]
      rw [if_neg (by omega), if_pos (by omega), Nat.add_sub_cancel_left, ih]
      rfl

/-- What is trimmed off the end of a text are blanks. -/
theorem trimEnd_append (cs : List Char) :
    ∃ tail, trimEnd cs ++ tail = cs ∧ ∀ c ∈ tail, isBlank c = true := by
  refine ⟨(cs.reverse.takeWhile isBlank).reverse, ?_, ?_⟩
  · rw [trimEnd, ← List.reverse_append, List.takeWhile_append_dropWhile, List.reverse_reverse]
  · intro c hc
    exact List.mem_takeWhile_imp (List.mem_reverse.1 hc)

theorem head?_trimEnd {cs : List Char} {c : Char} (h : cs.head? = some c) (hc : isBlank c = false) :
    (trimEnd cs).head? = some c := by
  obtain ⟨tail, htail, hblank⟩ := trimEnd_append cs
  cases htrimmed : trimEnd cs with
  | nil =>
      rw [htrimmed, List.nil_append] at htail
      have := hblank c (htail ▸ List.mem_of_head? h)
      simp [hc] at this
  | cons d rest =>
      rw [htrimmed] at htail
      rwa [← htail] at h

/-- What stands between two offsets of a text. -/
theorem sliceBytes_append (front middle back : List Char) :
    sliceBytes (byteSize front) (byteSize front + byteSize middle) (front ++ (middle ++ back)) =
      some middle := by
  rw [sliceBytes, if_pos (Nat.le_add_right _ _), dropBytes_byteSize_append, Option.bind_some,
    Nat.add_sub_cancel_left, takeBytes_byteSize_append]

end Text

/-- A character that no token needs to hold, when `after` follows it: a blank, or a backslash that
joins two lines. -/
def IsGap (c : Char) (after : List Char) : Prop :=
  Text.isBlank c = true ∨ c = '\\' ∧ after.head?.any Token.isBreak = true

/-- The text `cs`, which begins at `offset`, falls into `tokens` and the gaps between them; comments
begin with their `#`, and layout is blank. -/
inductive Laid : Nat → List Char → List Token → Prop
  | nil {offset : Nat} : Laid offset [] []
  | gap {offset : Nat} {c : Char} {cs : List Char} {tokens : List Token} (hgap : IsGap c cs)
      (rest : Laid (offset + c.utf8Size) cs tokens) : Laid offset (c :: cs) tokens
  | token {offset : Nat} {text cs : List Char} {tokens : List Token} (kind : TokenKind)
      (hhash : kind = .comment → text.head? = some '#')
      (hlayout : kind.isLayout = true → ∀ c ∈ text, Text.isBlank c = true)
      (rest : Laid (offset + Text.byteSize text) cs tokens) :
      Laid offset (text ++ cs)
        (⟨kind, String.ofList text, offset, offset + Text.byteSize text⟩ :: tokens)

namespace Laid

variable {offset : Nat} {cs : List Char} {tokens : List Token}

/-- Blanks are gaps. -/
theorem blanks {blanks : List Char} (hblanks : ∀ c ∈ blanks, Text.isBlank c = true)
    (rest : Laid (offset + Text.byteSize blanks) cs tokens) : Laid offset (blanks ++ cs) tokens := by
  induction blanks generalizing offset with
  | nil => simpa using rest
  | cons c blanks ih =>
      rw [Text.byteSize_cons, ← Nat.add_assoc] at rest
      exact .gap (.inl (hblanks c List.mem_cons_self))
        (ih (fun d hd => hblanks d (List.mem_cons_of_mem c hd)) rest)

/-- A token that takes up no room. -/
theorem mark {kind : TokenKind} (hkind : kind ≠ .comment) (rest : Laid offset cs tokens) :
    Laid offset cs (⟨kind, "", offset, offset⟩ :: tokens) := by
  rw [← List.nil_append cs]
  exact .token kind (absurd · hkind) (by simp) rest

theorem marks {kind : TokenKind} (hkind : kind ≠ .comment) (widths : List Nat)
    (rest : Laid offset cs tokens) :
    Laid offset cs ((widths.map fun _ => ⟨kind, "", offset, offset⟩) ++ tokens) := by
  induction widths with
  | nil => exact rest
  | cons width widths ih => exact ih.mark hkind

/-- Every token cuts the text in three. -/
theorem cut (h : Laid offset cs tokens) : ∀ t ∈ tokens, ∃ before after,
    cs = before ++ (t.text.toList ++ after) ∧ t.start = offset + Text.byteSize before ∧
      t.stop = offset + Text.byteSize (before ++ t.text.toList) := by
  induction h with
  | nil => simp
  | @gap offset c cs tokens _ _ ih =>
      intro t ht
      obtain ⟨before, after, rfl, hstart, hstop⟩ := ih t ht
      refine ⟨c :: before, after, rfl, ?_, ?_⟩
      · rw [hstart, Text.byteSize_cons, Nat.add_assoc]
      · rw [hstop, List.cons_append, Text.byteSize_cons, Nat.add_assoc]
  | @token offset text cs tokens kind _ _ _ ih =>
      intro t ht
      rcases List.mem_cons.1 ht with rfl | ht
      · exact ⟨[], cs, by simp⟩
      · obtain ⟨before, after, rfl, hstart, hstop⟩ := ih t ht
        refine ⟨text ++ before, after, by simp, ?_, ?_⟩
        · rw [hstart, Text.byteSize_append, Nat.add_assoc]
        · rw [hstop, List.append_assoc, Text.byteSize_append text, Nat.add_assoc]

/-- Every token is the slice of the text at its place. -/
theorem slice (h : Laid offset cs tokens) {front : List Char} (hfront : Text.byteSize front = offset) :
    ∀ t ∈ tokens, Text.sliceBytes t.start t.stop (front ++ cs) = some t.text.toList := by
  induction h generalizing front with
  | nil => simp
  | @gap offset c cs tokens _ _ ih =>
      have hnext : Text.byteSize (front ++ [c]) = offset + c.utf8Size := by
        simp [Text.byteSize_append, Text.byteSize_cons, hfront]
      simpa using ih hnext
  | @token offset text cs tokens kind _ _ _ ih =>
      subst hfront
      intro t ht
      rcases List.mem_cons.1 ht with rfl | ht
      · simpa using Text.sliceBytes_append front text cs
      · simpa using ih (Text.byteSize_append front text) t ht

/-- A character outside all tokens is a gap. -/
theorem isGap (h : Laid offset cs tokens) {before after : List Char} {c : Char}
    (hsplit : cs = before ++ c :: after)
    (houtside : ∀ t ∈ tokens, ¬ (t.start ≤ offset + Text.byteSize before ∧
      offset + Text.byteSize before < t.stop)) : IsGap c after := by
  induction h generalizing before with
  | nil => simp at hsplit
  | @gap offset d cs tokens hgap _ ih =>
      cases before with
      | nil =>
          cases hsplit
          exact hgap
      | cons e before =>
          cases hsplit
          refine ih rfl fun t ht => ?_
          simpa [Text.byteSize_cons, Nat.add_assoc] using houtside t ht
  | @token offset text cs tokens kind _ _ _ ih =>
      have hhere := houtside _ List.mem_cons_self
      simp only [Nat.le_add_right, true_and, Nat.not_lt, Nat.add_le_add_iff_left] at hhere
      -- the character stands behind the first token, since it is not in it
      rcases List.append_eq_append_iff.1 hsplit with ⟨middle, rfl, rfl⟩ | ⟨middle, rfl, hrest⟩
      · refine ih rfl fun t ht => ?_
        simpa [Text.byteSize_append, Nat.add_assoc] using houtside t (List.mem_cons_of_mem _ ht)
      · cases middle with
        | nil =>
            have hrest : cs = [] ++ c :: after := hrest.symm
            refine ih hrest fun t ht => ?_
            simpa using houtside t (List.mem_cons_of_mem _ ht)
        | cons d middle =>
            have := Text.byteSize_pos (List.cons_ne_nil d middle)
            rw [Text.byteSize_append] at hhere
            omega

end Laid

/-! ### One bite -/

namespace Token

theorem isBlank_of_isIndentation {c : Char} (h : isIndentation c = true) :
    Text.isBlank c = true := by
  simp only [isIndentation, Bool.or_eq_true, decide_eq_true_eq] at h
  rcases h with (rfl | rfl) | rfl <;> decide

theorem isBlank_of_isBreak {c : Char} (h : isBreak c = true) : Text.isBlank c = true := by
  simp only [isBreak, Bool.or_eq_true, decide_eq_true_eq] at h
  rcases h with rfl | rfl <;> decide

theorem isBlank_of_mem_splitWhile {cs : List Char} :
    ∀ c ∈ (splitWhile isIndentation cs).1, Text.isBlank c = true :=
  fun _ hc => isBlank_of_isIndentation (List.mem_takeWhile_imp hc)

theorem isBreak_of_mem_splitBreak {cs : List Char} : ∀ c ∈ (splitBreak cs).1, isBreak c = true := by
  unfold splitBreak
  split <;> simp [isBreak]

theorem isBlank_of_mem_splitBreak {cs : List Char} :
    ∀ c ∈ (splitBreak cs).1, Text.isBlank c = true :=
  fun c hc => isBlank_of_isBreak (isBreak_of_mem_splitBreak c hc)

end Token

namespace ScanState

variable {s s' : ScanState} {tokens later : List Token} {c : Char} {cs : List Char}

/-- Reading past blanks. -/
theorem laid_skip {taken rest : List Char} (hrest : taken ++ rest = s.rest)
    (hblank : ∀ c ∈ taken, Text.isBlank c = true)
    (h : Laid (s.skip taken rest).offset (s.skip taken rest).rest later) :
    Laid s.offset s.rest later := by
  rw [← hrest]
  exact .blanks hblank h

theorem laid_skipBreak (h : Laid s.skipBreak.offset s.skipBreak.rest later) :
    Laid s.offset s.rest later :=
  laid_skip (Token.splitBreak_append s.rest) Token.isBlank_of_mem_splitBreak h

/-- Reading a token. -/
theorem laid_token {taken rest : List Char} {kind : TokenKind}
    (hhash : kind = .comment → taken.head? = some '#')
    (hlayout : kind.isLayout = true → ∀ c ∈ taken, Text.isBlank c = true)
    (hrest : taken ++ rest = s.rest)
    (h : Laid (s.offset + Text.byteSize taken) rest later) :
    Laid s.offset s.rest (s.tokenHere kind taken :: later) := by
  rw [← hrest]
  exact .token kind hhash hlayout h

/-- A comment, and the blanks at the end of its line. -/
theorem laid_comment (hrest : s.rest = '#' :: cs)
    (h : Laid s.comment.2.offset s.comment.2.rest later) :
    Laid s.offset s.rest (s.comment.1 ++ later) := by
  have hhash : (Token.splitWhile (fun c => !Token.isBreak c) s.rest).1.head? = some '#' := by
    simp [hrest, Token.splitWhile, Token.isBreak]
  have hline := Token.splitWhile_append (fun c => !Token.isBreak c) s.rest
  simp only [comment, Token.splitComment, skip] at h ⊢
  generalize Token.splitWhile (fun c => !Token.isBreak c) s.rest = split at *
  obtain ⟨line, rest⟩ := split
  obtain ⟨tail, htail, hblank⟩ := Text.trimEnd_append line
  have hafter : Laid (s.offset + Text.byteSize (Text.trimEnd line)) (tail ++ rest) later :=
    .blanks hblank (by rwa [Nat.add_assoc, ← Text.byteSize_append, htail])
  refine laid_token (fun _ => Text.head?_trimEnd hhash (by decide)) (by simp [TokenKind.isLayout]) ?_ hafter
  rwa [← List.append_assoc, htail]

theorem laid_blanks {taken rest : List Char}
    (hcut : Token.splitWhile Token.isIndentation s.rest = (taken, rest))
    (h : Laid (s.skip taken rest).offset (s.skip taken rest).rest later) : Laid s.offset s.rest later := by
  have happend := Token.splitWhile_append Token.isIndentation s.rest
  have hblank : ∀ c ∈ (Token.splitWhile Token.isIndentation s.rest).1, Text.isBlank c = true :=
    Token.isBlank_of_mem_splitWhile
  rw [hcut] at happend hblank
  exact laid_skip happend hblank h

/-- One bite lays out what it reads. -/
theorem Step.laid (step : Step s tokens s') (hlater : Laid s'.offset s'.rest later) :
    Laid s.offset s.rest (tokens ++ later) := by
  cases step with
  | blank _ hrest hblank =>
      exact laid_skip hrest.symm (by simpa using Token.isBlank_of_isIndentation hblank) hlater
  | newline =>
      exact laid_token (by simp) (fun _ => Token.isBlank_of_mem_splitBreak)
        (Token.splitBreak_append s.rest) hlater
  | joined => exact laid_skipBreak hlater
  | @continued cs _ hrest hbreak =>
      rw [hrest]
      refine .gap (.inr ⟨rfl, hbreak⟩) ?_
      rw [← Token.splitBreak_append cs]
      refine .blanks Token.isBlank_of_mem_splitBreak ?_
      rwa [Nat.add_assoc, ← Text.byteSize_cons]
  | comment _ hrest => exact laid_comment hrest hlater
  | @code kind taken rest _ hrest _ hkind =>
      refine laid_token ?_ ?_ hrest hlater
      · rintro rfl
        cases hkind
      · intro hlayout
        cases kind <;> simp [TokenKind.isCode, TokenKind.isLayout] at hkind hlayout
  | blankLine _ hcut => exact laid_blanks hcut (laid_skipBreak hlater)
  | commentLine _ hcut => exact laid_blanks hcut (laid_comment rfl (laid_skipBreak hlater))
  | indent _ hcut => exact laid_blanks hcut (hlater.mark (by decide))
  | dedents _ hcut => exact laid_blanks hcut (hlater.marks (by decide) _)

theorem laid_closing (s : ScanState) : Laid s.offset [] s.closing := by
  have hend : Laid s.offset [] [s.tokenHere .endMarker []] := Laid.nil.mark (by decide)
  have hdedent : TokenKind.dedent ≠ .comment := by decide
  have hblocks := hend.marks hdedent s.indents
  unfold closing
  rw [List.append_assoc]
  split
  · exact hblocks.mark (by decide)
  · exact hblocks

end ScanState

theorem laid_of_tokenize {source : String} {tokens : List Token}
    (h : tokenize source = .ok tokens) : Laid 0 source.toList tokens :=
  tokenize_induction (P := fun s new => Laid s.offset s.rest new)
    (fun s hrest => hrest ▸ s.laid_closing) (fun _ _ _ _ step => step.laid) h

/-- The text of every token is the slice of the source at its place, no token starts before the one
before it is over, and what is in no token is a blank or a backslash that joins two lines. -/
theorem tokens_and_gaps {source : String} {tokens : List Token}
    (h : tokenize source = .ok tokens) :
    (∀ t ∈ tokens, Text.sliceBytes t.start t.stop source.toList = some t.text.toList) ∧
    tokens.Pairwise (·.stop ≤ ·.start) ∧
    ∀ before c after, source.toList = before ++ c :: after →
      (∀ t ∈ tokens, ¬ (t.start ≤ Text.byteSize before ∧ Text.byteSize before < t.stop)) →
        Text.isBlank c = true ∨ c = '\\' ∧ after.head?.any Token.isBreak = true := by
  have hlaid := laid_of_tokenize h
  refine ⟨?_, (inOrder_of_tokenize h).1.pairwise, fun before c after hsplit houtside => ?_⟩
  · simpa using hlaid.slice Text.byteSize_nil
  · exact hlaid.isGap hsplit (by simpa using houtside)

theorem tokens_and_gaps_joined_lines :
    let source := "x = 'é' + \\\n  1.e # c \n"
    ∃ tokens, tokenize source = .ok tokens ∧ tokens.length = 9 ∧
      (∀ t ∈ tokens, Text.sliceBytes t.start t.stop source.toList = some t.text.toList) ∧
      tokens.Pairwise (·.stop ≤ ·.start) ∧
      ∀ before c after, source.toList = before ++ c :: after →
        (∀ t ∈ tokens, ¬ (t.start ≤ Text.byteSize before ∧ Text.byteSize before < t.stop)) →
          Text.isBlank c = true ∨ c = '\\' ∧ after.head?.any Token.isBreak = true := by
  intro source
  have hcount : (tokenize source).map List.length = .ok 9 := by decide +kernel
  cases h : tokenize source with
  | error fault => simp [h, Except.map] at hcount
  | ok tokens => exact ⟨tokens, rfl, by simpa [h, Except.map] using hcount, tokens_and_gaps h⟩

end TriviaTree
