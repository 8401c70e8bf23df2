import Mathlib
import TriviaTree.Proofs.Token.Spelling

/-!
What the scanner can do.

A bite of the scanner has ten forms (`ScanState.Step`), each with the tokens it finds and the state it
leads to. Every bite is one of them (`ScanState.step_cases`), so a property of all texts is proved form
by form, and `tokenize_induction` carries it from the end of a text back to its beginning. The first
such property: every token is spelled as its kind says (`spelled_of_tokenize`).
-/

set_option autoImplicit false

namespace TriviaTree

/-- Tokens that the layout of a text does not decide. -/
def TokenKind.isCode : TokenKind → Bool
  | .name | .int | .float | .str | .op => true
  | _ => false

/-- The number of open brackets after a token. -/
def Token.depth (t : Token) (depth : Nat) : Nat :=
  if t.kind = .op then ScanState.depthAfter t.text depth else depth

theorem Token.isBreak_after_splitComment (cs : List Char) :
    ∀ c ∈ (Token.splitComment cs).2.head?, Token.isBreak c = true := by
  intro c hc
  have hnot := List.head?_dropWhile_not (!Token.isBreak ·) cs
  rw [show cs.dropWhile (!Token.isBreak ·) = (Token.splitComment cs).2 from rfl,
    Option.mem_def.1 hc] at hnot
  simpa using hnot

namespace ScanState

variable {s s' : ScanState} {tokens : List Token} {c : Char} {cs taken rest : List Char}

/-- What one bite can be. -/
inductive Step (s : ScanState) : List Token → ScanState → Prop
  /-- A blank between lexemes. -/
  | blank {c : Char} {cs : List Char} (hstart : s.lineStart = false) (hrest : s.rest = c :: cs)
      (hblank : Token.isIndentation c = true) : Step s [] (s.skip [c] cs)
  /-- The end of a logical line. -/
  | newline {c : Char} {cs : List Char} (hstart : s.lineStart = false) (hrest : s.rest = c :: cs)
      (hbreak : Token.isBreak c = true) (hdepth : s.depth = 0) :
      Step s [s.tokenHere .newline (Token.splitBreak s.rest).1]
        { s.skipBreak with lineStart := true, lineOpen := false }
  /-- A line break inside brackets. -/
  | joined {c : Char} {cs : List Char} (hstart : s.lineStart = false) (hrest : s.rest = c :: cs)
      (hbreak : Token.isBreak c = true) : Step s [] s.skipBreak
  /-- A line break after a backslash. -/
  | continued {cs : List Char} (hstart : s.lineStart = false) (hrest : s.rest = '\\' :: cs)
      (hbreak : cs.head?.any Token.isBreak = true) :
      Step s [] (s.skip ('\\' :: (Token.splitBreak cs).1) (Token.splitBreak cs).2)
  | comment {cs : List Char} (hstart : s.lineStart = false) (hrest : s.rest = '#' :: cs) :
      Step s s.comment.1 s.comment.2
  | code {kind : TokenKind} {taken rest : List Char} (hstart : s.lineStart = false)
      (hrest : taken ++ rest = s.rest) (hne : taken ≠ []) (hkind : kind.isCode = true)
      (spelled : (s.tokenHere kind taken).Spelled) : Step s [s.tokenHere kind taken]
        { s.skip taken rest with
          lineOpen := true, depth := (s.tokenHere kind taken).depth s.depth }
  | blankLine {taken rest : List Char} (hstart : s.lineStart = true)
      (hcut : Token.splitWhile Token.isIndentation s.rest = (taken, rest)) :
      Step s [] (s.skip taken rest).skipBreak
  | commentLine {taken cs : List Char} (hstart : s.lineStart = true)
      (hcut : Token.splitWhile Token.isIndentation s.rest = (taken, '#' :: cs)) :
      Step s (s.skip taken ('#' :: cs)).comment.1 (s.skip taken ('#' :: cs)).comment.2.skipBreak
  | indent {taken cs : List Char} {c : Char} (hstart : s.lineStart = true)
      (hcut : Token.splitWhile Token.isIndentation s.rest = (taken, c :: cs))
      (hbreak : Token.isBreak c = false) (hhash : c ≠ '#') :
      Step s [(s.skip taken (c :: cs)).tokenHere .indent []]
        { s.skip taken (c :: cs) with lineStart := false, indents := indentWidth taken :: s.indents }
  | dedents {taken cs : List Char} {c : Char} {closed kept : List Nat} (hstart : s.lineStart = true)
      (hcut : Token.splitWhile Token.isIndentation s.rest = (taken, c :: cs))
      (hindents : closed ++ kept = s.indents) :
      Step s (closed.map fun _ => (s.skip taken (c :: cs)).tokenHere .dedent [])
        { s.skip taken (c :: cs) with lineStart := false, indents := kept }

theorem step_end (hrest : s.rest = []) : s.step = .ok none := by
  simp [step, hrest]

theorem step_lexeme (hrest : s.rest = c :: cs) (hstart : s.lineStart = false) :
    s.step = (s.lexeme c cs).map some := by
  simp [step, hrest, hstart]

theorem step_blankLine (hrest : s.rest ≠ []) (hstart : s.lineStart = true)
    (h : s.blankLine? = some (tokens, s')) : s.step = .ok (some (tokens, s')) := by
  obtain ⟨c, cs, hrest⟩ := List.exists_cons_of_ne_nil hrest
  simp [step, hrest, hstart, h]

theorem step_indentation (hstart : s.lineStart = true) (h : s.blankLine? = none) :
    s.step = s.indentation.map some := by
  cases hrest : s.rest with
  | nil => simp [blankLine?, hrest, Token.splitWhile] at h
  | cons => simp [step, hrest, hstart, h]

theorem blankLine?_break (hcut : Token.splitWhile Token.isIndentation s.rest = (taken, rest))
    (hrest : ∀ c ∈ rest.head?, Token.isBreak c = true) :
    s.blankLine? = some ([], (s.skip taken rest).skipBreak) := by
  simp only [blankLine?, hcut]
  cases rest with
  | nil => rfl
  | cons c rest => simp [hrest c rfl]

theorem blankLine?_comment
    (hcut : Token.splitWhile Token.isIndentation s.rest = (taken, '#' :: rest)) :
    s.blankLine? = some ((s.skip taken ('#' :: rest)).comment.1,
      (s.skip taken ('#' :: rest)).comment.2.skipBreak) := by
  simp [blankLine?, hcut, Token.isBreak]

theorem blankLine?_eq_none_iff
    (hcut : Token.splitWhile Token.isIndentation s.rest = (taken, rest)) :
    s.blankLine? = none ↔ ∃ c cs, rest = c :: cs ∧ Token.isBreak c = false ∧ c ≠ '#' := by
  simp only [blankLine?, hcut]
  cases rest with
  | nil => simp
  | cons c rest =>
      by_cases hbreak : Token.isBreak c = true
      · simp [hbreak]
      · by_cases hhash : c = '#'
        · subst hhash
          simp [Token.isBreak]
        · simp [hbreak, hhash]

/-- A blank line holds nothing but indentation, or a comment after it. -/
theorem blankLine?_cases (h : s.blankLine? = some (tokens, s'))
    (hcut : Token.splitWhile Token.isIndentation s.rest = (taken, rest)) :
    (∀ c ∈ rest.head?, Token.isBreak c = true) ∧ tokens = [] ∧
        s' = (s.skip taken rest).skipBreak ∨
      (∃ cs, rest = '#' :: cs) ∧ tokens = (s.skip taken rest).comment.1 ∧
        s' = (s.skip taken rest).comment.2.skipBreak := by
  by_cases hbreak : ∀ c ∈ rest.head?, Token.isBreak c = true
  · rw [blankLine?_break hcut hbreak] at h
    cases h
    exact .inl ⟨hbreak, rfl, rfl⟩
  · obtain ⟨c, cs, rfl⟩ := List.exists_cons_of_ne_nil fun hnil : rest = [] => hbreak (by simp [hnil])
    obtain rfl : c = '#' := by
      by_contra hhash
      rw [(blankLine?_eq_none_iff hcut).2 ⟨c, cs, rfl, by simpa using hbreak, hhash⟩] at h
      cases h
    rw [blankLine?_comment hcut] at h
    cases h
    exact .inr ⟨⟨cs, rfl⟩, rfl, rfl⟩

theorem step_of_blankLine (hstart : s.lineStart = true) (h : s.blankLine? = some (tokens, s')) :
    Step s tokens s' := by
  cases hcut : Token.splitWhile Token.isIndentation s.rest with | mk taken rest
  obtain ⟨-, rfl, rfl⟩ | ⟨⟨cs, rfl⟩, rfl, rfl⟩ := blankLine?_cases h hcut
  · exact .blankLine hstart hcut
  · exact .commentLine hstart hcut

theorem step_of_indentation (hstart : s.lineStart = true) (hblank : s.blankLine? = none)
    (h : s.indentation = .ok (tokens, s')) : Step s tokens s' := by
  cases hcut : Token.splitWhile Token.isIndentation s.rest with | mk taken rest
  obtain ⟨c, cs, rfl, hbreak, hhash⟩ := (blankLine?_eq_none_iff hcut).1 hblank
  simp only [indentation, hcut] at h
  split at h
  · cases h
    exact .indent hstart hcut hbreak hhash
  · split at h
    · cases h
      exact .dedents hstart hcut List.takeWhile_append_dropWhile
    · cases h

/-- A lexeme that is no operator leaves the brackets as they are. -/
theorem Step.emit {kind : TokenKind} (hstart : s.lineStart = false) (hrest : taken ++ rest = s.rest)
    (hne : taken ≠ []) (hkind : kind.isCode = true) (hop : kind ≠ .op)
    (spelled : (s.tokenHere kind taken).Spelled) :
    Step s (s.emit kind taken rest).1 (s.emit kind taken rest).2 := by
  have step := Step.code hstart hrest hne hkind spelled
  rwa [show (s.tokenHere kind taken).depth s.depth = s.depth from if_neg hop] at step

theorem step_of_lexeme (hstart : s.lineStart = false) (hrest : s.rest = c :: cs)
    (h : s.lexeme c cs = .ok (tokens, s')) : Step s tokens s' := by
  unfold lexeme at h
  split at h
  · next hblank =>
    cases h
    exact .blank hstart hrest hblank
  split at h
  · next hbreak =>
    rw [← hrest] at h
    simp only at h
    split at h
    · next hdepth =>
      cases h
      exact .newline hstart hrest hbreak hdepth
    · cases h
      exact .joined hstart hrest hbreak
  split at h
  · next hslash =>
    split at h
    · next hbreak =>
      cases h
      subst hslash
      exact .continued hstart hrest hbreak
    · cases h
  split at h
  · next hhash =>
    cases h
    exact .comment hstart (hhash ▸ hrest)
  split at h
  · next hquote =>
    split at h
    · cases h
    · next hstring =>
      cases h
      refine .emit hstart ((Token.splitString_append hstring).trans hrest.symm)
        (Token.splitString_ne_nil hstring) rfl (by decide) ⟨by simp [tokenHere], by simp [tokenHere],
          fun _ => ?_, by simp [tokenHere], by simp [tokenHere]⟩
      rw [tokenHere, String.toList_ofList, Token.splitString_getLast? hstring]
      simpa using hquote
  split at h
  · next hnumber =>
    cases h
    have hstarts : c.isDigit = true ∨ c = '.' ∧ cs.head?.any Char.isDigit = true := by
      simpa using hnumber
    obtain ⟨hname, hop, hstr, hcomment⟩ := Token.splitNumber_kind (c :: cs)
    have hkind : (Token.splitNumber (c :: cs)).1.isCode = true := by
      rcases Token.splitNumber_int_or_float (c :: cs) with h | h <;> rw [h] <;> rfl
    exact .emit hstart ((Token.splitNumber_append (c :: cs)).trans hrest.symm)
      (Token.splitNumber_ne_nil (hstarts.imp_right And.left)) hkind hop ⟨(absurd · hname),
        fun _ => Token.isNumber_splitNumber hstarts, (absurd · hstr), (absurd · hop), (absurd · hcomment)⟩
  split at h
  · next hname =>
    cases h
    have htaken : List.takeWhile Text.isNamePart (c :: cs) = c :: cs.takeWhile Text.isNamePart := by
      simp [Text.isNamePart_of_isNameStart hname]
    refine .emit hstart ((Token.splitWhile_append _ (c :: cs)).trans hrest.symm)
      (by simp [htaken]) rfl (by decide) ⟨fun _ => ?_, by simp [tokenHere],
        by simp [tokenHere], by simp [tokenHere], by simp [tokenHere]⟩
    rw [tokenHere, String.toList_ofList, htaken, Text.isIdentifier, hname, Bool.true_and]
    exact List.all_takeWhile
  split at h
  · cases h
  · next op rest hop =>
    cases h
    obtain ⟨hmem, happend⟩ := Token.splitOperator_append hop
    have htext : String.ofList op.toList = op := String.ofList_toList
    have spelled : (s.tokenHere .op op.toList).Spelled := ⟨by simp [tokenHere], by simp [tokenHere],
      by simp [tokenHere], fun _ => by simpa [tokenHere] using hmem, by simp [tokenHere]⟩
    have step := Step.code hstart (happend.trans hrest.symm) (Token.operator_ne_nil _ hmem) rfl spelled
    simpa [Token.depth, tokenHere, skip, htext] using step

/-- A bite takes a blank line, the indentation of another line, or a lexeme. -/
theorem step_parts (h : s.step = .ok (some (tokens, s'))) :
    (s.lineStart = true ∧ s.blankLine? = some (tokens, s')) ∨
    (s.lineStart = true ∧ s.blankLine? = none ∧ s.indentation = .ok (tokens, s')) ∨
    s.lineStart = false ∧ ∃ c cs, s.rest = c :: cs ∧ s.lexeme c cs = .ok (tokens, s') := by
  unfold step at h
  split at h
  · cases h
  · next c cs hrest =>
    split at h
    · next hstart =>
      split at h
      · next hblank =>
        cases h
        exact .inl ⟨hstart, hblank⟩
      · next hblank =>
        cases hindent : s.indentation <;> rw [hindent] at h <;> cases h
        exact .inr (.inl ⟨hstart, hblank, rfl⟩)
    · next hstart =>
      cases hlexeme : s.lexeme c cs <;> rw [hlexeme] at h <;> cases h
      exact .inr (.inr ⟨by simpa using hstart, c, cs, hrest, hlexeme⟩)

/-- Every bite has one of these forms. -/
theorem step_cases (h : s.step = .ok (some (tokens, s'))) : Step s tokens s' := by
  obtain ⟨hstart, hblank⟩ | ⟨hstart, hblank, hindent⟩ | ⟨hstart, c, cs, hrest, hlexeme⟩ :=
    step_parts h
  · exact step_of_blankLine hstart hblank
  · exact step_of_indentation hstart hblank hindent
  · exact step_of_lexeme hstart hrest hlexeme

theorem rest_of_step_none (h : s.step = .ok none) : s.rest = [] := by
  unfold step at h
  split at h
  · assumption
  · split at h
    · split at h
      · cases h
      · cases hindent : s.indentation <;> simp [hindent, Except.map] at h
    · next c cs _ _ => cases hlexeme : s.lexeme c cs <;> simp [hlexeme, Except.map] at h

end ScanState

/-! ### A whole scan -/

theorem tokenize_eq_ok {source : String} {tokens : List Token} :
    tokenize source = .ok tokens ↔ scan (.start source.toList) [] = .ok tokens := by
  unfold tokenize
  split <;> simp_all

section Induction

variable {P : ScanState → List Token → Prop} (hend : ∀ s, s.rest = [] → P s s.closing)
  (hstep : ∀ s found next later, ScanState.Step s found next → P next later → P s (found ++ later))

include hend hstep

/-- What holds at the end of a text, and before a bite if it holds after it, holds of every scan. -/
theorem scan_induction {s : ScanState} {done tokens : List Token} (h : scan s done = .ok tokens) :
    ∃ new, tokens = done.reverse ++ new ∧ P s new := by
  fun_induction scan s done with
  | case1 => cases h
  | case2 s done hlast =>
      cases h
      exact ⟨s.closing, rfl, hend s (ScanState.rest_of_step_none hlast)⟩
  | case3 s done found next hfound ih =>
      obtain ⟨new, rfl, hnew⟩ := ih h
      exact ⟨found ++ new, by simp, hstep s found next new (ScanState.step_cases hfound) hnew⟩

theorem tokenize_induction {source : String} {tokens : List Token} (h : tokenize source = .ok tokens) :
    P (.start source.toList) tokens := by
  obtain ⟨new, rfl, hnew⟩ := scan_induction hend hstep (tokenize_eq_ok.1 h)
  exact hnew

end Induction

namespace ScanState

/-- A comment ends before the end of its line. -/
theorem spelled_comment (s : ScanState) : ∀ t ∈ s.comment.1, t.Spelled := by
  intro t ht
  rw [List.mem_singleton.1 ht]
  refine ⟨by simp [tokenHere], by simp [tokenHere], by simp [tokenHere], by simp [tokenHere],
    fun _ c hc => ?_⟩
  rw [tokenHere, String.toList_ofList, Text.trimEnd, List.mem_reverse] at hc
  have hline := List.mem_reverse.1 (List.dropWhile_sublist _ |>.mem hc)
  simpa using List.mem_takeWhile_imp hline

theorem closing_kinds (s : ScanState) :
    ∀ t ∈ s.closing, t.kind = .newline ∨ t.kind = .dedent ∨ t.kind = .endMarker := by
  intro t ht
  unfold closing at ht
  rw [List.mem_append, List.mem_append, List.mem_singleton] at ht
  rcases ht with (ht | ht) | rfl
  · split at ht
    · rw [List.mem_singleton.1 ht]
      exact .inl rfl
    · simp at ht
  · obtain ⟨_, _, rfl⟩ := List.mem_map.1 ht
    exact .inr (.inl rfl)
  · exact .inr (.inr rfl)

theorem Step.spelled {s s' : ScanState} {tokens : List Token} (step : Step s tokens s') :
    ∀ t ∈ tokens, t.Spelled := by
  cases step with
  | code _ _ _ _ spelled => exact List.forall_mem_singleton.2 spelled
  | comment | commentLine => exact spelled_comment _
  | newline | indent => exact List.forall_mem_singleton.2 (.of_isLayout rfl)
  | dedents => exact List.forall_mem_map.2 fun _ _ => .of_isLayout rfl
  | blank | joined | continued | blankLine => simp

end ScanState

/-- Every token of a text is spelled as its kind says. -/
theorem spelled_of_tokenize {source : String} {tokens : List Token}
    (h : tokenize source = .ok tokens) : ∀ t ∈ tokens, t.Spelled := by
  refine tokenize_induction (P := fun _ tokens => ∀ t ∈ tokens, t.Spelled) (fun s _ t ht => ?_)
    (fun s found next later step hlater => List.forall_mem_append.2 ⟨step.spelled, hlater⟩) h
  refine .of_isLayout ?_
  rcases s.closing_kinds t ht with h | h | h <;> simp [h, TokenKind.isLayout]

end TriviaTree
