import Mathlib
import TriviaTree.Proofs.Grammar.Uncommented
import TriviaTree.Proofs.Token.Endings

/-!
A text with its line feeds widened to carriage return and line feed.

The scanner runs over both texts side by side, one bite of the one for one bite of the other
(`widened_step`): a line break is one line break, however it is written. The lexemes are the same,
but for long strings, in which line feeds are widened. A short string can have a line feed only after
a backslash, which takes the carriage return along, so that the string breaks off at the line feed:
on texts without such strings, both scanners find the same words (`tokenize_widened`).
-/

set_option autoImplicit false

namespace TriviaTree

namespace Text

/-- Line feeds become carriage return and line feed. -/
def widen (cs : List Char) : List Char :=
  cs.flatMap fun c => if c = '\n' then ['\r', '\n'] else [c]

@[simp] theorem widen_nil : widen [] = [] := rfl

@[simp] theorem widen_feed (cs : List Char) : widen ('\n' :: cs) = '\r' :: '\n' :: widen cs := by
  simp [widen]

theorem widen_cons {c : Char} (hc : c ≠ '\n') (cs : List Char) : widen (c :: cs) = c :: widen cs := by
  simp [widen, hc]

@[simp] theorem widen_append (cs ds : List Char) : widen (cs ++ ds) = widen cs ++ widen ds := by
  simp [widen]

theorem widen_of_not_mem {cs : List Char} (h : '\n' ∉ cs) : widen cs = cs := by
  induction cs with
  | nil => rfl
  | cons c cs ih =>
      obtain ⟨hc, hcs⟩ := List.ne_and_not_mem_of_not_mem_cons h
      rw [widen_cons hc.symm, ih hcs]

theorem head?_any_widen {p : Char → Bool} (hp : p '\r' = p '\n') (cs : List Char) :
    (widen cs).head?.any p = cs.head?.any p := by
  cases cs with
  | nil => rfl
  | cons c cs =>
      by_cases hc : c = '\n'
      · simp [hc, hp]
      · simp [widen_cons hc]

/-- A literal between tripled quotes. -/
def isLong (literal : List Char) : Bool :=
  (afterStart ['"', '"', '"'] literal).isSome || (afterStart ['\'', '\'', '\''] literal).isSome

end Text

namespace Token

open Text (widen)

variable {cs : List Char}

/-- Widening keeps a text up to its first line feed. -/
theorem cleared_widen (cs : List Char) : Cleared cs (widen cs) := by
  induction cs with
  | nil => exact .of_stops stops_nil stops_nil
  | cons c cs ih =>
      by_cases hc : c = '\n'
      · subst hc
        rw [Text.widen_feed]
        exact .of_stops (stops_cons.2 (by decide)) (stops_cons.2 (by decide))
      · rw [Text.widen_cons hc]
        exact .cons c ih

theorem splitWhile_widen {p : Char → Bool} (hreturn : p '\r' = false) (hfeed : p '\n' = false)
    (cs : List Char) :
    splitWhile p (widen cs) = ((splitWhile p cs).1, widen (splitWhile p cs).2) := by
  simp only [splitWhile]
  induction cs with
  | nil => rfl
  | cons c cs ih =>
      by_cases hc : c = '\n'
      · simp [hc, hreturn, hfeed]
      · rw [Text.widen_cons hc]
        cases hp : p c with
        | true => simpa [hp] using ih
        | false => simp [hp, Text.widen_cons hc]

/-- A line break is one line break. -/
theorem splitBreak_widen (h : '\r' ∉ cs) :
    splitBreak (widen cs) = (widen (splitBreak cs).1, widen (splitBreak cs).2) := by
  cases cs with
  | nil => rfl
  | cons c cs =>
      by_cases hc : c = '\n'
      · simp [hc, splitBreak]
      · have hreturn : c ≠ '\r' := fun heq => h (heq ▸ List.mem_cons_self)
        have hcut : ∀ ds, splitBreak (c :: ds) = ([], c :: ds) := by
          intro ds
          unfold splitBreak
          split <;> simp_all
        rw [Text.widen_cons hc, hcut, hcut, Text.widen_cons hc]
        rfl

/-- A cut that takes no line feed takes the same of a widened text. -/
theorem widen_taken {taken rest : List Char} (happend : taken ++ rest = cs) (h : '\n' ∉ taken) :
    widen cs = taken ++ widen rest := by
  rw [← happend, Text.widen_append, Text.widen_of_not_mem h]

theorem splitNumber_widen (cs : List Char) : splitNumber (widen cs) =
    ((splitNumber cs).1, (splitNumber cs).2.1, widen (splitNumber cs).2.2) := by
  have happend := splitNumber_append cs
  have htaken : '\n' ∉ (splitNumber cs).2.1 := fun hmem =>
    absurd (splitNumber_numeral cs _ hmem) (by decide)
  rw [widen_taken happend htaken]
  exact (cleared_widen _).splitNumber (by rw [happend])

theorem splitOperator_widen (cs : List Char) :
    splitOperator (widen cs) = (splitOperator cs).map fun found => (found.1, widen found.2) := by
  cases hop : splitOperator cs with
  | none =>
      obtain ⟨u, v, v', hcs, hcs', hv, hv'⟩ := cleared_widen cs
      rw [hcs, splitOperator_stop hv, Option.map_eq_none_iff] at hop
      rw [hcs', splitOperator_stop hv', hop]
      rfl
  | some found =>
      obtain ⟨op, rest⟩ := found
      obtain ⟨hmem, happend⟩ := splitOperator_append hop
      have htaken : '\n' ∉ op.toList := fun hfeed =>
        absurd (isStop_of_mem_operators op hmem _ hfeed) (by decide)
      rw [widen_taken happend htaken]
      exact (cleared_widen rest).splitOperator (by rw [happend]; exact hop)

/-! ### Strings -/

theorem afterStart_widen {start : List Char} (hstart : ∀ c ∈ start, c ≠ '\n' ∧ c ≠ '\r')
    (cs : List Char) : Text.afterStart start (widen cs) = (Text.afterStart start cs).map widen := by
  induction start generalizing cs with
  | nil => simp [Text.afterStart]
  | cons a start ih =>
      obtain ⟨⟨hfeed, hreturn⟩, hstart⟩ := List.forall_mem_cons.1 hstart
      cases cs with
      | nil => rfl
      | cons c cs =>
          by_cases hc : c = '\n'
          · subst hc
            simp [Text.afterStart, hfeed, hreturn]
          · rw [Text.widen_cons hc]
            by_cases hac : a = c
            · simp [Text.afterStart, hac, ih hstart]
            · simp [Text.afterStart, hac]

section Bodies

variable {quote : Char} (hquote : Text.IsQuote quote)

include hquote

theorem ne_of_isQuote : quote ≠ '\n' ∧ quote ≠ '\r' ∧ quote ≠ '\\' := by
  rcases hquote with rfl | rfl <;> decide

/-- A short string breaks off at a line feed, also after a backslash. -/
theorem splitShortBody_widen (h : '\r' ∉ cs) : splitShortBody quote (widen cs) =
    (splitShortBody quote cs).bind fun found =>
      if '\n' ∈ found.1 then none else some (found.1, widen found.2) := by
  have hne := ne_of_isQuote hquote
  fun_induction splitShortBody quote cs with
  | case1 => rfl
  | case2 => rfl
  | case3 c cs ih =>
      have ih := ih (by simp_all)
      by_cases hc : c = '\n'
      · subst hc
        rw [Text.widen_cons (by decide), Text.widen_feed, splitShortBody,
          splitShortBody_cons (by decide), if_pos (by decide)]
        cases splitShortBody quote cs <;> simp
      · rw [Text.widen_cons (by decide), Text.widen_cons hc, splitShortBody, ih]
        cases splitShortBody quote cs with
        | none => rfl
        | some found =>
            have hc' : '\n' ≠ c := Ne.symm hc
            by_cases hmem : '\n' ∈ found.1 <;> simp [hmem, hc']
  | case4 c cs hlast hpair hbreak =>
      obtain rfl : c = '\n' := by
        have hreturn : c ≠ '\r' := fun heq => h (heq ▸ List.mem_cons_self)
        simpa [isBreak, hreturn] using hbreak
      rw [Text.widen_feed, splitShortBody_cons (by decide), if_pos (by decide)]
      rfl
  | case5 cs hlast hpair hbreak =>
      rw [Text.widen_cons hne.1, splitShortBody_cons hne.2.2, if_neg hbreak, if_pos rfl]
      simp [hne.1.symm]
  | case6 c cs hlast hpair hbreak hother ih =>
      have hslash : c ≠ '\\' := by
        cases cs <;> grind
      have hfeed : c ≠ '\n' := by
        rintro rfl
        exact hbreak (by decide)
      rw [Text.widen_cons hfeed, splitShortBody_cons hslash, if_neg hbreak, if_neg hother,
        ih (by simp_all)]
      cases splitShortBody quote cs with
      | none => rfl
      | some found => by_cases hmem : '\n' ∈ found.1 <;> simp [hmem, hfeed.symm]

/-- A long string goes on, and its line feeds are widened. -/
theorem splitLongBody_widen (cs : List Char) : splitLongBody quote (widen cs) =
    (splitLongBody quote cs).map fun found => (widen found.1, widen found.2) := by
  have hne := ne_of_isQuote hquote
  have hquotes : ∀ c ∈ [quote, quote, quote], c ≠ '\n' ∧ c ≠ '\r' := by simp [hne]
  fun_induction splitLongBody quote cs with
  | case1 => rfl
  | case2 => rfl
  | case3 c cs ih =>
      by_cases hc : c = '\n'
      · subst hc
        have hopen : Text.afterStart [quote, quote, quote] ('\n' :: widen cs) = none := by
          simp [Text.afterStart, hne.1]
        rw [Text.widen_cons (by decide), Text.widen_feed, splitLongBody,
          splitLongBody_cons (by decide), hopen, ih]
        cases splitLongBody quote cs <;> simp [Text.widen_cons]
      · rw [Text.widen_cons (by decide), Text.widen_cons hc, splitLongBody, ih]
        cases splitLongBody quote cs <;> simp [Text.widen_cons, hc]
  | case4 c cs hlast hpair rest hclosed =>
      obtain ⟨rfl, -⟩ : quote = c ∧ _ := List.cons.inj (afterStart_append hclosed)
      have hclosed' := afterStart_widen hquotes (quote :: cs)
      rw [Text.widen_cons hne.1] at hclosed' ⊢
      rw [splitLongBody_cons hne.2.2, hclosed', hclosed]
      simp [Text.widen_cons hne.1]
  | case5 c cs hlast hpair hopen ih =>
      have hslash : c ≠ '\\' := by
        cases cs <;> grind
      by_cases hc : c = '\n'
      · subst hc
        have hopen' : ∀ c cs, c = '\r' ∨ c = '\n' →
            Text.afterStart [quote, quote, quote] (c :: cs) = none := by
          rintro c cs (rfl | rfl) <;> simp [Text.afterStart, hne]
        rw [Text.widen_feed, splitLongBody_cons (by decide), hopen' _ _ (.inl rfl),
          splitLongBody_cons (by decide), hopen' _ _ (.inr rfl), ih]
        cases splitLongBody quote cs <;> simp
      · have hopen' := afterStart_widen hquotes (c :: cs)
        rw [Text.widen_cons hc, hopen] at hopen'
        rw [Text.widen_cons hc, splitLongBody_cons hslash, hopen', ih]
        cases splitLongBody quote cs <;> simp [Text.widen_cons hc]

end Bodies

/-- What a long body takes ends with the three quotes. -/
theorem splitLongBody_quotes {quote : Char} {taken rest : List Char}
    (h : splitLongBody quote cs = some (taken, rest)) :
    ∃ body, taken = body ++ [quote, quote, quote] := by
  fun_induction splitLongBody quote cs generalizing taken rest with
  | case1 => cases h
  | case2 => cases h
  | case3 c cs ih =>
      obtain ⟨⟨b, r⟩, hbr, heq⟩ := Option.map_eq_some_iff.1 h
      cases heq
      obtain ⟨body, rfl⟩ := ih hbr
      exact ⟨'\\' :: c :: body, rfl⟩
  | case4 c cs hlast hpair rest hclosed =>
      cases h
      exact ⟨[], rfl⟩
  | case5 c cs hlast hpair hopen ih =>
      obtain ⟨⟨b, r⟩, hbr, heq⟩ := Option.map_eq_some_iff.1 h
      cases heq
      obtain ⟨body, rfl⟩ := ih hbr
      exact ⟨c :: body, rfl⟩

end Token

/-- A string as it stands in a text and in the widened one: a long one, in which line feeds are
widened, or a short one without any. -/
inductive WidenedLiteral : List Char → List Char → Prop
  | long {quote : Char} (hquote : Text.IsQuote quote) (body : List Char) :
      WidenedLiteral (quote :: quote :: quote :: (body ++ [quote, quote, quote]))
        (quote :: quote :: quote :: (Text.widen body ++ [quote, quote, quote]))
  | short {cs : List Char} (h : '\n' ∉ cs) (hshort : Text.isLong cs = false) : WidenedLiteral cs cs

/-- A string that begins with one quote is short. -/
theorem Token.isLong_eq_false {quote : Char} {body rest : List Char}
    (h : Text.afterStart [quote, quote] (body ++ rest) = none) :
    Text.isLong (quote :: body) = false := by
  have hnone : ∀ q : Char, Text.afterStart [q, q, q] (quote :: body) = none := by
    intro q
    cases hlong : Text.afterStart [q, q, q] (quote :: body) with
    | none => rfl
    | some inner =>
        have happend := afterStart_append hlong
        obtain ⟨rfl, rfl⟩ := List.cons.inj happend
        simp [Text.afterStart] at h
  simp [Text.isLong, hnone]

/-- The strings that two scanners read side by side; the second finds no end when the first reads a
short string with a line feed in it. -/
theorem Token.splitString_widen {quote : Char} (hquote : Text.IsQuote quote) {cs : List Char}
    (h : '\r' ∉ cs) :
    match splitString (quote :: cs) with
    | none => splitString (quote :: Text.widen cs) = none
    | some (taken, rest) =>
        (∃ taken', splitString (quote :: Text.widen cs) = some (taken', Text.widen rest) ∧
          WidenedLiteral taken taken') ∨
        (splitString (quote :: Text.widen cs) = none ∧ '\n' ∈ taken ∧
          Text.isLong taken = false) := by
  have hne := ne_of_isQuote hquote
  have hopen : Text.afterStart [quote, quote] (Text.widen cs) =
      (Text.afterStart [quote, quote] cs).map Text.widen := afterStart_widen (by simp [hne]) cs
  simp only [splitString, hopen]
  cases hlong : Text.afterStart [quote, quote] cs with
  | some inner =>
      simp only [Option.map_some, splitLongBody_widen hquote]
      cases hbody : splitLongBody quote inner with
      | none => rfl
      | some found =>
          obtain ⟨taken, rest⟩ := found
          obtain ⟨body, rfl⟩ := splitLongBody_quotes hbody
          refine .inl ⟨_, rfl, ?_⟩
          have hquotes : Text.widen [quote, quote, quote] = [quote, quote, quote] :=
            Text.widen_of_not_mem (by simp [hne.1.symm])
          simp only [Text.widen_append, hquotes]
          exact .long hquote body
  | none =>
      simp only [Option.map_none, splitShortBody_widen hquote h]
      cases hbody : splitShortBody quote cs with
      | none => rfl
      | some found =>
          obtain ⟨taken, rest⟩ := found
          rw [← splitShortBody_append hbody] at hlong
          by_cases hmem : '\n' ∈ taken
          · exact .inr ⟨by simp [hmem], List.mem_cons_of_mem _ hmem, isLong_eq_false hlong⟩
          · refine .inl ⟨quote :: taken, by simp [hmem], .short ?_ (isLong_eq_false hlong)⟩
            simp [hmem, hne.1.symm]

/-! ### Side by side -/

/-- The second scanner reads the widened text, and stands at the same place in it. -/
structure Widened (s s' : ScanState) : Prop where
  rest : s'.rest = Text.widen s.rest
  plain : '\r' ∉ s.rest
  depth : s'.depth = s.depth
  indents : s'.indents = s.indents
  lineStart : s'.lineStart = s.lineStart
  lineOpen : s'.lineOpen = s.lineOpen

/-- Words that the two scanners find. -/
structure WidenedWord (w w' : Word) : Prop where
  alike : AlikeWords w w'
  literal : w.1 = .str → WidenedLiteral w.2.toList w'.2.toList

/-- Strings that can be read in the widened text. -/
def Token.Joined (t : Token) : Prop :=
  t.kind = .str → Text.isLong t.text.toList = true ∨ '\n' ∉ t.text.toList

/-- What the second scanner does when the first takes a bite: it fails, or takes one that has the
same words. -/
def MatchesStep (s' : ScanState) : Except ScanFault (Option (List Token × ScanState)) → Prop
  | .error _ => ∃ e, s'.step = .error e
  | .ok none => s'.step = .ok none
  | .ok (some (tokens, next)) =>
      ((∃ t ∈ tokens, ¬ t.Joined) ∧ ∃ e, s'.step = .error e) ∨
      ∃ tokens' next', s'.step = .ok (some (tokens', next')) ∧ Widened next next' ∧
        List.Forall₂ WidenedWord (tokens.map Token.word) (tokens'.map Token.word)

section Bites

variable {s s' : ScanState} {c : Char} {cs : List Char}

/-- Words other than strings that are the same. -/
theorem widenedWords_of_eq {tokens tokens' : List Token}
    (h : tokens'.map Token.word = tokens.map Token.word) (hkind : ∀ t ∈ tokens, t.kind ≠ .str) :
    List.Forall₂ WidenedWord (tokens.map Token.word) (tokens'.map Token.word) := by
  rw [h, List.forall₂_map_left_iff, List.forall₂_map_right_iff, List.forall₂_same]
  exact fun t ht => ⟨.refl _, fun hstr => absurd hstr (hkind t ht)⟩

theorem widenedWords_same {kind : TokenKind} (hkind : kind ≠ .str) (text : List Char) :
    List.Forall₂ WidenedWord ([s.tokenHere kind text].map Token.word)
      ([s'.tokenHere kind text].map Token.word) :=
  widenedWords_of_eq rfl (by simpa [ScanState.tokenHere] using hkind)

variable (widened : Widened s s')
include widened

/-- Both read on. -/
theorem Widened.skip {taken taken' rest : List Char}
    (happend : taken ++ rest = s.rest) : Widened (s.skip taken rest) (s'.skip taken' (Text.widen rest)) where
  rest := rfl
  plain hmem := widened.plain (happend ▸ List.mem_append_right _ hmem)
  depth := widened.depth
  indents := widened.indents
  lineStart := widened.lineStart
  lineOpen := widened.lineOpen

/-- Both read a lexeme. -/
theorem Widened.emit {taken taken' rest : List Char}
    (happend : taken ++ rest = s.rest) (kind : TokenKind) :
    Widened (s.emit kind taken rest).2 (s'.emit kind taken' (Text.widen rest)).2 where
  rest := rfl
  plain hmem := widened.plain (happend ▸ List.mem_append_right _ hmem)
  depth := widened.depth
  indents := widened.indents
  lineStart := widened.lineStart
  lineOpen := rfl

/-- Both read a line break between lexemes. -/
theorem follows_feed (hrest : s.rest = '\n' :: cs)
    (hstart : s.lineStart = false) : MatchesStep s' ((s.lexeme '\n' cs).map some) := by
  have hrest' : s'.rest = '\r' :: '\n' :: Text.widen cs := by rw [widened.rest, hrest, Text.widen_feed]
  have hstep' := ScanState.step_lexeme hrest' (widened.lineStart.trans hstart)
  have hindent : Token.isIndentation '\r' = false ∧ Token.isIndentation '\n' = false := by decide
  have hbreak : Token.isBreak '\r' = true ∧ Token.isBreak '\n' = true := by decide
  have happend : ['\n'] ++ cs = s.rest := hrest.symm
  simp only [ScanState.lexeme, hindent, hbreak, if_true, if_false, Bool.false_eq_true,
    Token.splitBreak, widened.depth] at hstep' ⊢
  have hnext : Widened (s.skip ['\n'] cs) (s'.skip ['\r', '\n'] (Text.widen cs)) :=
    widened.skip happend
  by_cases hdepth : s.depth = 0
  · rw [if_pos hdepth] at hstep' ⊢
    refine .inr ⟨_, _, hstep', { hnext with lineStart := rfl, lineOpen := rfl }, ?_⟩
    exact .cons ⟨⟨rfl, fun hspelled => by cases hspelled⟩, fun hstr => by cases hstr⟩ .nil
  · rw [if_neg hdepth] at hstep' ⊢
    exact .inr ⟨_, _, hstep', hnext, .nil⟩

/-- Both read a comment. -/
theorem Widened.comment :
    Widened s.comment.2 s'.comment.2 ∧
      List.Forall₂ WidenedWord (s.comment.1.map Token.word) (s'.comment.1.map Token.word) := by
  have hcut := Token.splitWhile_widen (p := fun c => !Token.isBreak c) rfl rfl s.rest
  rw [← widened.rest] at hcut
  have happend := Token.splitWhile_append (fun c => !Token.isBreak c) s.rest
  simp only [ScanState.comment, Token.splitComment, hcut]
  exact ⟨widened.skip happend, widenedWords_same (by simp) _⟩

theorem follows_lexeme (hrest : s.rest = c :: cs)
    (hstart : s.lineStart = false) : MatchesStep s' ((s.lexeme c cs).map some) := by
  have hstart' : s'.lineStart = false := widened.lineStart.trans hstart
  have hplain : '\r' ∉ c :: cs := hrest ▸ widened.plain
  have hreturn : c ≠ '\r' := fun heq => hplain (heq ▸ List.mem_cons_self)
  by_cases hfeed : c = '\n'
  · subst hfeed
    exact follows_feed widened hrest hstart
  have hwiden : Text.widen (c :: cs) = c :: Text.widen cs := Text.widen_cons hfeed cs
  have hrest' : s'.rest = c :: Text.widen cs := by rw [widened.rest, hrest, hwiden]
  have hstep' := ScanState.step_lexeme hrest' hstart'
  have hbreak : Token.isBreak c = false := by simp [Token.isBreak, hreturn, hfeed]
  have hdigit : (Text.widen cs).head?.any Char.isDigit = cs.head?.any Char.isDigit :=
    Text.head?_any_widen rfl cs
  have hjoin : (Text.widen cs).head?.any Token.isBreak = cs.head?.any Token.isBreak :=
    Text.head?_any_widen rfl cs
  simp only [ScanState.lexeme, hbreak, hdigit, hjoin, Bool.false_eq_true, if_false] at hstep' ⊢
  by_cases hindent : Token.isIndentation c = true
  · simp only [hindent, if_true] at hstep' ⊢
    exact .inr ⟨_, _, hstep', widened.skip hrest.symm, .nil⟩
  rw [if_neg hindent] at hstep' ⊢
  by_cases hslash : c = '\\'
  · simp only [hslash, if_true] at hstep' ⊢
    rw [Token.splitBreak_widen fun hmem => hplain (List.mem_cons_of_mem _ hmem)] at hstep'
    by_cases hjoined : cs.head?.any Token.isBreak = true
    · rw [if_pos hjoined] at hstep' ⊢
      have happend : '\\' :: (Token.splitBreak cs).1 ++ (Token.splitBreak cs).2 = s.rest := by
        rw [List.cons_append, Token.splitBreak_append, hrest, hslash]
      exact .inr ⟨_, _, hstep', widened.skip happend, .nil⟩
    · rw [if_neg hjoined] at hstep' ⊢
      exact ⟨_, hstep'⟩
  simp only [hslash, if_false] at hstep' ⊢
  by_cases hhash : c = '#'
  · simp only [hhash, if_true] at hstep' ⊢
    exact .inr ⟨_, _, hstep', widened.comment⟩
  simp only [hhash, if_false] at hstep' ⊢
  by_cases hquote : (c = '"' || c = '\'') = true
  · simp only [hquote, if_true] at hstep' ⊢
    have hisQuote : Text.IsQuote c := by simpa [Text.IsQuote] using hquote
    have hstrings := Token.splitString_widen hisQuote fun hmem =>
      hplain (List.mem_cons_of_mem _ hmem)
    cases hstring : Token.splitString (c :: cs) with
    | none =>
        rw [hstring] at hstrings
        rw [hstrings] at hstep'
        exact ⟨_, hstep'⟩
    | some found =>
        obtain ⟨taken, rest⟩ := found
        rw [hstring] at hstrings
        rcases hstrings with ⟨taken', hstring', hliteral⟩ | ⟨hstring', hmem, hshort⟩
        · rw [hstring'] at hstep'
          refine .inr ⟨_, _, hstep', ?_, ?_⟩
          · exact widened.emit ((Token.splitString_append hstring).trans hrest.symm) .str
          · refine .cons ⟨⟨rfl, fun hspelled => by cases hspelled⟩, fun _ => ?_⟩ .nil
            simpa [Token.word, ScanState.tokenHere] using hliteral
        · rw [hstring'] at hstep'
          refine .inl ⟨⟨_, List.mem_singleton_self _, fun hjoined => ?_⟩, _, hstep'⟩
          simpa [ScanState.tokenHere, hshort, hmem] using hjoined rfl
  rw [if_neg hquote] at hstep' ⊢
  by_cases hnumber : (c.isDigit || c = '.' && cs.head?.any Char.isDigit) = true
  · simp only [hnumber, if_true] at hstep' ⊢
    have happend := Token.splitNumber_append (c :: cs)
    have hkind := Token.splitNumber_int_or_float (c :: cs)
    rw [← hwiden, Token.splitNumber_widen] at hstep'
    generalize Token.splitNumber (c :: cs) = cut at *
    refine .inr ⟨_, _, hstep', widened.emit (happend.trans hrest.symm) cut.1, ?_⟩
    exact widenedWords_same (by rcases hkind with h | h <;> simp [h]) _
  rw [if_neg hnumber] at hstep' ⊢
  by_cases hname : Text.isNameStart c = true
  · simp only [hname, if_true] at hstep' ⊢
    have happend := Token.splitWhile_append Text.isNamePart (c :: cs)
    rw [← hwiden, Token.splitWhile_widen (p := Text.isNamePart) (by decide) (by decide)] at hstep'
    generalize Token.splitWhile Text.isNamePart (c :: cs) = cut at *
    refine .inr ⟨_, _, hstep', widened.emit (happend.trans hrest.symm) .name, ?_⟩
    exact widenedWords_same (by simp) _
  rw [if_neg hname] at hstep' ⊢
  rw [← hwiden, Token.splitOperator_widen] at hstep'
  cases hop : Token.splitOperator (c :: cs) with
  | none =>
      rw [hop] at hstep'
      exact ⟨_, hstep'⟩
  | some found =>
      obtain ⟨op, rest⟩ := found
      rw [hop] at hstep'
      have happend := (Token.splitOperator_append hop).2.trans hrest.symm
      have hemit : Widened (s.emit .op op.toList rest).2
          (s'.emit .op op.toList (Text.widen rest)).2 := widened.emit happend .op
      refine .inr ⟨_, _, hstep', ?_, widenedWords_same (by simp) _⟩
      exact { hemit with depth := congrArg (ScanState.depthAfter op) widened.depth }

/-! ### Side by side at the beginning of a line -/

theorem Widened.skipBreak : Widened s.skipBreak s'.skipBreak := by
  have hcut := Token.splitBreak_widen widened.plain
  rw [← widened.rest] at hcut
  simp only [ScanState.skipBreak, hcut]
  exact widened.skip (Token.splitBreak_append s.rest)

/-- Both have the same blanks before them. -/
theorem Widened.blanks {taken rest : List Char}
    (hcut : Token.splitWhile Token.isIndentation s.rest = (taken, rest)) :
    Token.splitWhile Token.isIndentation s'.rest = (taken, Text.widen rest) ∧
      Widened (s.skip taken rest) (s'.skip taken (Text.widen rest)) := by
  have happend := Token.splitWhile_append Token.isIndentation s.rest
  have hcut' := Token.splitWhile_widen (p := Token.isIndentation) rfl rfl s.rest
  rw [← widened.rest, hcut] at hcut'
  rw [hcut] at happend
  exact ⟨hcut', widened.skip happend⟩

/-- A line is blank in both texts, or in none. -/
theorem widened_blankLine :
    (s.blankLine? = none ∧ s'.blankLine? = none) ∨
    ∃ tokens next tokens' next', s.blankLine? = some (tokens, next) ∧
      s'.blankLine? = some (tokens', next') ∧ Widened next next' ∧
        List.Forall₂ WidenedWord (tokens.map Token.word) (tokens'.map Token.word) := by
  cases hcut : Token.splitWhile Token.isIndentation s.rest with | mk taken rest
  obtain ⟨hcut', hskip⟩ := widened.blanks hcut
  by_cases hbreak : ∀ c ∈ rest.head?, Token.isBreak c = true
  · have hbreak' : ∀ c ∈ (Text.widen rest).head?, Token.isBreak c = true := by
      cases rest with
      | nil => simp
      | cons c cs =>
          by_cases hc : c = '\n'
          · subst hc
            simp [Token.isBreak]
          · simpa [Text.widen_cons hc] using hbreak
    exact .inr ⟨_, _, _, _, ScanState.blankLine?_break hcut hbreak,
      ScanState.blankLine?_break hcut' hbreak', hskip.skipBreak, .nil⟩
  · obtain ⟨c, cs, rfl, hc⟩ : ∃ c cs, rest = c :: cs ∧ Token.isBreak c = false := by
      cases rest with
      | nil => simp at hbreak
      | cons c cs => exact ⟨c, cs, rfl, by simpa using hbreak⟩
    have hfeed : c ≠ '\n' := by
      rintro rfl
      exact absurd hc (by decide)
    rw [Text.widen_cons hfeed] at hcut' hskip
    by_cases hhash : c = '#'
    · subst hhash
      obtain ⟨hnext, hwords⟩ := hskip.comment
      exact .inr ⟨_, _, _, _, ScanState.blankLine?_comment hcut, ScanState.blankLine?_comment hcut',
        hnext.skipBreak, hwords⟩
    · exact .inl ⟨(ScanState.blankLine?_eq_none_iff hcut).2 ⟨c, cs, rfl, hc, hhash⟩,
        (ScanState.blankLine?_eq_none_iff hcut').2 ⟨c, _, rfl, hc, hhash⟩⟩

theorem follows_indentation (hstep' : s'.step = s'.indentation.map some) :
    MatchesStep s' (s.indentation.map some) := by
  cases hcut : Token.splitWhile Token.isIndentation s.rest with | mk taken rest
  obtain ⟨hcut', hskip⟩ := widened.blanks hcut
  have hindents : (s'.skip taken (Text.widen rest)).indents = (s.skip taken rest).indents :=
    widened.indents
  simp only [ScanState.indentation, hcut, hcut', hindents] at hstep' ⊢
  by_cases hdeeper : (s.skip taken rest).indents.headD 0 < ScanState.indentWidth taken
  · rw [if_pos hdeeper] at hstep' ⊢
    refine .inr ⟨_, _, hstep', ?_, widenedWords_same (by simp) _⟩
    exact { hskip with indents := rfl, lineStart := rfl }
  rw [if_neg hdeeper] at hstep' ⊢
  by_cases hfits : ((s.skip taken rest).indents.dropWhile
      (ScanState.indentWidth taken < ·)).headD 0 = ScanState.indentWidth taken
  · rw [if_pos hfits] at hstep' ⊢
    refine .inr ⟨_, _, hstep', { hskip with indents := rfl, lineStart := rfl },
      widenedWords_of_eq ?_ ?_⟩
    · simp [Token.word, ScanState.tokenHere]
    · rintro t ht hstr
      obtain ⟨_, _, rfl⟩ := List.mem_map.1 ht
      cases hstr
  · rw [if_neg hfits] at hstep' ⊢
    exact ⟨_, hstep'⟩

/-- One bite of both scanners. -/
theorem widened_step : MatchesStep s' s.step := by
  cases hrest : s.rest with
  | nil =>
      have hrest' : s'.rest = [] := by rw [widened.rest, hrest, Text.widen_nil]
      rw [ScanState.step_end hrest]
      exact ScanState.step_end hrest'
  | cons c cs =>
      cases hstart : s.lineStart with
      | false =>
          rw [ScanState.step_lexeme hrest hstart]
          exact follows_lexeme widened hrest hstart
      | true =>
          have hstart' : s'.lineStart = true := widened.lineStart.trans hstart
          have hrest' : s'.rest ≠ [] := by
            rw [widened.rest, hrest]
            by_cases hc : c = '\n'
            · simp [hc, Text.widen_feed]
            · simp [Text.widen_cons hc cs]
          rcases widened_blankLine widened with
            ⟨hnone, hnone'⟩ | ⟨tokens, next, tokens', next', hblank, hblank', hnext, hwords⟩
          · rw [ScanState.step_indentation hstart hnone]
            exact follows_indentation widened (ScanState.step_indentation hstart' hnone')
          · rw [ScanState.step_blankLine (by simp [hrest]) hstart hblank]
            exact .inr ⟨tokens', next', ScanState.step_blankLine hrest' hstart' hblank', hnext, hwords⟩

theorem Widened.closing :
    List.Forall₂ WidenedWord (s.closing.map Token.word) (s'.closing.map Token.word) := by
  refine widenedWords_of_eq ?_ fun t ht => ?_
  · simp only [ScanState.closing, widened.lineOpen, widened.indents]
    cases s.lineOpen <;> simp [Token.word, ScanState.tokenHere]
  · rcases s.closing_kinds t ht with h | h | h <;> simp [h]

end Bites

/-! ### A whole scan -/

/-- The second scan fails with the first. -/
theorem scan_widened_error {s s' : ScanState} {done done' : List Token} {e : ScanFault}
    (widened : Widened s s') (h : scan s done = .error e) : ∃ e', scan s' done' = .error e' := by
  fun_induction scan s done generalizing s' done' with
  | case1 s done fault hstep =>
      have hfollows := widened_step widened
      rw [hstep] at hfollows
      obtain ⟨e', hstep'⟩ := hfollows
      exact ⟨e', scan_of_step_error hstep'⟩
  | case2 => cases h
  | case3 s done found next hstep ih =>
      have hfollows := widened_step widened
      rw [hstep] at hfollows
      rcases hfollows with ⟨_, e', hstep'⟩ | ⟨found', next', hstep', hnext, _⟩
      · exact ⟨e', scan_of_step_error hstep'⟩
      · obtain ⟨e', hscan'⟩ := ih hnext h
        exact ⟨e', (scan_of_step_some hstep').trans hscan'⟩

/-- Where short strings have no line feed, both scans find the same words. -/
theorem scan_widened {s s' : ScanState} {done done' new : List Token} (widened : Widened s s')
    (h : scan s done = .ok (done.reverse ++ new)) (hjoined : ∀ t ∈ new, t.Joined) :
    ∃ new', scan s' done' = .ok (done'.reverse ++ new') ∧
      List.Forall₂ WidenedWord (new.map Token.word) (new'.map Token.word) := by
  fun_induction scan s done generalizing s' done' new with
  | case1 => cases h
  | case2 s done hstep =>
      obtain rfl : s.closing = new := by simpa using h
      have hfollows := widened_step widened
      rw [hstep] at hfollows
      exact ⟨s'.closing, scan_of_step_none hfollows, widened.closing⟩
  | case3 s done found next hstep ih =>
      obtain ⟨later, heq, -⟩ := scan_adds h
      obtain rfl : new = found ++ later := by simpa using heq
      have hfollows := widened_step widened
      rw [hstep] at hfollows
      obtain ⟨hfound, hlater⟩ := List.forall_mem_append.1 hjoined
      rcases hfollows with ⟨⟨t, ht, hnot⟩, _⟩ | ⟨found', next', hstep', hnext, hwords⟩
      · exact absurd (hfound t ht) hnot
      obtain ⟨later', hscan', hwords'⟩ := ih hnext (by simpa using h) hlater
      refine ⟨found' ++ later', ?_, ?_⟩
      · rw [scan_of_step_some hstep', hscan']
        simp
      · rw [List.map_append, List.map_append]
        exact List.rel_append hwords hwords'

/-- A text with its line feeds widened. -/
def widened (source : String) : String :=
  String.ofList (Text.widen source.toList)

section Texts

variable {source : String} (hplain : '\r' ∉ source.toList)

include hplain

theorem widened_start : Widened (.start source.toList) (.start (widened source).toList) := by
  have hrest : (widened source).toList = Text.widen source.toList := String.toList_ofList
  rw [hrest]
  exact ⟨rfl, hplain, rfl, rfl, rfl, rfl⟩

theorem tokenize_widened_error {e : SyntaxError} (h : tokenize source = .error e) :
    ∃ e', tokenize (widened source) = .error e' := by
  unfold tokenize at h
  split at h
  · cases h
  · next hscan =>
    obtain ⟨e', hscan'⟩ := scan_widened_error (widened_start hplain) hscan
    rw [tokenize, hscan']
    exact ⟨_, rfl⟩

theorem tokenize_widened {tokens : List Token} (h : tokenize source = .ok tokens)
    (hjoined : ∀ t ∈ tokens, t.Joined) : ∃ tokens', tokenize (widened source) = .ok tokens' ∧
      List.Forall₂ WidenedWord (codeWords tokens) (codeWords tokens') := by
  obtain ⟨tokens', hscan', hwords⟩ := scan_widened (widened_start hplain)
    (show scan _ [] = .ok ([].reverse ++ tokens) from tokenize_eq_ok.1 h) hjoined
  refine ⟨tokens', tokenize_eq_ok.2 hscan', ?_⟩
  rw [codeWords_eq_filter, codeWords_eq_filter]
  refine List.rel_filter (fun w w' hword => ?_) hwords
  simp only [hword.alike.kind]

end Texts

end TriviaTree
