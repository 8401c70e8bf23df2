import Mathlib
import TriviaTree.Proofs.Grammar.Words
import TriviaTree.Proofs.Token.Sequence
import TriviaTree.Proofs.Token.Stops

/-!
Comments are invisible to the grammar.

`uncommented` deletes the comments of a text, each from its `#` to the end of its line. The scanner
runs over both texts side by side (`Beside`): what it reads of the one it reads of the other, but for
the comments, which it steps over in the one and which are not there in the other (`beside_step`). So
the words are the same (`words_uncommented`), and with them the trees.

A comment between a carriage return and a line feed keeps these apart. Without it they are one line
break, which is another word, and after a backslash another line (`SplitsBreak`).
-/

set_option autoImplicit false

namespace TriviaTree

def Token.word (t : Token) : Word := (t.kind, t.text)

/-! ### Deleting comments -/

/-- The text `cs`, which begins at `offset`, without the comments that begin at the offsets in
`starts`; `inside` says that one has begun. -/
def deleteComments (starts : Nat → Bool) : Nat → Bool → List Char → List Char
  | _, _, [] => []
  | offset, inside, c :: cs =>
      if (inside || starts offset) && !Token.isBreak c then
        deleteComments starts (offset + c.utf8Size) true cs
      else c :: deleteComments starts (offset + c.utf8Size) false cs

/-- One of the tokens is a comment that begins at `offset`. -/
def startsComment (tokens : List Token) (offset : Nat) : Bool :=
  tokens.any fun t => t.kind = .comment && t.start = offset

/-- A text without the comments among its tokens. -/
def uncommented (source : String) (tokens : List Token) : String :=
  String.ofList (deleteComments (startsComment tokens) 0 false source.toList)

/-- The comment stands between a carriage return and a line feed. -/
def Token.SplitsBreak (source : String) (comment : Token) : Prop :=
  ∃ before line after, source.toList = before ++ '\r' :: (line ++ '\n' :: after) ∧
    comment.start = Text.byteSize before + 1 ∧ ∀ c ∈ line, Token.isBreak c = false

/-- What is known of the comments that begin in a text: they begin with their `#`, and none stands
between a carriage return and a line feed. -/
structure Marks (starts : Nat → Bool) (offset : Nat) (cs : List Char) : Prop where
  hash : ∀ before c after, cs = before ++ c :: after →
    starts (offset + Text.byteSize before) = true → c = '#'
  apart : ∀ before line after, cs = before ++ '\r' :: (line ++ '\n' :: after) →
    (∀ c ∈ line, Token.isBreak c = false) → starts (offset + Text.byteSize before + 1) = false

section Deletion

variable {starts : Nat → Bool} {offset : Nat} {cs taken rest line : List Char}

theorem Marks.drop (marks : Marks starts offset (taken ++ rest)) :
    Marks starts (offset + Text.byteSize taken) rest where
  hash before c after hsplit hstarts := by
    refine marks.hash (taken ++ before) c after (by simp [hsplit]) ?_
    rwa [Text.byteSize_append, ← Nat.add_assoc]
  apart before line after hsplit hline := by
    have := marks.apart (taken ++ before) line after (by simp [hsplit]) hline
    rwa [Text.byteSize_append, ← Nat.add_assoc] at this

theorem Marks.tail {c : Char} (marks : Marks starts offset (c :: cs)) :
    Marks starts (offset + c.utf8Size) cs := by
  have hlater : Marks starts (offset + Text.byteSize [c]) cs := marks.drop
  simpa [Text.byteSize_cons] using hlater

/-- Where no comment begins, nothing is deleted. -/
theorem deleteComments_append
    (hnone : ∀ o, offset ≤ o → o < offset + Text.byteSize taken → starts o = false) :
    deleteComments starts offset false (taken ++ rest) =
      taken ++ deleteComments starts (offset + Text.byteSize taken) false rest := by
  induction taken generalizing offset with
  | nil => simp
  | cons c taken ih =>
      have hpos := c.utf8Size_pos
      have hhere : starts offset = false :=
        hnone offset le_rfl (by rw [Text.byteSize_cons]; omega)
      have hlater : ∀ o, offset + c.utf8Size ≤ o →
          o < offset + c.utf8Size + Text.byteSize taken → starts o = false :=
        fun o hlo hhi => hnone o (by omega) (by rw [Text.byteSize_cons]; omega)
      simp [deleteComments, hhere, ih hlater, Text.byteSize_cons, Nat.add_assoc]

/-- Nor where there is no `#`. -/
theorem Marks.deleteComments_cons {c : Char} (marks : Marks starts offset (c :: cs)) (hc : c ≠ '#') :
    deleteComments starts offset false (c :: cs) =
      c :: deleteComments starts (offset + c.utf8Size) false cs := by
  have hhere : starts offset = false := by
    by_contra hstarts
    exact hc (marks.hash [] c cs rfl (by simpa using hstarts))
  simp [deleteComments, hhere]

theorem Marks.deleteComments_append (marks : Marks starts offset (taken ++ rest))
    (htaken : ∀ c ∈ taken, c ≠ '#') :
    deleteComments starts offset false (taken ++ rest) =
      taken ++ deleteComments starts (offset + Text.byteSize taken) false rest := by
  induction taken generalizing offset with
  | nil => simp
  | cons c taken ih =>
      obtain ⟨hc, htaken⟩ := List.forall_mem_cons.1 htaken
      have hlater := ih marks.tail htaken
      rw [List.cons_append] at marks ⊢
      rw [marks.deleteComments_cons hc, hlater, Text.byteSize_cons, Nat.add_assoc, List.cons_append]

/-- A comment that has begun is deleted to the end of its line. -/
theorem deleteComments_line (hline : ∀ c ∈ line, Token.isBreak c = false)
    (hrest : ∀ c ∈ rest.head?, Token.isBreak c = true) :
    deleteComments starts offset true (line ++ rest) =
      deleteComments starts (offset + Text.byteSize line) false rest := by
  induction line generalizing offset with
  | nil =>
      cases rest with
      | nil => rfl
      | cons c rest => simp [deleteComments, hrest c rfl]
  | cons c line ih =>
      have hlater := fun d hd => hline d (List.mem_cons_of_mem c hd)
      simp [deleteComments, hline c List.mem_cons_self, ih hlater, Text.byteSize_cons, Nat.add_assoc]

theorem deleteComments_splitComment (hstarts : starts offset = true) (hcs : cs = '#' :: rest) :
    deleteComments starts offset false cs =
      deleteComments starts (offset + Text.byteSize (Token.splitComment cs).1) false
        (Token.splitComment cs).2 := by
  subst hcs
  have hbreak : Token.isBreak '#' = false := by decide
  have hcut : Token.splitComment ('#' :: rest) =
      ('#' :: rest.takeWhile (!Token.isBreak ·), rest.dropWhile (!Token.isBreak ·)) := by
    simp [Token.splitComment, Token.splitWhile, hbreak]
  have hline : ∀ c ∈ rest.takeWhile (!Token.isBreak ·), Token.isBreak c = false :=
    fun c hc => by simpa using List.mem_takeWhile_imp hc
  have hend : ∀ c ∈ (rest.dropWhile (!Token.isBreak ·)).head?, Token.isBreak c = true :=
    Token.isBreak_after_splitComment rest
  rw [hcut, Text.byteSize_cons, ← Nat.add_assoc]
  rw [← deleteComments_line hline hend, List.takeWhile_append_dropWhile]
  simp [deleteComments, hstarts, hbreak]

/-- The first line break after a comment stays. -/
theorem stops_deleteComments (offset : Nat) (cs : List Char) :
    ∀ c ∈ (deleteComments starts offset true cs).head?, Token.isBreak c = true := by
  induction cs generalizing offset with
  | nil => simp [deleteComments]
  | cons c cs ih =>
      cases hc : Token.isBreak c with
      | true => simp [deleteComments, hc]
      | false =>
          simp only [deleteComments, hc]
          exact ih _

theorem deleteComments_break {c : Char} (hc : Token.isBreak c = true) :
    deleteComments starts offset false (c :: cs) =
      c :: deleteComments starts (offset + c.utf8Size) false cs := by
  simp [deleteComments, hc]

/-- A text and what is left of it are the same up to the next line break or comment. -/
theorem Marks.cleared (marks : Marks starts offset cs) :
    Token.Cleared cs (deleteComments starts offset false cs) := by
  induction cs generalizing offset with
  | nil => exact .of_stops Token.stops_nil Token.stops_nil
  | cons c cs ih =>
      cases hbreak : Token.isBreak c with
      | true =>
          have hstop : Token.isStop c = true := by simp [Token.isStop, hbreak]
          rw [deleteComments_break hbreak]
          exact .of_stops (Token.stops_cons.2 hstop) (Token.stops_cons.2 hstop)
      | false =>
          cases hstarts : starts offset with
          | true =>
              obtain rfl : c = '#' := marks.hash [] c cs rfl (by simpa using hstarts)
              simp only [deleteComments, hstarts, hbreak]
              refine .of_stops (Token.stops_cons.2 (by decide)) fun d hd => ?_
              simp [Token.isStop, stops_deleteComments _ _ d hd]
          | false =>
              simp only [deleteComments, hstarts, hbreak]
              exact .cons c (ih marks.tail)

/-- A line feed at the beginning of what is left was there before, or stands behind a comment. -/
theorem head?_deleteComments (h : (deleteComments starts offset false cs).head? = some '\n') :
    cs.head? = some '\n' ∨ starts offset = true ∧
      ∃ line after, cs = line ++ '\n' :: after ∧ ∀ c ∈ line, Token.isBreak c = false := by
  have hinside : ∀ cs offset, (deleteComments starts offset true cs).head? = some '\n' →
      ∃ line after, cs = line ++ '\n' :: after ∧ ∀ c ∈ line, Token.isBreak c = false := by
    intro cs
    induction cs with
    | nil => simp [deleteComments]
    | cons c cs ih =>
        intro offset h
        cases hbreak : Token.isBreak c with
        | true =>
            obtain rfl : c = '\n' := by simpa [deleteComments, hbreak] using h
            exact ⟨[], cs, rfl, by simp⟩
        | false =>
            obtain ⟨line, after, rfl, hline⟩ :=
              ih (offset + c.utf8Size) (by simpa [deleteComments, hbreak] using h)
            exact ⟨c :: line, after, rfl, List.forall_mem_cons.2 ⟨hbreak, hline⟩⟩
  cases cs with
  | nil => simp [deleteComments] at h
  | cons c cs =>
      cases hdeleted : starts offset && !Token.isBreak c with
      | false =>
          rw [deleteComments, Bool.false_or, hdeleted] at h
          exact .inl (by simpa using h)
      | true =>
          rw [deleteComments, Bool.false_or, hdeleted, if_pos rfl] at h
          simp only [Bool.and_eq_true, Bool.not_eq_true'] at hdeleted
          obtain ⟨line, after, rfl, hline⟩ := hinside cs _ h
          exact .inr ⟨hdeleted.1, c :: line, after, rfl, List.forall_mem_cons.2 ⟨hdeleted.2, hline⟩⟩

theorem isBreak_head?_deleteComments (hcs : ∀ c ∈ cs.head?, Token.isBreak c = true) :
    ∀ c ∈ (deleteComments starts offset false cs).head?, Token.isBreak c = true := by
  cases cs with
  | nil => simp [deleteComments]
  | cons c cs =>
      rw [deleteComments_break (hcs c rfl)]
      simpa using hcs

/-- A line break is the same in what is left of a text. -/
theorem Marks.splitBreak (marks : Marks starts offset cs)
    (hcs : ∀ c ∈ cs.head?, Token.isBreak c = true) :
    Token.splitBreak (deleteComments starts offset false cs) =
      ((Token.splitBreak cs).1,
        deleteComments starts (offset + Text.byteSize (Token.splitBreak cs).1) false
          (Token.splitBreak cs).2) := by
  have hreturn : Token.isBreak '\r' = true := by decide
  have hfeed : Token.isBreak '\n' = true := by decide
  match cs with
  | [] => rfl
  | c :: tail =>
  have hc : c = '\r' ∨ c = '\n' := by simpa [Token.isBreak] using hcs
  rcases hc with rfl | rfl
  · by_cases hnext : tail.head? = some '\n'
    · obtain ⟨tail, rfl⟩ := List.head?_eq_some_iff.1 hnext
      rw [deleteComments_break hreturn, deleteComments_break hfeed]
      simp [Token.splitBreak, Text.byteSize_cons, Nat.add_assoc]
    · -- nothing that is deleted lets a line feed follow the carriage return
      have hnext' : (deleteComments starts (offset + 1) false tail).head? ≠ some '\n' := by
        intro hfed
        rcases head?_deleteComments hfed with hhead | ⟨hstarts, line, after, rfl, hline⟩
        · exact hnext hhead
        · have := marks.apart [] line after rfl hline
          rw [Text.byteSize_nil, Nat.add_zero, hstarts] at this
          cases this
      have hcut : ∀ cs : List Char, cs.head? ≠ some '\n' →
          Token.splitBreak ('\r' :: cs) = (['\r'], cs) := by
        intro cs hcs
        cases cs with
        | nil => rfl
        | cons d cs =>
            have hd : d ≠ '\n' := by simpa using hcs
            simp [Token.splitBreak, hd]
      rw [deleteComments_break hreturn, hcut _ hnext]
      exact hcut _ hnext'
  · rw [deleteComments_break hfeed]
    rfl

end Deletion

/-! ### Side by side -/

/-- The second scanner reads what is left of the text of the first, and stands at the same place in
it. -/
structure Beside (starts : Nat → Bool) (s s' : ScanState) : Prop where
  rest : s'.rest = deleteComments starts s.offset false s.rest
  depth : s'.depth = s.depth
  indents : s'.indents = s.indents
  lineStart : s'.lineStart = s.lineStart
  lineOpen : s'.lineOpen = s.lineOpen

/-- The words of tokens that are no comments. -/
def codeWords (tokens : List Token) : List Word :=
  (tokens.filter (·.kind ≠ .comment)).map Token.word

/-- Where the comments of a stretch of the text begin. -/
def CommentsBetween (starts : Nat → Bool) (lo hi : Nat) (tokens : List Token) : Prop :=
  ∀ o, lo ≤ o → o < hi → (starts o = true ↔ ∃ t ∈ tokens, t.kind = .comment ∧ t.start = o)

/-- After a bite that found `tokens` and led to `next`, the second scanner is beside the first again:
where it was, if there were only comments, or after one bite with the same words. -/
def CatchesUp (starts : Nat → Bool) (tokens : List Token) (next s' : ScanState) : Prop :=
  (Beside starts next s' ∧ codeWords tokens = []) ∨
  ∃ tokens' next', s'.step = .ok (some (tokens', next')) ∧ Beside starts next next' ∧
    tokens'.map Token.word = codeWords tokens

section Bites

variable {starts : Nat → Bool} {s s' next : ScanState} {tokens : List Token} {c : Char}
  {cs taken rest : List Char}

/-- A bite without comments. -/
theorem CommentsBetween.none {lo hi : Nat} (h : CommentsBetween starts lo hi tokens)
    (hcode : ∀ t ∈ tokens, t.kind ≠ .comment) : ∀ o, lo ≤ o → o < hi → starts o = false := by
  intro o hlo hhi
  by_contra hstarts
  obtain ⟨t, ht, hkind, _⟩ := (h o hlo hhi).1 (by simpa using hstarts)
  exact hcode t ht hkind

/-- A bite that is a comment. -/
theorem CommentsBetween.comment (hrest : s.rest = '#' :: cs)
    (h : CommentsBetween starts s.offset s.comment.2.offset s.comment.1) :
    starts s.offset = true := by
  have hlt : s.offset < s.comment.2.offset := by
    refine Nat.lt_add_of_pos_right (Text.byteSize_pos ?_)
    simp [hrest, Token.isBreak]
  exact (h s.offset le_rfl hlt).2 ⟨_, List.mem_singleton_self _, rfl, rfl⟩

theorem CommentsBetween.mono {lo lo' hi hi' : Nat} (h : CommentsBetween starts lo hi tokens)
    (hlo : lo ≤ lo') (hhi : hi' ≤ hi) : CommentsBetween starts lo' hi' tokens :=
  fun o hge hlt => h o (hlo.trans hge) (hlt.trans_le hhi)

theorem codeWords_word {t : Token} (h : t.kind ≠ .comment) : codeWords [t] = [t.word] := by
  simp [codeWords, h]

/-- The second scanner reads over a blank line, unless it is at the end of the text. -/
theorem catchesUp_blankLine {next' : ScanState} (hstart' : s'.lineStart = true)
    (hblank : s'.blankLine? = some ([], next')) (beside : Beside starts next next')
    (hcode : codeWords tokens = []) : CatchesUp starts tokens next s' := by
  cases hrest' : s'.rest with
  | nil =>
      have hsame : s'.skip [] [] = s' := by cases s'; cases hrest'; rfl
      have hnext : next' = s' := by
        simpa [ScanState.blankLine?, Token.splitWhile, hrest', hsame] using hblank.symm
      exact .inl ⟨hnext ▸ beside, hcode⟩
  | cons c cs =>
      exact .inr ⟨[], next', ScanState.step_blankLine (by simp [hrest']) hstart' hblank, beside,
        hcode.symm⟩

variable (beside : Beside starts s s')
include beside

theorem Beside.rest_eq (taken : List Char) (hrest : taken ++ rest = s.rest)
    (hnone : ∀ o, s.offset ≤ o → o < s.offset + Text.byteSize taken → starts o = false) :
    s'.rest = taken ++ deleteComments starts (s.offset + Text.byteSize taken) false rest := by
  rw [beside.rest, ← hrest, deleteComments_append hnone]

/-- Both read on in code. -/
theorem Beside.skip (taken rest : List Char) :
    Beside starts (s.skip taken rest)
      (s'.skip taken (deleteComments starts (s.offset + Text.byteSize taken) false rest)) :=
  ⟨rfl, beside.depth, beside.indents, beside.lineStart, beside.lineOpen⟩

/-- The first reads a comment, which is not there for the second. -/
theorem Beside.comment (hrest : s.rest = '#' :: cs)
    (hstarts : starts s.offset = true) : Beside starts s.comment.2 s' :=
  ⟨by rw [beside.rest, deleteComments_splitComment hstarts hrest]; rfl, beside.depth, beside.indents,
    beside.lineStart, beside.lineOpen⟩

/-- Both read a lexeme of code. -/
theorem Beside.catchesUp_emit {kind : TokenKind}
    (hkind : kind ≠ .comment) (change : ScanState → ScanState)
    (hchange : ∀ s s', Beside starts s s' → Beside starts (change s) (change s'))
    (hstep' : s'.step = .ok (some ((s'.emit kind taken
      (deleteComments starts (s.offset + Text.byteSize taken) false rest)).map id change))) :
    CatchesUp starts (s.emit kind taken rest).1 (change (s.emit kind taken rest).2) s' := by
  refine .inr ⟨_, _, hstep', hchange _ _ ?_, ?_⟩
  · exact ⟨rfl, beside.depth, beside.indents, beside.lineStart, rfl⟩
  · exact (codeWords_word (t := s.tokenHere kind taken) hkind).symm

theorem Beside.closing : s'.closing.map Token.word = codeWords s.closing := by
  cases hopen : s.lineOpen <;>
    simp [ScanState.closing, codeWords, Token.word, ScanState.tokenHere, beside.indents,
      beside.lineOpen, hopen]

variable (marks : Marks starts s.offset s.rest)
include marks

theorem Beside.skipBreak (hrest : ∀ c ∈ s.rest.head?, Token.isBreak c = true) :
    Beside starts s.skipBreak s'.skipBreak := by
  have hcut := marks.splitBreak hrest
  rw [← beside.rest] at hcut
  refine ⟨?_, beside.depth, beside.indents, beside.lineStart, beside.lineOpen⟩
  simp [ScanState.skipBreak, ScanState.skip, hcut]

/-- What the second scanner has before it when the first reads the lexeme `taken` of code. -/
theorem Beside.reads
    (hrest : s.rest = c :: cs) (happend : taken ++ rest = c :: cs) (hne : taken ≠ [])
    {kind : TokenKind} (hkind : kind ≠ .comment)
    (hcomments : CommentsBetween starts s.offset (s.offset + Text.byteSize taken)
      [s.tokenHere kind taken]) :
    ∃ cs', s'.rest = c :: cs' ∧ Token.Cleared cs cs' ∧
      c :: cs' = taken ++ deleteComments starts (s.offset + Text.byteSize taken) false rest ∧
      Token.Cleared rest (deleteComments starts (s.offset + Text.byteSize taken) false rest) := by
  have hnone := hcomments.none fun t ht => by rwa [List.mem_singleton.1 ht]
  obtain ⟨d, taken, rfl⟩ := List.exists_cons_of_ne_nil hne
  obtain ⟨rfl, rfl⟩ : d = c ∧ taken ++ rest = cs := List.cons.inj happend
  have hrest' := beside.rest_eq (d :: taken) hrest.symm hnone
  rw [hrest] at marks
  refine ⟨_, hrest', ?_, rfl, ?_⟩
  · have hlater : Marks starts (s.offset + Text.byteSize [d]) (taken ++ rest) := marks.drop
    have hcleared := hlater.cleared
    rwa [deleteComments_append, Nat.add_assoc, ← Text.byteSize_append] at hcleared
    intro o hlo hhi
    simp only [Text.byteSize_cons, Text.byteSize_nil, Nat.add_zero] at hlo hhi
    exact hnone o (by omega) (by rw [Text.byteSize_cons]; omega)
  · have hlater : Marks starts (s.offset + Text.byteSize (d :: taken)) rest := marks.drop
    exact hlater.cleared

/-- Both read over the line break after a backslash. -/
theorem Beside.continuation (hrest : s.rest = '\\' :: cs) (hstart' : s'.lineStart = false)
    (hjoined : cs.head?.any Token.isBreak = true) (hnone : starts s.offset = false) :
    s'.step = .ok (some ([], s'.skip ('\\' :: (Token.splitBreak cs).1)
      (deleteComments starts (s.offset + Text.byteSize ('\\' :: (Token.splitBreak cs).1)) false
        (Token.splitBreak cs).2))) := by
  obtain ⟨c, cs, rfl⟩ : ∃ c tail, cs = c :: tail := by
    cases cs with
    | nil => cases hjoined
    | cons c tail => exact ⟨c, tail, rfl⟩
  have hbreak : Token.isBreak c = true := by simpa using hjoined
  rw [hrest] at marks
  have hlater : Marks starts (s.offset + Text.byteSize ['\\']) (c :: cs) := marks.drop
  have hcut := hlater.splitBreak (by simpa using hbreak)
  have hrest' := beside.rest
  rw [hrest, deleteComments, hnone, if_neg (by simp)] at hrest'
  rw [ScanState.step_lexeme hrest' hstart', ScanState.lexeme, if_neg (by decide), if_neg (by decide),
    if_pos rfl, deleteComments_break hbreak, if_pos (by simpa using hbreak),
    ← deleteComments_break hbreak]
  simp only [Text.byteSize_cons, Text.byteSize_nil, Nat.add_zero, ← Nat.add_assoc] at hcut ⊢
  rw [hcut]
  rfl

theorem beside_lexeme (hrest : s.rest = c :: cs) (hstart : s.lineStart = false)
    (hcomments : CommentsBetween starts s.offset next.offset tokens)
    (h : s.lexeme c cs = .ok (tokens, next)) : CatchesUp starts tokens next s' := by
  have hstart' : s'.lineStart = false := beside.lineStart.trans hstart
  unfold ScanState.lexeme at h
  split at h
  · next hindent =>
    cases h
    have hrest' := beside.rest_eq [c] hrest.symm (hcomments.none (by simp))
    refine .inr ⟨[], _, ?_, beside.skip [c] cs, rfl⟩
    rw [ScanState.step_lexeme hrest' hstart', ScanState.lexeme, if_pos hindent]
    rfl
  next hindent =>
  split at h
  · next hbreak =>
    have hcut := marks.splitBreak (by simpa [hrest] using hbreak)
    obtain ⟨cs', hrest'⟩ : ∃ cs', s'.rest = c :: cs' :=
      ⟨_, by rw [beside.rest, hrest, deleteComments_break hbreak]⟩
    rw [← beside.rest, hrest', hrest] at hcut
    have hstep' := ScanState.step_lexeme hrest' hstart'
    rw [ScanState.lexeme, if_neg hindent, if_pos hbreak, hcut, beside.depth] at hstep'
    simp only at h hstep'
    split at h
    · next hdepth =>
      cases h
      rw [if_pos hdepth] at hstep'
      exact .inr ⟨_, _, hstep', ⟨rfl, beside.depth, beside.indents, rfl, rfl⟩, rfl⟩
    · next hdepth =>
      cases h
      rw [if_neg hdepth] at hstep'
      exact .inr ⟨_, _, hstep', beside.skip _ _, rfl⟩
  next hbreak =>
  split at h
  · next hslash =>
    split at h
    · next hjoined =>
      cases h
      subst hslash
      refine .inr ⟨[], _, beside.continuation marks hrest hstart' hjoined ?_, beside.skip _ _, rfl⟩
      refine hcomments.none (by simp) _ le_rfl ?_
      exact Nat.lt_add_of_pos_right (Text.byteSize_pos (by simp))
    · cases h
  next hslash =>
  split at h
  · next hhash =>
    cases h
    subst hhash
    exact .inl ⟨beside.comment hrest (CommentsBetween.comment hrest hcomments), rfl⟩
  next hhash =>
  split at h
  · next hquote =>
    split at h
    · cases h
    · next taken rest hstring =>
      cases h
      have happend := Token.splitString_append hstring
      obtain ⟨cs', hrest', -, hcs', hcleared⟩ := beside.reads marks hrest happend
        (Token.splitString_ne_nil hstring) (by decide) hcomments
      have hstop : Token.isStop c = false := by
        rcases (by simpa using hquote : c = '"' ∨ c = '\'') with rfl | rfl <;> decide
      obtain ⟨d, body, rfl⟩ := List.exists_cons_of_ne_nil (Token.splitString_ne_nil hstring)
      obtain ⟨rfl, rfl⟩ := List.cons.inj happend
      have hstring' := hcleared.splitString hstop hstring
      rw [← hcs'] at hstring'
      refine beside.catchesUp_emit (by decide) id (fun _ _ => id) ?_
      rw [ScanState.step_lexeme hrest' hstart', ScanState.lexeme, if_neg hindent, if_neg hbreak,
        if_neg hslash, if_neg hhash, if_pos hquote, hstring']
      rfl
  next hquote =>
  split at h
  · next hnumber =>
    obtain ⟨⟨kind, taken, rest⟩, hcut⟩ : ∃ cut, Token.splitNumber (c :: cs) = cut := ⟨_, rfl⟩
    have happend := Token.splitNumber_append (c :: cs)
    have hne : (Token.splitNumber (c :: cs)).2.1 ≠ [] := Token.splitNumber_ne_nil (by
      simp only [Bool.or_eq_true, Bool.and_eq_true, decide_eq_true_eq] at hnumber
      exact hnumber.imp id And.left)
    have hkind := (Token.splitNumber_kind (c :: cs)).2.2.2
    rw [hcut] at h happend hne hkind
    cases h
    obtain ⟨cs', hrest', hhead, hcs', hcleared⟩ :=
      beside.reads marks hrest happend hne hkind hcomments
    have hnumber' := hcleared.splitNumber (by rw [happend]; exact hcut)
    rw [← hcs'] at hnumber'
    refine beside.catchesUp_emit hkind id (fun _ _ => id) ?_
    rw [← hhead.head?_any (p := Char.isDigit) (by decide)] at hnumber
    rw [ScanState.step_lexeme hrest' hstart', ScanState.lexeme, if_neg hindent, if_neg hbreak,
      if_neg hslash, if_neg hhash, if_neg hquote, if_pos hnumber, hnumber']
    rfl
  next hnumber =>
  split at h
  · next hname =>
    cases h
    have happend := Token.splitWhile_append Text.isNamePart (c :: cs)
    have hne : (Token.splitWhile Text.isNamePart (c :: cs)).1 ≠ [] := by
      simp [Token.splitWhile, Text.isNamePart_of_isNameStart hname]
    obtain ⟨cs', hrest', hhead, hcs', hcleared⟩ :=
      beside.reads marks hrest happend hne (by decide) hcomments
    have hname' := hcleared.splitWhile (p := Text.isNamePart) (by decide) (by rw [happend])
    rw [← hcs'] at hname'
    refine beside.catchesUp_emit (by decide) id (fun _ _ => id) ?_
    rw [← hhead.head?_any (p := Char.isDigit) (by decide)] at hnumber
    rw [ScanState.step_lexeme hrest' hstart', ScanState.lexeme, if_neg hindent, if_neg hbreak,
      if_neg hslash, if_neg hhash, if_neg hquote, if_neg hnumber, if_pos hname, hname']
    rfl
  next hname =>
  split at h
  · cases h
  · next op rest hop =>
    cases h
    obtain ⟨hmem, happend⟩ := Token.splitOperator_append hop
    obtain ⟨cs', hrest', hhead, hcs', hcleared⟩ := beside.reads marks hrest happend
      (Token.operator_ne_nil op hmem) (by decide) hcomments
    have hop' := hcleared.splitOperator (by rw [happend]; exact hop)
    rw [← hcs'] at hop'
    refine beside.catchesUp_emit (by decide)
      (fun s => { s with depth := ScanState.depthAfter op s.depth }) ?_ ?_
    · intro s s' beside
      exact ⟨beside.rest, congrArg (ScanState.depthAfter op) beside.depth, beside.indents,
        beside.lineStart, beside.lineOpen⟩
    · rw [← hhead.head?_any (p := Char.isDigit) (by decide)] at hnumber
      rw [ScanState.step_lexeme hrest' hstart', ScanState.lexeme, if_neg hindent, if_neg hbreak,
        if_neg hslash, if_neg hhash, if_neg hquote, if_neg hnumber, if_neg hname, hop']
      rfl

/-! ### Side by side at the beginning of a line -/

/-- Both have the same blanks before them. -/
theorem Beside.blanks (hcut : Token.splitWhile Token.isIndentation s.rest = (taken, rest)) :
    Marks starts (s.offset + Text.byteSize taken) rest ∧
    Token.splitWhile Token.isIndentation s'.rest =
      (taken, deleteComments starts (s.offset + Text.byteSize taken) false rest) := by
  have happend : taken ++ rest = s.rest := by
    rw [← Token.splitWhile_append Token.isIndentation s.rest, hcut]
  have htaken : ∀ c ∈ taken, c ≠ '#' := by
    rintro c hc rfl
    rw [Token.splitWhile, Prod.mk.injEq] at hcut
    rw [← hcut.1] at hc
    have hblank := List.mem_takeWhile_imp hc
    simp [Token.isIndentation] at hblank
  rw [← happend] at marks hcut
  have hlater : Marks starts (s.offset + Text.byteSize taken) rest := marks.drop
  refine ⟨hlater, ?_⟩
  rw [beside.rest, ← happend, marks.deleteComments_append htaken]
  exact hlater.cleared.splitWhile (by decide) hcut

theorem beside_blankLine
    (hstart : s.lineStart = true) (hcomments : CommentsBetween starts s.offset next.offset tokens)
    (h : s.blankLine? = some (tokens, next)) : CatchesUp starts tokens next s' := by
  have hstart' : s'.lineStart = true := beside.lineStart.trans hstart
  cases hcut : Token.splitWhile Token.isIndentation s.rest with | mk taken rest
  obtain ⟨hlater, hcut'⟩ := beside.blanks marks hcut
  have hskip := beside.skip taken rest
  obtain ⟨hbreak, rfl, rfl⟩ | ⟨⟨cs, rfl⟩, rfl, rfl⟩ := ScanState.blankLine?_cases h hcut
  · refine catchesUp_blankLine hstart' (ScanState.blankLine?_break hcut' ?_)
      (hskip.skipBreak hlater hbreak) rfl
    exact isBreak_head?_deleteComments hbreak
  · have hstarts : starts (s.offset + Text.byteSize taken) = true :=
      CommentsBetween.comment (s := s.skip taken ('#' :: cs)) rfl
        (hcomments.mono (Nat.le_add_right ..) (Nat.le_add_right ..))
    have hcomment := hskip.comment rfl hstarts
    rw [← Token.splitWhile_append (fun c => !Token.isBreak c) ('#' :: cs)] at hlater
    have hend := Token.isBreak_after_splitComment ('#' :: cs)
    refine catchesUp_blankLine hstart' (ScanState.blankLine?_break hcut' ?_)
      (hcomment.skipBreak hlater.drop hend) rfl
    rw [deleteComments_splitComment hstarts rfl]
    exact isBreak_head?_deleteComments hend

theorem beside_indentation (hstart : s.lineStart = true) (hblank : s.blankLine? = none)
    (h : s.indentation = .ok (tokens, next)) : CatchesUp starts tokens next s' := by
  have hstart' : s'.lineStart = true := beside.lineStart.trans hstart
  cases hcut : Token.splitWhile Token.isIndentation s.rest with | mk taken rest
  obtain ⟨hlater, hcut'⟩ := beside.blanks marks hcut
  obtain ⟨c, cs, rfl, hbreak, hhash⟩ := (ScanState.blankLine?_eq_none_iff hcut).1 hblank
  -- the code that the line begins with stays
  have hblank' := (ScanState.blankLine?_eq_none_iff hcut').2
    ⟨c, _, hlater.deleteComments_cons hhash, hbreak, hhash⟩
  have hstep' := ScanState.step_indentation hstart' hblank'
  unfold ScanState.indentation at h hstep'
  simp only [hcut, hcut', ScanState.skip, beside.indents] at h hstep'
  split at h
  · next hdeeper =>
    cases h
    rw [if_pos hdeeper] at hstep'
    exact .inr ⟨_, _, hstep', ⟨rfl, beside.depth, rfl, rfl, beside.lineOpen⟩, rfl⟩
  · next hdeeper =>
    split at h
    · next hfits =>
      cases h
      rw [if_neg hdeeper, if_pos hfits] at hstep'
      refine .inr ⟨_, _, hstep', ⟨rfl, beside.depth, rfl, rfl, beside.lineOpen⟩, ?_⟩
      simp [codeWords, Token.word, ScanState.tokenHere]
    · cases h

/-- One bite of the first scanner. -/
theorem beside_step (hcomments : CommentsBetween starts s.offset next.offset tokens)
    (h : s.step = .ok (some (tokens, next))) : CatchesUp starts tokens next s' := by
  obtain ⟨hstart, hblank⟩ | ⟨hstart, hblank, hindent⟩ | ⟨hstart, c, cs, hrest, hlexeme⟩ :=
    ScanState.step_parts h
  · exact beside_blankLine beside marks hstart hcomments hblank
  · exact beside_indentation beside marks hstart hblank hindent
  · exact beside_lexeme beside marks hrest hstart hcomments hlexeme

end Bites

/-! ### The words of a text without its comments -/

theorem codeWords_eq_filter (tokens : List Token) :
    codeWords tokens = (tokens.map Token.word).filter (·.1 ≠ .comment) := by
  rw [codeWords, List.filter_map]
  rfl

theorem codeWords_append (tokens tokens' : List Token) :
    codeWords (tokens ++ tokens') = codeWords tokens ++ codeWords tokens' := by
  simp [codeWords]

/-- The comments in what is still to be read. -/
def CommentsFrom (starts : Nat → Bool) (lo : Nat) (tokens : List Token) : Prop :=
  ∀ o, lo ≤ o → (starts o = true ↔ ∃ t ∈ tokens, t.kind = .comment ∧ t.start = o)

/-- The comments of one bite are those in it, and those of the others are behind it. -/
theorem CommentsFrom.split {starts : Nat → Bool} {lo mid hi : Nat} {tokens tokens' : List Token}
    (h : CommentsFrom starts lo (tokens ++ tokens')) (hlo : lo ≤ mid) (first : InOrder lo mid tokens)
    (second : InOrder mid hi tokens') :
    CommentsBetween starts lo mid tokens ∧ CommentsFrom starts mid tokens' := by
  refine ⟨fun o hge hlt => (h o hge).trans ?_, fun o hge => (h o (hlo.trans hge)).trans ?_⟩
  · refine exists_congr fun t => ?_
    simp only [List.mem_append, and_congr_left_iff, or_iff_left_iff_imp]
    rintro ⟨-, rfl⟩ ht
    exact absurd (second.within t ht).1 (by omega)
  · refine exists_congr fun t => ?_
    simp only [List.mem_append, and_congr_left_iff, or_iff_right_iff_imp]
    rintro ⟨hkind, rfl⟩ ht
    have hroom := first.room t ht
    have hinside := first.within t ht
    simp [hkind, TokenKind.isLayout] at hroom
    omega

/-- A whole scan: the second scanner finds the words of the first, the comments left out. -/
theorem scan_beside {starts : Nat → Bool} {s s' : ScanState} {done new : List Token}
    (beside : Beside starts s s') (marks : Marks starts s.offset s.rest)
    (hcomments : CommentsFrom starts s.offset new) (h : scan s done = .ok (done.reverse ++ new)) :
    ∃ new', (∀ done', scan s' done' = .ok (done'.reverse ++ new')) ∧
      new'.map Token.word = codeWords new := by
  fun_induction scan s done generalizing s' new with
  | case1 => cases h
  | case2 s done hstep =>
      obtain rfl : s.closing = new := by simpa using h
      have hrest' : s'.rest = [] := by
        rw [beside.rest, ScanState.rest_of_step_none hstep, deleteComments]
      refine ⟨s'.closing, ?_, beside.closing⟩
      exact fun _ => scan_of_step_none (ScanState.step_end hrest')
  | case3 s done found next hstep ih =>
      obtain ⟨later, heq, hlater, -⟩ := scan_adds h
      obtain rfl : new = found ++ later := by simpa using heq
      have hbite := (ScanState.step_cases hstep).bite
      obtain ⟨hfound, hlaterComments⟩ := hcomments.split hbite.offset_le hbite.inOrder hlater
      have hmarks : Marks starts next.offset next.rest := by
        obtain ⟨taken, hrest, hoffset⟩ := hbite.reads
        rw [← hrest] at marks
        exact hoffset ▸ marks.drop
      rw [codeWords_append]
      have hcaught := beside_step beside marks hfound hstep
      rcases hcaught with ⟨hbeside, hnone⟩ | ⟨found', next', hstep', hbeside, hwords⟩
      · obtain ⟨later', hscan', hwords'⟩ := ih hbeside hmarks hlaterComments (by simpa using h)
        exact ⟨later', hscan', by rw [hwords', hnone, List.nil_append]⟩
      · obtain ⟨later', hscan', hwords'⟩ := ih hbeside hmarks hlaterComments (by simpa using h)
        refine ⟨found' ++ later', fun done' => ?_, by rw [List.map_append, hwords, hwords']⟩
        rw [scan_of_step_some hstep', hscan']
        simp

/-- The first character of a piece of a text. -/
theorem Text.head?_of_takeBytes {size : Nat} {c d : Char} {cs taken : List Char}
    (h : Text.takeBytes size (c :: cs) = some taken) (hhead : taken.head? = some d) : c = d := by
  unfold Text.takeBytes at h
  split at h
  · cases h
    cases hhead
  · split at h
    · obtain ⟨rest, -, rfl⟩ := Option.map_eq_some_iff.1 h
      simpa using hhead
    · cases h

theorem Laid.hash {offset : Nat} {cs : List Char} {tokens : List Token} (h : Laid offset cs tokens) :
    ∀ t ∈ tokens, t.kind = .comment → t.text.toList.head? = some '#' := by
  induction h with
  | nil => simp
  | gap _ _ ih => exact ih
  | token kind hhash _ _ ih => exact List.forall_mem_cons.2 ⟨by simpa using hhash, ih⟩

theorem startsComment_iff {tokens : List Token} {offset : Nat} :
    startsComment tokens offset = true ↔ ∃ t ∈ tokens, t.kind = .comment ∧ t.start = offset := by
  simp [startsComment]

/-- The comments of a text that is cut into tokens. -/
theorem marks_of_tokenize {source : String} {tokens : List Token} (h : tokenize source = .ok tokens)
    (hapart : ∀ t ∈ tokens, t.kind = .comment → ¬ t.SplitsBreak source) :
    Marks (startsComment tokens) 0 source.toList where
  hash before c after hsplit hstarts := by
    obtain ⟨t, ht, hkind, hstart⟩ := startsComment_iff.1 hstarts
    have hlaid := laid_of_tokenize h
    have hslice := hlaid.slice Text.byteSize_nil t ht
    rw [List.nil_append, hsplit, Text.sliceBytes] at hslice
    split at hslice
    · rw [hstart, Nat.zero_add, Text.dropBytes_byteSize_append, Option.bind_some] at hslice
      exact Text.head?_of_takeBytes hslice (hlaid.hash t ht hkind)
    · cases hslice
  apart before line after hsplit hline := by
    by_contra hstarts
    obtain ⟨t, ht, hkind, hstart⟩ := startsComment_iff.1 (by simpa using hstarts)
    exact hapart t ht hkind ⟨before, line, after, hsplit, by omega, hline⟩

/-- The words of a text without its comments. -/
theorem words_uncommented {source : String} {tokens : List Token} (h : tokenize source = .ok tokens)
    (hapart : ∀ t ∈ tokens, t.kind = .comment → ¬ t.SplitsBreak source) :
    ∃ tokens', tokenize (uncommented source tokens) = .ok tokens' ∧
      tokens'.map Token.word = codeWords tokens := by
  have marks := marks_of_tokenize h hapart
  have hbeside : Beside (startsComment tokens) (.start source.toList)
      (.start (uncommented source tokens).toList) :=
    ⟨by simp [ScanState.start, uncommented], rfl, rfl, rfl, rfl⟩
  obtain ⟨tokens', hscan', hwords⟩ := scan_beside hbeside marks (fun _ _ => startsComment_iff)
    (tokenize_eq_ok.1 h)
  exact ⟨tokens', tokenize_eq_ok.2 (hscan' []), hwords⟩

theorem codeWords_of_words {tokens tokens' : List Token}
    (h : tokens'.map Token.word = codeWords tokens) : codeWords tokens' = codeWords tokens := by
  rw [codeWords_eq_filter tokens', h, codeWords_eq_filter tokens, List.filter_filter]
  simp

theorem Grammar.Cursor.words_ofLexemes_eq {ls ls' : List Lexeme}
    (h : ls.map Lexeme.word = ls'.map Lexeme.word) :
    (Cursor.ofLexemes ls).words = (Cursor.ofLexemes ls').words := by
  cases ls with
  | nil =>
      obtain rfl : ls' = [] := by simpa using h.symm
      rfl
  | cons l ls =>
      cases ls' with
      | nil => simp at h
      | cons l' ls' => exact h

open Grammar in
/-- Texts with the same words are read as the same tree. -/
theorem parseModule_of_words {source source' : String} {tokens tokens' : List Token}
    (h : tokenize source = .ok tokens) (h' : tokenize source' = .ok tokens')
    (hwords : codeWords tokens' = codeWords tokens) (keep : Retention) :
    (∃ e e', parseModule source keep = .error e ∧ parseModule source' keep = .error e') ∨
    ∃ tree tree', parseModule source keep = .ok tree ∧ parseModule source' keep = .ok tree' ∧
      tree.eraseSpans = tree'.eraseSpans := by
  have hlocated : ∀ index tokens, ((tokens.filter (·.kind ≠ .comment)).map
      (Token.locate index)).map Lexeme.word = codeWords tokens := by
    intro index tokens
    rw [List.map_map]
    rfl
  refine parseModule_alike sameWords h h' (Cursor.words_ofLexemes_eq ?_) keep
  rw [hlocated, hlocated, hwords]

/-- Without its comments a text has the same words, and is read as the same tree or refused as it
was, unless a comment kept a carriage return apart from a line feed. -/
theorem comments_invisible {source : String} {tokens : List Token} (h : tokenize source = .ok tokens)
    (hapart : ∀ t ∈ tokens, t.kind = .comment → ¬ t.SplitsBreak source) :
    (∃ tokens', tokenize (uncommented source tokens) = .ok tokens' ∧
      tokens'.map Token.word = (tokens.filter (·.kind ≠ .comment)).map Token.word) ∧
    ∀ keep,
      (∃ e e', parseModule source keep = .error e ∧
        parseModule (uncommented source tokens) keep = .error e') ∨
      ∃ tree tree', parseModule source keep = .ok tree ∧
        parseModule (uncommented source tokens) keep = .ok tree' ∧
        tree.eraseSpans = tree'.eraseSpans := by
  obtain ⟨tokens', h', hwords⟩ := words_uncommented h hapart
  exact ⟨⟨tokens', h', hwords⟩, parseModule_of_words h h' (codeWords_of_words hwords)⟩

theorem Token.SplitsBreak.slice {source : String} {t : Token} (h : t.SplitsBreak source) :
    Text.sliceBytes (t.start - 1) t.start source.toList = some ['\r'] := by
  obtain ⟨before, line, after, hsplit, hstart, -⟩ := h
  rw [hsplit, hstart]
  exact Text.sliceBytes_append before ['\r'] (line ++ '\n' :: after)

theorem comments_invisible_in_block :
    let source := "if a: # b\r\n  f(c, # d\n    e) \\\r  # g\n# h"
    ∃ tokens, tokenize source = .ok tokens ∧
      uncommented source tokens = "if a: \r\n  f(c, \n    e) \\\r  \n" ∧
      (∀ t ∈ tokens, t.kind = .comment → ¬ t.SplitsBreak source) ∧
      (∃ tokens', tokenize (uncommented source tokens) = .ok tokens' ∧
        tokens'.map Token.word = (tokens.filter (·.kind ≠ .comment)).map Token.word) ∧
      ∀ keep,
        (∃ e e', parseModule source keep = .error e ∧
          parseModule (uncommented source tokens) keep = .error e') ∨
        ∃ tree tree', parseModule source keep = .ok tree ∧
          parseModule (uncommented source tokens) keep = .ok tree' ∧
          tree.eraseSpans = tree'.eraseSpans := by
  intro source
  have hsource : (tokenize source).map (fun tokens => (uncommented source tokens,
      tokens.all fun t => t.kind ≠ .comment ||
        Text.sliceBytes (t.start - 1) t.start source.toList ≠ some ['\r'])) =
      .ok ("if a: \r\n  f(c, \n    e) \\\r  \n", true) := by
    decide +kernel
  cases h : tokenize source with
  | error e => simp [h, Except.map] at hsource
  | ok tokens =>
      rw [h, Except.map, Except.ok.injEq, Prod.mk.injEq, List.all_eq_true] at hsource
      have hapart : ∀ t ∈ tokens, t.kind = .comment → ¬ t.SplitsBreak source := by
        intro t ht hkind hsplits
        simpa [hkind, hsplits.slice] using hsource.2 t ht
      exact ⟨tokens, rfl, hsource.1, hapart, comments_invisible h hapart⟩

/-- A comment between a carriage return and a line feed: without it the backslash joins the lines. -/
theorem comment_inside_line_break :
    (tokenize "a \\\r# c\nb").map (uncommented "a \\\r# c\nb") = .ok "a \\\r\nb" ∧
      (parseModule "a \\\r# c\nb" .native).isOk = true ∧
      (parseModule "a \\\r\nb" .native).isOk = false := by
  refine ⟨?_, ?_, ?_⟩ <;> decide +kernel

end TriviaTree
