import Mathlib
import TriviaTree.Proofs.Source.LineText

/-!
The lines that comments stand on.

A comment takes the rest of its line (`CommentLine`). Lines are numbered by line feeds alone, but a comment
also ends at a carriage return: so the next comment stands on a later line, unless the line of the first
one ends in a carriage return without a line feed (`comment_lines`).
-/

set_option autoImplicit false

namespace TriviaTree

/-- The comment `t` is all of `line`, up to the end of the line, but for the blanks at its end. -/
structure CommentLine (source : List Char) (t : Token) (before line after : List Char) : Prop where
  cut : source = before ++ (line ++ after)
  start : t.start = Text.byteSize before
  stop : t.stop = Text.byteSize (before ++ Text.trimEnd line)
  hash : line.head? = some '#'
  unbroken : ∀ c ∈ line, Token.isBreak c = false
  ends : ∀ c ∈ after.head?, Token.isBreak c = true

/-- The line at a place ends in a carriage return that no line feed follows. -/
def EndsInReturn (source : String) (place : Location) : Prop :=
  ∃ before line after, source.toList = before ++ (line ++ '\r' :: after) ∧
    place = (LineIndex.ofText source).location (Text.byteSize before) ∧
    (∀ c ∈ line, Token.isBreak c = false) ∧ after.head? ≠ some '\n'

namespace ScanState

variable {source front : List Char} {s next : ScanState} {found : List Token}

theorem commentLine_comment {cs : List Char} (hrest : s.rest = '#' :: cs)
    (hsource : front ++ s.rest = source) (hfront : Text.byteSize front = s.offset) :
    ∀ t ∈ s.comment.1, ∃ before line after, CommentLine source t before line after := by
  intro t ht
  rw [List.mem_singleton.1 ht]
  have hline := Token.splitWhile_append (fun c => !Token.isBreak c) s.rest
  refine ⟨front, (Token.splitComment s.rest).1, (Token.splitComment s.rest).2, ?_, hfront.symm, ?_, ?_,
    ?_, Token.isBreak_after_splitComment s.rest⟩
  · rw [← hsource]
    exact congrArg (front ++ ·) hline.symm
  · rw [Text.byteSize_append, hfront]
    rfl
  · simp [hrest, Token.splitComment, Token.splitWhile, Token.isBreak]
  · intro c hc
    simpa using List.mem_takeWhile_imp hc

theorem Step.takesLine (step : Step s found next) (hsource : front ++ s.rest = source)
    (hfront : Text.byteSize front = s.offset) : ∀ t ∈ found, t.kind = .comment →
      ∃ before line after, CommentLine source t before line after := by
  intro t ht hkind
  cases step with
  | comment _ hrest => exact commentLine_comment hrest hsource hfront t ht
  | @commentLine taken cs _ hcut =>
      have happend := Token.splitWhile_append Token.isIndentation s.rest
      rw [hcut] at happend
      have hsource' : (front ++ taken) ++ (s.skip taken ('#' :: cs)).rest = source := by
        rw [List.append_assoc, ← hsource, ← happend]
        rfl
      have hfront' : Text.byteSize (front ++ taken) = (s.skip taken ('#' :: cs)).offset := by
        rw [Text.byteSize_append, hfront]
        rfl
      exact commentLine_comment rfl hsource' hfront' t ht
  | code _ _ _ hcode =>
      rw [List.mem_singleton.1 ht] at hkind
      cases hkind
      cases hcode
  | blank | joined | continued | blankLine => simp at ht
  | newline | indent =>
      rw [List.mem_singleton.1 ht] at hkind
      cases hkind
  | dedents =>
      obtain ⟨_, _, rfl⟩ := List.mem_map.1 ht
      cases hkind

end ScanState

/-- Every comment of a text takes the rest of its line. -/
theorem commentLine_of_tokenize {source : String} {tokens : List Token}
    (h : tokenize source = .ok tokens) : ∀ t ∈ tokens, t.kind = .comment →
      ∃ before line after, CommentLine source.toList t before line after := by
  refine tokenize_induction (P := fun s tokens => ∀ front, front ++ s.rest = source.toList →
    Text.byteSize front = s.offset → ∀ t ∈ tokens, t.kind = .comment →
      ∃ before line after, CommentLine source.toList t before line after) ?_ ?_ h [] rfl rfl
  · intro s _ _ _ _ t ht hkind
    rcases s.closing_kinds t ht with h | h | h <;> simp [hkind] at h
  · intro s found next later step ih front hsource hfront
    obtain ⟨taken, hrest, hoffset⟩ := step.bite.reads
    refine List.forall_mem_append.2 ⟨step.takesLine hsource hfront, ih (front ++ taken) ?_ ?_⟩
    · rw [List.append_assoc, hrest, hsource]
    · rw [Text.byteSize_append, hfront, hoffset]

namespace CommentLine

variable {source : String} {t u : Token} {before line after before' line' after' : List Char}

theorem line_start (h : CommentLine source.toList t before line after) :
    ((LineIndex.ofText source).location t.start).line = before.count '\n' + 1 := by
  rw [h.start, LineIndex.location_cut h.cut]

/-- A comment ends on the line on which it starts. -/
theorem line_stop (h : CommentLine source.toList t before line after) :
    ((LineIndex.ofText source).location t.stop).line = before.count '\n' + 1 := by
  obtain ⟨tail, htail, -⟩ := Text.trimEnd_append line
  have hcut : source.toList = (before ++ Text.trimEnd line) ++ (tail ++ after) := by
    rw [h.cut]
    nth_rewrite 1 [← htail]
    simp
  have hunbroken : '\n' ∉ Text.trimEnd line := fun hmem => by
    have := h.unbroken '\n' ((Text.trimEnd_isPrefix line).subset hmem)
    simp [Token.isBreak] at this
  rw [h.stop, LineIndex.location_cut hcut, List.count_append, List.count_eq_zero.2 hunbroken]

/-- The end of its line stands between a comment and the next one. -/
theorem between (first : CommentLine source.toList t before line after)
    (second : CommentLine source.toList u before' line' after') (hle : t.stop ≤ u.start) :
    ∃ c gap, before' = before ++ (line ++ c :: gap) ∧ Token.isBreak c = true ∧
      after = c :: (gap ++ (line' ++ after')) := by
  obtain ⟨tail, htail, hblank⟩ := Text.trimEnd_append line
  obtain ⟨text, hline'⟩ : ∃ text, line' = '#' :: text := by
    cases line' with
    | nil => cases second.hash
    | cons c text => exact ⟨text, by simpa using second.hash⟩
  have hsource : (before ++ Text.trimEnd line) ++ (tail ++ after) = before' ++ (line' ++ after') := by
    rw [← second.cut, first.cut]
    nth_rewrite 2 [← htail]
    simp
  rw [first.stop, second.start] at hle
  obtain ⟨middle, rfl⟩ := Text.isPrefix_of_byteSize_le hsource hle
  rw [List.append_assoc _ middle, List.append_cancel_left_eq] at hsource
  -- the second comment begins after the blanks, since they hold no `#`
  obtain ⟨gap, hmiddle, hafter⟩ : ∃ gap, middle = tail ++ gap ∧ after = gap ++ (line' ++ after') := by
    rcases List.append_eq_append_iff.1 hsource with hgap | ⟨_ | ⟨c, rest⟩, rfl, hrest⟩
    · exact hgap
    · exact ⟨[], by simp, by simpa using hrest.symm⟩
    · rw [hline'] at hrest
      obtain ⟨rfl, -⟩ := List.cons.inj hrest
      exact absurd (hblank '#' (by simp)) (by decide)
  cases gap with
  | nil =>
      exact absurd (first.ends '#' (by simp [hafter, hline'])) (by decide)
  | cons c gap =>
      refine ⟨c, gap, ?_, first.ends c (by simp [hafter]), by simpa using hafter⟩
      rw [hmiddle]
      nth_rewrite 2 [← htail]
      simp

/-- Comments are on different lines, unless the line of the first one ends in a carriage return. -/
theorem line_lt (first : CommentLine source.toList t before line after)
    (second : CommentLine source.toList u before' line' after') (hle : t.stop ≤ u.start) :
    ((LineIndex.ofText source).location t.start).line <
        ((LineIndex.ofText source).location u.start).line ∨
      ((LineIndex.ofText source).location t.start).line =
        ((LineIndex.ofText source).location u.start).line ∧
      EndsInReturn source ((LineIndex.ofText source).location t.start) := by
  obtain ⟨c, gap, hbefore', hbreak, hafter⟩ := between first second hle
  rw [first.line_start, second.line_start, hbefore', List.count_append, List.count_append]
  rcases Nat.eq_zero_or_pos ((c :: gap).count '\n') with hnone | hsome
  · have hfeeds : '\n' ∉ c :: gap := List.count_eq_zero.1 hnone
    have hline : '\n' ∉ line := fun hmem => by simpa [Token.isBreak] using first.unbroken '\n' hmem
    obtain rfl : c = '\r' := by
      have hc : c = '\r' ∨ c = '\n' := by simpa [Token.isBreak] using hbreak
      exact hc.resolve_right fun hc => hfeeds (by simp [hc])
    refine .inr ⟨by rw [hnone, List.count_eq_zero.2 hline], before, line, gap ++ (line' ++ after'),
      by rw [first.cut, hafter], by rw [first.start], first.unbroken, ?_⟩
    cases gap with
    | nil => simp [second.hash]
    | cons d gap =>
        rintro hhead
        exact hfeeds (by simp_all)
  · exact .inl (by omega)

end CommentLine

/-- Every comment starts and ends on one line. The next comment is on a later line, unless the line of the
first one ends in a carriage return without a line feed. -/
theorem comment_lines {source : String} {comments : List TriviaToken}
    (h : triviaTokens source = .ok comments) :
    (∀ t ∈ comments, t.span.start.line = t.span.stop.line) ∧
      comments.Pairwise fun t u => t.span.start.line < u.span.start.line ∨
        t.span.start.line = u.span.start.line ∧ EndsInReturn source t.span.start := by
  obtain ⟨tokens, htokens, rfl⟩ := exists_of_triviaTokens h
  have hlines : ∀ t ∈ tokens.filter (·.kind = .comment), ∃ before line after,
      CommentLine source.toList t before line after := fun t ht =>
    commentLine_of_tokenize htokens t (List.mem_of_mem_filter ht) (by simpa using List.of_mem_filter ht)
  constructor
  · refine List.forall_mem_map.2 fun t ht => ?_
    obtain ⟨_, _, _, hline⟩ := hlines t ht
    exact hline.line_start.trans hline.line_stop.symm
  · rw [List.pairwise_map]
    have hapart := (inOrder_of_tokenize htokens).1.pairwise.filter (·.kind = .comment)
    refine hapart.imp_of_mem fun {t u} ht hu hle => ?_
    obtain ⟨_, _, _, first⟩ := hlines t ht
    obtain ⟨_, _, _, second⟩ := hlines u hu
    exact first.line_lt second hle

/-- Three comments on two lines: the first line is cut by a carriage return, the second is not. -/
theorem comment_lines_with_returns :
    let comments : List TriviaToken := [⟨" a", ⟨⟨1, 2⟩, ⟨1, 5⟩⟩⟩, ⟨" b", ⟨⟨1, 6⟩, ⟨1, 9⟩⟩⟩,
      ⟨" c", ⟨⟨2, 0⟩, ⟨2, 3⟩⟩⟩]
    triviaTokens "x # a\r# b\r\n# c\n" = .ok comments ∧
      comments.Pairwise fun t u => t.span.start.line < u.span.start.line ∨
        t.span.start.line = u.span.start.line ∧ EndsInReturn "x # a\r# b\r\n# c\n" t.span.start := by
  intro comments
  have hcomments : triviaTokens "x # a\r# b\r\n# c\n" = .ok comments := by decide +kernel
  exact ⟨hcomments, (comment_lines hcomments).2⟩

/-- Two comments on one line. -/
theorem comments_share_line : ∃ comments, triviaTokens "# a\r# b\n" = .ok comments ∧
    ¬ comments.Pairwise fun t u => t.span.start.line < u.span.start.line :=
  ⟨[⟨" a", ⟨⟨1, 0⟩, ⟨1, 3⟩⟩⟩, ⟨" b", ⟨⟨1, 4⟩, ⟨1, 7⟩⟩⟩], by decide +kernel, by decide⟩

end TriviaTree
