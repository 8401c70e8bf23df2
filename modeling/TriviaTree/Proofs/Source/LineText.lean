import Mathlib
import TriviaTree.Proofs.Token.Layout

/-!
The text of a line before a place on it.

A place in a text is a cut of its characters in two. `LineIndex.location_cut` reads the line and the
column of a cut off the characters before it, and `textBefore?_cut` finds those of its line again. So a
character that stands before a cut, on the line of the cut, is in the text before it
(`mem_textBefore?_of_same_line`).
-/

set_option autoImplicit false

namespace TriviaTree

variable {back front : List Char} {source : String} (cs : List Char)

/-- What stands on the line of a place, from the start of the line up to the place. Lines end at line
feeds. -/
def textBefore? (source : String) (place : Location) : Option (List Char) :=
  ((source.toList.splitOn '\n')[place.line - 1]?).bind (Text.takeBytes place.column)

/-- What follows the last line feed of a text. -/
def lastLine (cs : List Char) : List Char :=
  cs.rtakeWhile (· ≠ '\n')

theorem lastLine_concat (c : Char) :
    lastLine (cs ++ [c]) = if c = '\n' then [] else lastLine cs ++ [c] := by
  rw [lastLine, List.rtakeWhile_concat]
  by_cases hc : c = '\n' <;> simp [hc, lastLine]

theorem newline_notMem_lastLine : '\n' ∉ lastLine cs := fun h => by
  simpa using List.mem_rtakeWhile_imp h

/-- A character after which no line ends is on the last line. -/
theorem mem_lastLine {middle : List Char} {c : Char} (hc : c ≠ '\n') (hmiddle : '\n' ∉ middle) :
    c ∈ lastLine (front ++ c :: middle) := by
  induction middle using List.reverseRecOn with
  | nil => simp [lastLine_concat, hc]
  | append_singleton middle d ih =>
      rw [List.mem_append, List.mem_singleton, not_or] at hmiddle
      rw [← List.cons_append, ← List.append_assoc, lastLine_concat, if_neg (Ne.symm hmiddle.2)]
      exact List.mem_append_left _ (ih hmiddle.1)

/-- A text is its last line, or whole lines and its last line. -/
theorem eq_append_lastLine : cs = lastLine cs ∨ ∃ lines, cs = lines ++ '\n' :: lastLine cs := by
  induction cs using List.reverseRecOn with
  | nil => exact .inl rfl
  | append_singleton cs c ih =>
      rw [lastLine_concat]
      split
      · next hc => exact .inr ⟨cs, by rw [hc]⟩
      · rcases ih with hall | ⟨lines, hlines⟩
        · exact .inl (congrArg (· ++ [c]) hall)
        · exact .inr ⟨lines, by rw [← List.cons_append, ← List.append_assoc, ← hlines]⟩

/-! ### Places -/

namespace LineIndex

theorem startsFrom_append (offset : Nat) (front back : List Char) :
    startsFrom offset (front ++ back) =
      startsFrom offset front ++ startsFrom (offset + Text.byteSize front) back := by
  induction front generalizing offset with
  | nil => simp [startsFrom]
  | cons c front ih =>
      simp only [List.cons_append, startsFrom, ih, Text.byteSize_cons, Nat.add_assoc]
      split <;> rfl

theorem lt_of_mem_startsFrom {offset start : Nat} {cs : List Char}
    (h : start ∈ startsFrom offset cs) : offset < start ∧ start ≤ offset + Text.byteSize cs := by
  induction cs generalizing offset with
  | nil => simp [startsFrom] at h
  | cons c cs ih =>
      have hpos := c.utf8Size_pos
      rw [Text.byteSize_cons]
      simp only [startsFrom] at h
      split at h
      · rcases List.mem_cons.1 h with rfl | h
        · omega
        · have := ih h
          omega
      · have := ih h
        omega

theorem pairwise_startsFrom (offset : Nat) (cs : List Char) :
    (offset :: startsFrom offset cs).Pairwise (· < ·) := by
  refine List.pairwise_cons.2 ⟨fun start hstart => (lt_of_mem_startsFrom hstart).1, ?_⟩
  induction cs generalizing offset with
  | nil => exact .nil
  | cons c cs ih =>
      simp only [startsFrom]
      split
      · exact List.pairwise_cons.2 ⟨fun start hstart => (lt_of_mem_startsFrom hstart).1, ih _⟩
      · exact ih _

theorem length_startsFrom (offset : Nat) (cs : List Char) :
    (startsFrom offset cs).length = cs.count '\n' := by
  induction cs generalizing offset with
  | nil => rfl
  | cons c cs ih =>
      simp only [startsFrom]
      split
      · next hc => simp [hc, ih]
      · next hc => simp [ih, hc]

/-- The last line begins right after the last line feed. -/
theorem getLast?_startsFrom :
    ((0 :: startsFrom 0 cs).getLast?.getD 0) + Text.byteSize (lastLine cs) = Text.byteSize cs := by
  induction cs using List.reverseRecOn with
  | nil => rfl
  | append_singleton cs c ih =>
      rw [startsFrom_append, lastLine_concat, Text.byteSize_append]
      by_cases hc : c = '\n'
      · have hlast : (0 :: (startsFrom 0 cs ++ [Text.byteSize cs + '\n'.utf8Size])).getLast? =
            some (Text.byteSize cs + '\n'.utf8Size) := by
          rw [← List.cons_append, List.getLast?_concat]
        simp [startsFrom, hc, Text.byteSize_cons, hlast]
      · simp only [startsFrom, hc, if_false, List.append_nil, Text.byteSize_append]
        omega

/-- An offset is on the line that has begun by then when the next one has not. -/
theorem location_line_iff {offset start : Nat} {before after : List Nat}
    (hstarts : (ofText source).starts = before ++ start :: after) (hstart : start ≤ offset)
    (hoffset : offset ≤ (ofText source).size) :
    (ofText source).location offset = ⟨before.length + 1, offset - start⟩ ↔
      ∀ next ∈ after.head?, offset < next := by
  have hsorted : (before ++ start :: after).Pairwise (· < ·) :=
    hstarts ▸ pairwise_startsFrom 0 source.toList
  have hbefore : ∀ s ∈ before, s ≤ offset := fun s hs =>
    ((List.pairwise_append.1 hsorted).2.2 s hs start List.mem_cons_self).le.trans hstart
  have hbegun : (ofText source).starts.takeWhile (· ≤ offset) =
      before ++ start :: after.takeWhile (· ≤ offset) := by
    rw [hstarts, List.takeWhile_append_of_pos (by simpa using hbefore),
      List.takeWhile_cons_of_pos (by simpa using hstart)]
  simp only [location, Nat.min_eq_left hoffset, hbegun]
  cases after with
  | nil => simp
  | cons next after => rcases le_or_gt next offset with hnext | hnext <;> simp [hnext]

/-- The place of a cut: one line more than there are line feeds before it, and the bytes since the
last of them. -/
theorem location_cut (h : source.toList = front ++ back) :
    (ofText source).location (Text.byteSize front) =
      ⟨front.count '\n' + 1, Text.byteSize (lastLine front)⟩ := by
  obtain ⟨before, start, hbegun⟩ := (List.eq_nil_or_concat' (0 :: startsFrom 0 front)).resolve_left (by simp)
  have hstarts : (ofText source).starts =
      before ++ start :: startsFrom (0 + Text.byteSize front) back := by
    rw [ofText, h, startsFrom_append, ← List.cons_append, hbegun, List.append_assoc]
    rfl
  have hlast := getLast?_startsFrom front
  have hlength := congrArg List.length hbegun
  simp only [hbegun, List.getLast?_concat, Option.getD_some] at hlast
  simp only [List.length_cons, length_startsFrom, List.length_append, List.length_nil] at hlength
  have hcut : start ≤ Text.byteSize front := by omega
  have hsize : Text.byteSize front ≤ (ofText source).size := by
    simp [ofText, h, Text.byteSize_append]
  rw [(location_line_iff hstarts hcut hsize).2 fun next hnext => ?_]
  · congr 1 <;> omega
  · have := (lt_of_mem_startsFrom (List.mem_of_head? hnext)).1
    omega

end LineIndex

/-! ### Lines -/

theorem length_splitOn_newline : (cs.splitOn '\n').length = cs.count '\n' + 1 := by
  induction cs with
  | nil => rfl
  | cons c cs ih =>
      rw [List.splitOn, List.splitOnP_cons_eq_if_modifyHead]
      rw [List.splitOn] at ih
      by_cases hc : c = '\n' <;> simp [hc, ih]

/-- A text that begins without a line feed has that beginning on its first line. -/
theorem exists_firstLine (hfront : '\n' ∉ front) (back : List Char) :
    ∃ rest, ((front ++ back).splitOn '\n')[0]? = some (front ++ rest) := by
  induction front with
  | nil =>
      have hsome : 0 < (back.splitOn '\n').length := by
        rw [length_splitOn_newline]
        omega
      exact ⟨_, List.getElem?_eq_getElem hsome⟩
  | cons c front ih =>
      rw [List.mem_cons, not_or] at hfront
      obtain ⟨rest, hrest⟩ := ih hfront.2
      refine ⟨rest, ?_⟩
      rw [List.splitOn] at hrest ⊢
      rw [List.cons_append, List.splitOnP_cons_eq_if_modifyHead,
        if_neg (by simpa using Ne.symm hfront.1), List.getElem?_modifyHead, hrest]
      rfl

/-- The line of a cut begins with what stands on it before the cut. -/
theorem exists_line_cut (front back : List Char) :
    ∃ rest, ((front ++ back).splitOn '\n')[front.count '\n']? = some (lastLine front ++ rest) := by
  have hlast := newline_notMem_lastLine front
  rcases eq_append_lastLine front with hall | ⟨lines, hlines⟩
  · rw [← hall] at hlast ⊢
    rw [List.count_eq_zero.2 hlast]
    exact exists_firstLine hlast back
  · have hcount : front.count '\n' = (lines.splitOn '\n').length := by
      rw [hlines, length_splitOn_newline, List.count_append, List.count_cons_self,
        List.count_eq_zero.2 hlast]
    have hsplit : (front ++ back).splitOn '\n' =
        lines.splitOn '\n' ++ (lastLine front ++ back).splitOn '\n' := by
      conv_lhs => rw [hlines]
      rw [List.append_assoc, List.cons_append]
      exact List.splitOnP_append_cons lines _ (by simp)
    rw [hsplit, hcount, List.getElem?_append_right le_rfl, Nat.sub_self]
    exact exists_firstLine hlast back

/-- The text before a cut, on its line. -/
theorem textBefore?_cut (h : source.toList = front ++ back) :
    textBefore? source ((LineIndex.ofText source).location (Text.byteSize front)) =
      some (lastLine front) := by
  obtain ⟨rest, hline⟩ := exists_line_cut front back
  rw [LineIndex.location_cut h, textBefore?, h, Nat.add_sub_cancel, hline, Option.bind_some,
    Text.takeBytes_byteSize_append]

/-- A character is in the text before a later place when no line ends in between. -/
theorem mem_textBefore?_of_same_line {middle : List Char} {c : Char}
    (h : source.toList = front ++ c :: (middle ++ back)) (hc : c ≠ '\n')
    (hsame : ((LineIndex.ofText source).location (Text.byteSize (front ++ [c]))).line =
      ((LineIndex.ofText source).location (Text.byteSize (front ++ c :: middle))).line) :
    ∃ before, textBefore? source ((LineIndex.ofText source).location
      (Text.byteSize (front ++ c :: middle))) = some before ∧ c ∈ before := by
  have hearly : source.toList = (front ++ [c]) ++ (middle ++ back) := by simpa using h
  have hlate : source.toList = (front ++ c :: middle) ++ back := by simpa using h
  rw [LineIndex.location_cut hearly, LineIndex.location_cut hlate] at hsame
  have hmiddle : '\n' ∉ middle := by
    rw [← List.count_eq_zero]
    simpa [List.count_append, List.count_cons] using hsame
  exact ⟨_, textBefore?_cut hlate, mem_lastLine hc hmiddle⟩

end TriviaTree
