import Mathlib
import TriviaTree.Proofs.Directive.Clauses

/-!
The count of open parentheses in a list of clauses.

`countClauses` reads clauses with a counter that stands at 0 before the first parenthesis of the
arguments and fails where it would go below. It never does, and it reads what `parseClauses` reads
(`countClauses_eq`), so a list of clauses is read again from its clauses with a space between them
(`clauses_counted`).
-/

set_option autoImplicit false

namespace TriviaTree

/-- Cut a text at the parenthesis after which none is open. The outer `none` is a parenthesis that
closes although none is open, the inner one the end of the text. -/
def countClosing (depth : Nat) : List Char → Option (Option (List Char × List Char))
  | [] => some none
  | c :: cs =>
      (parensAfter depth c).bind fun depth =>
        if c = ')' ∧ depth = 0 then some (some ([], cs))
        else (countClosing depth cs).map (Option.map fun cut => (c :: cut.1, cut.2))

theorem countClosing_succ (depth : Nat) (cs : List Char) :
    countClosing (depth + 1) cs = some (splitClosing depth cs) := by
  induction cs generalizing depth with
  | nil => rfl
  | cons c cs ih =>
      unfold countClosing splitClosing
      by_cases hclose : c = ')'
      · cases depth with
        | zero => simp [parensAfter, hclose]
        | succ depth => simp [parensAfter, hclose, ih]
      · by_cases hopen : c = '(' <;> simp [parensAfter, hclose, hopen, ih]

/-- From the first parenthesis on, the count is never taken below zero. -/
theorem countClosing_open (cs : List Char) : countClosing 0 ('(' :: cs) =
    some ((splitClosing 0 cs).map fun cut => ('(' :: cut.1, cut.2)) := by
  simp [countClosing, parensAfter, countClosing_succ]

/-- The clauses of a text, with the parentheses of their arguments counted from 0. -/
def countClauses (cs : List Char) : Option (Except ClauseFault (List Clause)) :=
  match cs with
  | [] => some (.ok [])
  | c :: cs =>
      if Text.isBlank c || c = ',' then countClauses cs
      else if Text.isNameStart c then
        let name := String.ofList (c :: cs.takeWhile Text.isNamePart)
        match _hrest : cs.dropWhile Text.isNamePart with
        | '(' :: inside =>
            match _hinside : countClosing 0 ('(' :: inside) with
            | none => none
            | some none => some (.error (.unbalanced name))
            | some (some (arguments, rest)) =>
                let clause := ⟨name, some (String.ofList (Text.trim arguments.tail))⟩
                (countClauses rest).map (·.map (clause :: ·))
        | rest => (countClauses rest).map (·.map (⟨name, none⟩ :: ·))
      else some (.error (.unexpectedCharacter c))
termination_by cs.length
decreasing_by
  · simp
  · rw [countClosing_open, Option.some.injEq, Option.map_eq_some_iff] at _hinside
    obtain ⟨cut, hcut, heq⟩ := _hinside
    cases heq
    have closing := splitClosing_length hcut
    have shorter := (List.dropWhile_suffix Text.isNamePart (l := cs)).length_le
    rw [_hrest] at shorter
    simp only [List.length_cons] at shorter ⊢
    omega
  · have shorter := (List.dropWhile_suffix Text.isNamePart (l := cs)).length_le
    rw [_hrest] at shorter
    simp only [List.length_cons]
    omega

/-- Reading clauses never closes a parenthesis that is not open. -/
theorem countClauses_eq (cs : List Char) : countClauses cs = some (parseClauses cs) := by
  fun_induction parseClauses cs with
  | case1 => rw [countClauses]
  | case2 c cs hskip ih => rw [countClauses, if_pos hskip, ih]
  | case3 c cs hskip hstart name inside hrest hinside =>
      have hcount := countClosing_open inside
      rw [hinside] at hcount
      rw [countClauses, if_neg hskip, if_pos hstart]
      split
      · next hrest' =>
        cases hrest'.symm.trans hrest
        split <;> rename_i hsplit <;> cases hsplit.symm.trans hcount
        rfl
      · next hrest' => exact absurd hrest (hrest' inside)
  | case4 c cs hskip hstart name inside hrest arguments rest hinside =>
      rename_i ih
      have hcount := countClosing_open inside
      rw [hinside] at hcount
      rw [countClauses, if_neg hskip, if_pos hstart]
      split
      · next hrest' =>
        cases hrest'.symm.trans hrest
        split <;> rename_i hsplit <;> cases hsplit.symm.trans hcount
        rw [ih]
        rfl
      · next hrest' => exact absurd hrest (hrest' inside)
  | case5 c cs hskip hstart name hrest =>
      rename_i ih
      rw [countClauses, if_neg hskip, if_pos hstart]
      split
      · next hrest' => exact (hrest _ hrest').elim
      · rw [ih]
        rfl
  | case6 c cs hskip hstart => rw [countClauses, if_neg hskip, if_neg hstart]

theorem intercalate_text (clause : Clause) (list : List Clause) :
    [' '].intercalate ((clause :: list).map fun clause => clause.text.toList) =
      clause.text.toList ++ spaced list := by
  induction list generalizing clause with
  | nil => simp [spaced]
  | cons next list ih =>
      simpa [spaced, List.intercalate_cons_cons] using ih next

/-- The count of open parentheses stays at or above zero in every text, and clauses that were read are
read again with a space between them. -/
theorem clauses_counted (text : List Char) :
    countClauses text = some (parseClauses text) ∧ ∀ list, parseClauses text = .ok list →
      parseClauses ([' '].intercalate (list.map fun clause => clause.text.toList)) = .ok list := by
  refine ⟨countClauses_eq text, fun list h => ?_⟩
  have hwell := (clauseText_of_parseClauses h).wellFormed
  cases list with
  | nil => simp [parseClauses]
  | cons clause list =>
      rw [intercalate_text]
      exact parseClauses_of_clauseText (clauseText_spaced hwell).2

theorem clauses_counted_nested :
    let list : List Clause := [⟨"map", some "(é), (x)"⟩, ⟨"nowait", none⟩]
    parseClauses "map( (é), (x) ) ,nowait".toList = .ok list ∧
      parseClauses "map((é), (x)) nowait".toList = .ok list := by
  intro list
  have hlist : parseClauses "map( (é), (x) ) ,nowait".toList = .ok list := by decide +kernel
  exact ⟨hlist, (clauses_counted _).2 list hlist⟩

end TriviaTree
