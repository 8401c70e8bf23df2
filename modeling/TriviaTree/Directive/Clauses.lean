import TriviaTree.Text.Classes
import TriviaTree.Tree.Trivia

/-!
Lists of clauses, such as `private(i, j) nowait`.

Clauses are set apart by blanks or commas. The arguments of a clause reach to the parenthesis
that closes the first one and lose the blanks around them.
-/

set_option autoImplicit false

namespace TriviaTree

/-- Why a text is no list of clauses. -/
inductive ClauseFault where
  | unexpectedCharacter (c : Char)
  | unbalanced (name : String)
deriving DecidableEq, Repr

def ClauseFault.message : ClauseFault → String
  | .unexpectedCharacter c => "unexpected '" ++ String.singleton c ++ "' in clause list"
  | .unbalanced name => "unbalanced parentheses after '" ++ name ++ "'"

/-- Cut a text at the parenthesis that closes the last of `depth + 1` open ones: what is before
it and what is after it. -/
def splitClosing : Nat → List Char → Option (List Char × List Char)
  | _, [] => none
  | depth, c :: cs =>
      if c = ')' then
        match depth with
        | 0 => some ([], cs)
        | depth + 1 => (splitClosing depth cs).map fun (inner, rest) => (c :: inner, rest)
      else
        (splitClosing (if c = '(' then depth + 1 else depth) cs).map fun (inner, rest) =>
          (c :: inner, rest)

theorem splitClosing_length {depth : Nat} {cs inner rest : List Char}
    (h : splitClosing depth cs = some (inner, rest)) : rest.length < cs.length := by
  induction cs generalizing depth inner rest with
  | nil => simp [splitClosing] at h
  | cons c cs ih =>
      unfold splitClosing at h
      split at h
      · split at h
        · cases h
          simp
        · obtain ⟨⟨i, r⟩, hir, heq⟩ := Option.map_eq_some_iff.1 h
          cases heq
          exact Nat.lt_succ_of_lt (ih hir)
      · obtain ⟨⟨i, r⟩, hir, heq⟩ := Option.map_eq_some_iff.1 h
        cases heq
        exact Nat.lt_succ_of_lt (ih hir)

/-- The clauses of a text. -/
def parseClauses (cs : List Char) : Except ClauseFault (List Clause) :=
  match cs with
  | [] => .ok []
  | c :: cs =>
      if Text.isBlank c || c = ',' then parseClauses cs
      else if Text.isNameStart c then
        let name := String.ofList (c :: cs.takeWhile Text.isNamePart)
        match _hrest : cs.dropWhile Text.isNamePart with
        | '(' :: inside =>
            match _hinside : splitClosing 0 inside with
            | none => .error (.unbalanced name)
            | some (arguments, rest) =>
                let clause := ⟨name, some (String.ofList (Text.trim arguments))⟩
                (parseClauses rest).map (clause :: ·)
        | rest => (parseClauses rest).map (⟨name, none⟩ :: ·)
      else .error (.unexpectedCharacter c)
termination_by cs.length
decreasing_by
  · simp
  · have closing := splitClosing_length _hinside
    have shorter := (List.dropWhile_suffix Text.isNamePart (l := cs)).length_le
    rw [_hrest] at shorter
    simp only [List.length_cons] at shorter ⊢
    omega
  · have shorter := (List.dropWhile_suffix Text.isNamePart (l := cs)).length_le
    rw [_hrest] at shorter
    simp only [List.length_cons]
    omega

end TriviaTree
