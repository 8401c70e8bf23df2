import Mathlib
import TriviaTree.Proofs.Grammar.Productions

/-!
Words, their names and their brackets.

What is known of the words of an expression is their names, that there is no `def` among them, and that
their brackets match: seen from inside a bracket they are not there at all, and outside of their own
brackets they have no comma (`Phrase`). Phrases that follow each other join, and what stands between
brackets is closed off (`Phrase.enclosed`). The words at a cursor come to an end where there is one end
marker, the last of them (`Cursor.Ended`).
-/

set_option autoImplicit false

namespace TriviaTree

/-! ### Words and their brackets -/

def opensBracket (w : Word) : Bool :=
  w.1 = .op && ["(", "[", "\x7b"].contains w.2

def closesBracket (w : Word) : Bool :=
  w.1 = .op && [")", "]", "\x7d"].contains w.2

/-- A bracket and the one that closes it. -/
def bracketPairs : List (String × String) :=
  [("(", ")"), ("[", "]"), ("\x7b", "\x7d")]

theorem brackets_of_mem {opener closer : String} (h : (opener, closer) ∈ bracketPairs) :
    opensBracket (.op, opener) = true ∧ closesBracket (.op, closer) = true ∧
      opensBracket (.op, closer) = false := by
  have hall : ∀ pair ∈ bracketPairs, opensBracket (.op, pair.1) = true ∧
      closesBracket (.op, pair.2) = true ∧ opensBracket (.op, pair.2) = false := by decide
  exact hall _ h

/-- The words up to the bracket that closes the last of `depth + 1` open ones, but for those inside
other brackets. -/
def topLevel : Nat → List Word → List Word
  | _, [] => []
  | depth, w :: ws =>
      if opensBracket w then topLevel (depth + 1) ws
      else if closesBracket w then
        match depth with
        | 0 => []
        | depth + 1 => topLevel depth ws
      else if depth = 0 then w :: topLevel 0 ws
      else topLevel depth ws

/-- The name that a word is, if it is one. -/
def Word.name (w : Word) : Multiset String :=
  if w.1 = .name && !isKeyword w.2 then {w.2} else 0

/-- The names among words. -/
def namesOf (ws : List Word) : Multiset String :=
  (ws.map Word.name).sum

@[simp] theorem namesOf_nil : namesOf [] = 0 := rfl

@[simp] theorem namesOf_cons (w : Word) (ws : List Word) :
    namesOf (w :: ws) = w.name + namesOf ws := by
  simp [namesOf]

@[simp] theorem namesOf_append (ws ws' : List Word) :
    namesOf (ws ++ ws') = namesOf ws + namesOf ws' := by
  simp [namesOf]

/-- A word that is no bracket and no `def`; it may be a comma when `commas` holds. -/
def isPlain (commas : Bool) (w : Word) : Bool :=
  w ≠ (.name, "def") && !opensBracket w && !closesBracket w && (commas || w ≠ (.op, ","))

/-- What is known of the words of a phrase; it may have commas outside of its brackets when `commas`
holds. -/
structure Phrase (commas : Bool) (ws : List Word) (names : Multiset String) : Prop where
  names_eq : namesOf ws = names
  noDef : (TokenKind.name, "def") ∉ ws
  inner : ∀ depth rest, topLevel (depth + 1) (ws ++ rest) = topLevel (depth + 1) rest
  outer : commas = false → ∃ top, (TokenKind.op, ",") ∉ top ∧
    ∀ rest, topLevel 0 (ws ++ rest) = top ++ topLevel 0 rest

namespace Phrase

variable {commas : Bool} {ws ws' : List Word} {names names' : Multiset String}

theorem nil : Phrase commas [] 0 :=
  ⟨rfl, by simp, fun _ _ => rfl, fun _ => ⟨[], by simp, fun _ => rfl⟩⟩

theorem append (first : Phrase commas ws names) (second : Phrase commas ws' names') :
    Phrase commas (ws ++ ws') (names + names') where
  names_eq := by rw [namesOf_append, first.names_eq, second.names_eq]
  noDef h := (List.mem_append.1 h).elim first.noDef second.noDef
  inner depth rest := by rw [List.append_assoc, first.inner, second.inner]
  outer h := by
    obtain ⟨top, htop, heq⟩ := first.outer h
    obtain ⟨top', htop', heq'⟩ := second.outer h
    refine ⟨top ++ top', by simp [htop, htop'], fun rest => ?_⟩
    rw [List.append_assoc, heq, heq', List.append_assoc]

theorem relax {commas' : Bool} (h : Phrase commas ws names) (hcommas : commas = true → commas' = true) :
    Phrase commas' ws names :=
  { h with outer := fun hfalse => h.outer (by cases commas <;> simp_all) }

theorem word {w : Word} (h : isPlain commas w = true) : Phrase commas [w] w.name := by
  simp only [isPlain, Bool.and_eq_true, Bool.or_eq_true, Bool.not_eq_true', decide_eq_true_eq,
    ne_eq] at h
  obtain ⟨⟨⟨hdef, hopens⟩, hcloses⟩, hcomma⟩ := h
  refine ⟨by simp, by simpa [eq_comm] using hdef, fun depth rest => ?_, fun hcommas => ?_⟩
  · simp [topLevel, hopens, hcloses]
  · refine ⟨[w], ?_, fun rest => by simp [topLevel, hopens, hcloses]⟩
    simpa [eq_comm] using hcomma.resolve_left (by simp [hcommas])

/-- Commas between brackets do not count outside of them. -/
theorem enclosed {opener closer : String} (hpair : (opener, closer) ∈ bracketPairs)
    (h : Phrase true ws names) :
    Phrase commas ((.op, opener) :: (ws ++ [(.op, closer)])) names := by
  obtain ⟨hopens, hcloses, hnot⟩ := brackets_of_mem hpair
  refine ⟨by simp [Word.name, h.names_eq], by simp [h.noDef], fun depth rest => ?_, fun _ => ?_⟩
  · simp [topLevel, hopens, h.inner, hcloses, hnot]
  · exact ⟨[], by simp, fun rest => by simp [topLevel, hopens, h.inner, hcloses, hnot]⟩

end Phrase

namespace Grammar

/-! ### Cursors that come to an end -/

/-- The end marker is the last word, and only the last. -/
def Cursor.Ended (c : Cursor) : Prop :=
  ∃ ws text, c.words = ws ++ [(.endMarker, text)] ∧ ∀ w ∈ ws, w.1 ≠ .endMarker

section Ended

variable {c c' : Cursor} {ws : List Word}

theorem Cursor.words_ne_nil (c : Cursor) : c.words ≠ [] := by
  simp [words]

theorem Cursor.Ended.of_words (ended : c.Ended) (h : c.words = ws ++ c'.words) : c'.Ended := by
  obtain ⟨all, text, hall, hmarks⟩ := ended
  rw [h] at hall
  obtain ⟨init, last, hlast⟩ := List.eq_nil_or_concat c'.words |>.resolve_left c'.words_ne_nil
  rw [List.concat_eq_append] at hlast
  rw [hlast, ← List.append_assoc] at hall
  obtain ⟨hinit, hmark⟩ := List.append_inj' hall rfl
  refine ⟨init, text, by rw [hlast, hmark], fun w hw => hmarks w ?_⟩
  rw [← hinit]
  exact List.mem_append_right _ hw

/-- A lexeme that is not the end marker is followed by another. -/
theorem Cursor.Ended.words_advance (ended : c.Ended) (hkind : c.current.kind ≠ .endMarker) :
    c.words = c.current.word :: c.advance.words := by
  obtain ⟨ws, text, hwords, _⟩ := ended
  cases ws with
  | nil =>
      have hword := word_of_words hwords
      exact absurd (congrArg Prod.fst hword) hkind
  | cons w ws =>
      obtain ⟨v, rest, hrest⟩ := List.exists_cons_of_ne_nil
        (List.concat_ne_nil (TokenKind.endMarker, text) ws)
      rw [List.cons_append, hrest] at hwords
      rw [Cursor.words_advance hwords, hwords, word_of_words hwords]

theorem Cursor.Ended.advance (ended : c.Ended) (hkind : c.current.kind ≠ .endMarker) :
    c.advance.Ended := by
  have hwords := ended.words_advance hkind
  rw [← List.singleton_append] at hwords
  exact ended.of_words hwords

theorem Cursor.Ended.op {op : String} (ended : c.Ended) (h : c.atOp op = true) :
    c.advance.Ended := by
  refine ended.advance ?_
  simp only [Cursor.atOp, Lexeme.isOp, Bool.and_eq_true, decide_eq_true_eq] at h
  simp [h.1]

theorem Cursor.Ended.words_eq (ended : c.Ended) (hkind : c.current.kind = .endMarker) :
    ∃ text, c.words = [(.endMarker, text)] := by
  obtain ⟨ws, text, hwords, hmarks⟩ := ended
  cases ws with
  | nil => exact ⟨text, hwords⟩
  | cons w ws =>
      have hword := word_of_words hwords
      exact absurd ((congrArg Prod.fst hword).symm.trans hkind) (hmarks w List.mem_cons_self)

theorem Cursor.remaining_eq_length (c : Cursor) : c.remaining = c.words.length := by
  simp [remaining, words]

end Ended

theorem kind_ne_of_word {c : Cursor} {w : Word} (h : c.current.word = w) (hkind : w.1 ≠ .endMarker) :
    c.current.kind ≠ .endMarker := by
  rwa [show c.current.kind = w.1 from congrArg Prod.fst h]

theorem isPlain_of_name {commas : Bool} {name : String} (hfree : isKeyword name = false) :
    isPlain commas (.name, name) = true := by
  have hne : name ≠ "def" := by
    rintro rfl
    exact absurd hfree (by decide)
  simp [isPlain, opensBracket, closesBracket, hne]

end Grammar

end TriviaTree
