import Mathlib
import TriviaTree.Grammar.Statement

/-!
Successful runs of parsers.

A run `p c = .ok (a, c')` of a parser that is put together from others takes apart into runs of
its parts. The lemmas here say so for each way parsers are put together and for each of the
elementary ones; as simp lemmas they turn a successful run of a rule into the list of what it
read and which branches it took.
-/

set_option autoImplicit false

namespace TriviaTree.Grammar

variable {α β : Type} {p q : Parser α} {a a' : α} {b : β} {c c' : Cursor}

/-- Fuel that is more than something lasts for a step. -/
theorem exists_fuel {used fuel : Nat} (h : used < fuel) : ∃ k, fuel = k + 1 :=
  Nat.exists_eq_add_one.2 (Nat.zero_lt_of_lt h)

@[simp] theorem bind_ok {f : α → Parser β} : (p >>= f) c = .ok (b, c') ↔
    ∃ a middle, p c = .ok (a, middle) ∧ f a middle = .ok (b, c') := by
  show (Except.bind (p c) fun run => f run.1 run.2) = _ ↔ _
  cases p c with
  | error fault => simp [Except.bind]
  | ok run => simp [Except.bind, Prod.ext_iff]

@[simp] theorem map_ok {f : α → β} : (f <$> p) c = .ok (b, c') ↔
    ∃ a, p c = .ok (a, c') ∧ f a = b := by
  rw [map_eq_pure_bind, bind_ok]
  constructor
  · rintro ⟨a, middle, hrun, hpure⟩
    cases hpure
    exact ⟨a, hrun, rfl⟩
  · rintro ⟨a, hrun, rfl⟩
    exact ⟨a, c', hrun, rfl⟩

@[simp] theorem pure_ok : (pure a : Parser α) c = .ok (a', c') ↔ a = a' ∧ c = c' := by
  show Except.ok (a, c) = _ ↔ _
  simp

@[simp] theorem get_ok {found : Cursor} :
    (get : Parser Cursor) c = .ok (found, c') ↔ found = c ∧ c' = c := by
  show Except.ok (c, c) = _ ↔ _
  simp [eq_comm]

@[simp] theorem fail_ok {fault : SyntaxFault} : ¬ (fail fault : Parser α) c = .ok (a, c') := by
  simp [fail]

@[simp] theorem failFound_ok {fault : Found → SyntaxFault} :
    ¬ (failFound fault : Parser α) c = .ok (a, c') := by
  simp [failFound]

@[simp] theorem ite_ok {P : Prop} [Decidable P] : (if P then p else q) c = .ok (a, c') ↔
    (P ∧ p c = .ok (a, c')) ∨ (¬ P ∧ q c = .ok (a, c')) := by
  split <;> simp_all

@[simp] theorem bump_ok {read : Lexeme} :
    bump c = .ok (read, c') ↔ read = c.current ∧ c' = c.advance := by
  simp [bump, eq_comm]

@[simp] theorem atOp_ok {op : String} {found : Bool} :
    atOp op c = .ok (found, c') ↔ c.atOp op = found ∧ c' = c := by
  simp [atOp, and_comm]

@[simp] theorem atKind_ok {kind : TokenKind} {found : Bool} :
    atKind kind c = .ok (found, c') ↔ c.atKind kind = found ∧ c' = c := by
  simp [atKind, and_comm]

@[simp] theorem atKeyword_ok {keyword : String} {found : Bool} :
    atKeyword keyword c = .ok (found, c') ↔ c.atKeyword keyword = found ∧ c' = c := by
  simp [atKeyword, and_comm]

@[simp] theorem mark_ok {place : Location} :
    mark c = .ok (place, c') ↔ c.current.span.start = place ∧ c' = c := by
  simp [mark, and_comm]

@[simp] theorem close_ok {kind : Kind Node} {start : Location} {n : Node} :
    close kind start c = .ok (n, c') ↔
      ⟨kind, some ⟨start, max c.lastEnd start⟩⟩ = n ∧ c' = c := by
  simp [close, spanFrom, and_comm]

@[simp] theorem expectOp_ok {op : String} {done : Unit} :
    expectOp op c = .ok (done, c') ↔ c.atOp op = true ∧ c' = c.advance := by
  simp [expectOp]

@[simp] theorem expectKeyword_ok {keyword : String} {done : Unit} :
    expectKeyword keyword c = .ok (done, c') ↔ c.atKeyword keyword = true ∧ c' = c.advance := by
  simp [expectKeyword]

@[simp] theorem expectKind_ok {kind : TokenKind} {fault : Found → SyntaxFault} {done : Unit} :
    expectKind kind fault c = .ok (done, c') ↔ c.atKind kind = true ∧ c' = c.advance := by
  simp [expectKind]

@[simp] theorem expectIdentifier_ok {name : String} :
    expectIdentifier c = .ok (name, c') ↔
      (c.current.kind = .name ∧ isKeyword c.current.text = false) ∧
        c' = c.advance ∧ c.current.text = name := by
  simp [expectIdentifier, Cursor.atKind]

@[simp] theorem bounded_ok {loop : Nat → Parser α} :
    bounded loop c = .ok (a, c') ↔ loop c.remaining c = .ok (a, c') := by
  simp [bounded]

@[simp] theorem withExpressions_ok {keep : Retention} {rule : Self → Parser α} :
    withExpressions keep rule c = .ok (a, c') ↔
      rule (expression keep (c.remaining + 1)) c = .ok (a, c') := by
  simp [withExpressions]

theorem run'_ok : p.run' c = .ok a ↔ ∃ c', p c = .ok (a, c') := by
  show (Except.map Prod.fst (p c)) = _ ↔ _
  cases p c with
  | error fault => simp [Except.map]
  | ok run => simp [Except.map, Prod.ext_iff]

end TriviaTree.Grammar

namespace TriviaTree

open Grammar

/-- A text is read as a module when it can be cut into tokens and its lexemes can be read. -/
theorem parseModule_ok {source : String} {keep : Retention} {tree : Node} :
    parseModule source keep = .ok tree ↔ ∃ tokens, tokenize source = .ok tokens ∧
      ∃ c', module keep (.ofLexemes ((tokens.filter (·.kind ≠ .comment)).map
        (Token.locate (.ofText source)))) = .ok (tree, c') := by
  rw [parseModule, lexemes]
  cases tokenize source with
  | error fault =>
      constructor
      · intro h
        cases h
      · rintro ⟨tokens, htokens, _⟩
        cases htokens
  | ok tokens =>
      refine run'_ok.trans ?_
      simp only [Except.ok.injEq, exists_eq_left']

end TriviaTree
