import Mathlib
import TriviaTree.Proofs.Grammar.Reads

/-!
The rules of expressions as one ladder.

`rung` is the rule that reads expressions of a strength or stronger. A word that follows an
expression carries it on only at the strength it binds with (`Word.binding`); before any other word
(`Stops`) a rung reads what the next stronger rung reads. Some rungs are loops that group to the
left: they are entered by their first operand and go on with what follows (`Enters`), so that an
operand can itself be of the same strength. What enters a rung enters all weaker ones
(`Enters.weaken`).
-/

set_option autoImplicit false

namespace TriviaTree

variable {w : Word} {q : Precedence}

/-- The rank of the strength at which a word after an expression carries it on; nought if none. -/
def Word.binding : Word → Nat
  | (.str, _) => 16
  | (.op, symbol) =>
      if symbol ∈ ["(", "[", "."] then 15
      else if symbol = "**" then 13
      else if symbol ∈ ["*", "/", "//", "%", "@"] then 11
      else if symbol ∈ ["+", "-"] then 10
      else if symbol ∈ ["<<", ">>"] then 9
      else if symbol = "&" then 8
      else if symbol = "^" then 7
      else if symbol = "|" then 6
      else if symbol ∈ ["==", "!=", "<", "<=", ">", ">="] then 5
      else 0
  | (.name, word) =>
      if word ∈ ["in", "not", "is"] then 5
      else if word = "and" then 3
      else if word = "or" then 2
      else if word = "if" then 1
      else 0
  | _ => 0

/-- The word carries on no expression of the strength `p` or stronger. -/
def Stops (p : Precedence) (w : Word) : Prop :=
  w.binding < p.rank

instance (p : Precedence) (w : Word) : Decidable (Stops p w) :=
  inferInstanceAs (Decidable (_ < _))

theorem Stops.ne {p : Precedence} {v : Word} (h : Stops p w) (hv : ¬ Stops p v) : w ≠ v := by
  rintro rfl
  exact hv h

theorem Stops.mono {p : Precedence} (h : Stops p w) (hpq : p.rank ≤ q.rank) : Stops q w :=
  Nat.lt_of_lt_of_le h hpq

theorem Precedence.rank_le_next (p : Precedence) : p.rank ≤ p.next.rank := by
  cases p <;> decide

theorem Stops.next {p : Precedence} (h : Stops p w) : Stops p.next w :=
  h.mono p.rank_le_next

/-- No word binds as strongly as a sign does. -/
theorem Stops.factor_of_power (h : Stops .power w) : Stops .factor w := by
  have hbinding : w.binding ≠ 12 := by
    unfold Word.binding
    split <;> (repeat' split) <;> decide
  have hrank : w.binding < 13 := h
  show w.binding < 12
  omega

/-- An expression of the strength `p` or stronger may begin with the word. -/
def Word.Begins (p : Precedence) : Word → Prop
  | (.name, word) =>
      isKeyword word = false ∨ word ∈ ["True", "False", "None"] ∨ word = "not" ∧ p.rank ≤ 4
  | (.int, _) | (.float, _) | (.str, _) => True
  | (.op, symbol) => symbol ∈ ["(", "[", "\x7b"] ∨ symbol ∈ ["+", "-", "~"] ∧ p.rank ≤ 12
  | _ => False

theorem Word.Begins.mono {p : Precedence} (h : w.Begins q) (hpq : p.rank ≤ q.rank) :
    w.Begins p := by
  obtain ⟨kind, text⟩ := w
  cases kind with
  | name => exact h.imp (fun h => h) (Or.imp (fun h => h) fun hnot => ⟨hnot.1, hpq.trans hnot.2⟩)
  | op => exact h.imp (fun h => h) fun hsign => ⟨hsign.1, hpq.trans hsign.2⟩
  | _ => exact h

namespace Grammar

variable {good' good'' : Node → Prop} {c : Cursor} {rest ws' : List Word}

/-- The binary operators of a strength that associate to the left. -/
def level : Precedence → List BinaryOp
  | .bitOr => [.bitOr]
  | .bitXor => [.bitXor]
  | .bitAnd => [.bitAnd]
  | .shift => [.leftShift, .rightShift]
  | .arith => [.add, .sub]
  | .term => [.mult, .div, .floorDiv, .mod, .matMult]
  | _ => []

section Rungs

variable (keep : Retention) (self : Self)

/-- The rule that reads expressions of a strength or stronger. -/
def rung : Precedence → Parser Node
  | .tuple | .test => test keep self
  | .or => disjunction keep self
  | .and => conjunction keep self
  | .not => negation keep self
  | .compare => comparison keep self
  | .bitOr => binary keep self binaryLevels
  | .bitXor => binary keep self (binaryLevels.drop 1)
  | .bitAnd => binary keep self (binaryLevels.drop 2)
  | .shift => binary keep self (binaryLevels.drop 3)
  | .arith => binary keep self (binaryLevels.drop 4)
  | .term => binary keep self (binaryLevels.drop 5)
  | .factor => factor keep self
  | .power => power keep self
  | .await | .atom => primary keep self

/-- What a rung goes on with after its first operand. -/
def onward : Precedence → Location → Nat → Node → Parser Node
  | .await | .atom => trailers keep self
  | p => binaryTail (level p) (rung keep self p.next)

end Rungs

/-- The strongest binding of a word that may follow the first operand of a rung. -/
def reach : Precedence → Nat
  | .tuple | .test => 0
  | .or => 1
  | .and => 2
  | .not => 3
  | .compare => 4
  | .bitOr => 6
  | .bitXor => 7
  | .bitAnd => 8
  | .shift => 9
  | .arith => 10
  | .term => 11
  | .factor => 11
  | .power => 12
  | .await | .atom => 15

/-- A rung reads `ws` as its first operand, which may be all, and goes on with what follows. -/
def Enters (keep : Retention) (self : Self) (p : Precedence) (ws : List Word) (good : Node → Prop) :
    Prop :=
  ∀ c w rest, c.words = ws ++ w :: rest → w.binding ≤ reach p →
    ∃ start fuel a c', rung keep self p c = onward keep self p start fuel a c' ∧ good a ∧
      c'.words = w :: rest ∧ rest.length < fuel

/-- The strength that an entry reads. -/
def Entry.strength : Entry → Precedence
  | .test => .test
  | .negation => .not
  | .bitwise => .bitOr
  | .factor => .factor

theorem expression_succ (keep : Retention) (k : Nat) (entry : Entry) :
    expression keep (k + 1) entry = rung keep (expression keep k) entry.strength := by
  cases entry <;> rfl

variable {keep : Retention} {self : Self} {p : Precedence} {ws : List Word} {good : Node → Prop}

/-! ### Loops -/

theorem binaryOp?_of_stops (h : c.words = w :: rest) (hw : Stops p w) :
    c.binaryOp? (level p) = none := by
  have hlevel : ∀ op ∈ level p, ¬ Stops p (.op, op.symbol) := by
    cases p <;> decide
  rw [Cursor.binaryOp?, List.find?_eq_none]
  intro op hop
  rw [Cursor.atOp_of_words h]
  simpa using hw.ne (hlevel op hop)

theorem trailers_of_stops (h : c.words = w :: rest) (hw : Stops p w) (start : Location) (fuel : Nat)
    (a : Node) : trailers keep self start (fuel + 1) a c = .ok (a, c) := by
  have hop : ∀ symbol ∈ ["(", "[", "."], c.atOp symbol = false := by
    intro symbol hsymbol
    have hnot : ¬ Stops p (.op, symbol) := by
      have hbinding : Word.binding (.op, symbol) = 15 := if_pos hsymbol
      rw [Stops, hbinding]
      cases p <;> decide
    rw [Cursor.atOp_of_words h, decide_eq_false (hw.ne hnot)]
  simp [trailers, hop]

theorem onward_of_stops (h : c.words = w :: rest) (hw : Stops p w) (start : Location) (fuel : Nat)
    (a : Node) : onward keep self p start (fuel + 1) a c = .ok (a, c) := by
  have hbinary : binaryTail (level p) (rung keep self p.next) start (fuel + 1) a c = .ok (a, c) := by
    rw [binaryTail, bind_ok]
    refine ⟨c, c, get_ok.2 ⟨rfl, rfl⟩, ?_⟩
    rw [binaryOp?_of_stops h hw]
    rfl
  have htrailers : trailers keep self start (fuel + 1) a c = .ok (a, c) :=
    trailers_of_stops h hw start fuel a
  cases p <;> first | exact hbinary | exact htrailers

theorem le_reach_of_stops (h : Stops p w) : w.binding ≤ reach p := by
  have hrank : p.rank ≤ reach p + 1 := by cases p <;> decide
  exact Nat.le_of_lt_succ (Nat.lt_of_lt_of_le h hrank)

/-- Before a word that stops it, a rung reads what it is entered by. -/
theorem Enters.reads (h : Enters keep self p ws good) : Reads (rung keep self p) ws (Stops p) good := by
  intro c w rest hwords hw
  obtain ⟨start, fuel, a, c', hrun, ha, hwords', hfuel⟩ := h c w rest hwords (le_reach_of_stops hw)
  obtain ⟨fuel, rfl⟩ := exists_fuel hfuel
  exact ⟨a, c', hrun.trans (onward_of_stops hwords' hw start fuel a), ha, hwords'⟩

/-- A rung that is no loop is entered by what it reads. -/
theorem Reads.enters (h : Reads (rung keep self p) ws (Stops p) good) (hp : reach p < p.rank) :
    Enters keep self p ws good := by
  intro c w rest hwords hw
  have hstops : Stops p w := Nat.lt_of_le_of_lt hw hp
  obtain ⟨a, c', hrun, ha, hwords'⟩ := h c w rest hwords hstops
  exact ⟨.origin, rest.length + 1, a, c',
    hrun.trans (onward_of_stops hwords' hstops _ _ a).symm, ha, hwords', Nat.lt_succ_self _⟩

theorem bind_of_ok {α β : Type} {q : Parser α} {f : α → Parser β} {c' : Cursor} {a : α}
    (h : q c = .ok (a, c')) : (q >>= f) c = f a c' := by
  show Except.bind (q c) (fun run => f run.1 run.2) = _
  rw [h]
  rfl

/-- A level of operators is entered by an operand. -/
theorem enters_level (h : Reads (rung keep self p.next) ws (Stops p.next) good)
    (hp : level p ≠ []) : Enters keep self p ws good := by
  have hrung : rung keep self p = (do
      let start ← mark
      let left ← rung keep self p.next
      bounded fun n => binaryTail (level p) (rung keep self p.next) start n left) := by
    cases p <;> first | rfl | exact absurd rfl hp
  have honward : onward keep self p = binaryTail (level p) (rung keep self p.next) := by
    cases p <;> first | rfl | exact absurd rfl hp
  have hreach : reach p < p.next.rank := by
    cases p <;> first | decide | exact absurd rfl hp
  intro c w rest hwords hw
  obtain ⟨a, c', hrun, ha, hwords'⟩ := h c w rest hwords (Nat.lt_of_le_of_lt hw hreach)
  refine ⟨c.current.span.start, c'.remaining, a, c', ?_, ha, hwords', ?_⟩
  · rw [hrung, honward, bind_of_ok (mark_ok.2 ⟨rfl, rfl⟩), bind_of_ok hrun]
    exact bind_of_ok (get_ok.2 ⟨rfl, rfl⟩)
  · rw [Cursor.remaining_of_words hwords']
    exact Nat.lt_succ_self _

/-- A rung that has been entered goes on with one more turn of its loop. -/
theorem Enters.turn (h : Enters keep self p ws good) (turn : Location → Node → Parser Node)
    (hw : w.binding ≤ reach p) (honward : ∀ start fuel a (c : Cursor) later, c.words = w :: later →
      onward keep self p start (fuel + 1) a c = (turn start a >>= onward keep self p start fuel) c)
    (hturn : ∀ start a, good a →
      Reads (turn start a) (w :: ws') (fun v => v.binding ≤ reach p) good') :
    Enters keep self p (ws ++ w :: ws') good' := by
  intro c v rest hwords hv
  obtain ⟨start, fuel, a, c₁, hrun, ha, hwords₁, hfuel⟩ := h c w (ws' ++ v :: rest)
    (by simpa using hwords) hw
  obtain ⟨fuel, rfl⟩ := exists_fuel hfuel
  obtain ⟨b, c₂, hrun', hb, hwords₂⟩ := hturn start a ha c₁ v rest hwords₁ hv
  refine ⟨start, fuel, b, c₂, ?_, hb, hwords₂, ?_⟩
  · rw [hrun, honward start fuel a c₁ _ hwords₁, bind_of_ok hrun']
  · simp only [List.length_append, List.length_cons] at hfuel
    omega

theorem binaryOp?_symbol {op : BinaryOp} {later : List Word}
    (h : c.words = (.op, op.symbol) :: later) (hop : op ∈ level p) :
    c.binaryOp? (level p) = some op := by
  have hsymbol : ∀ op' : BinaryOp, c.atOp op'.symbol = true ↔ op = op' := by
    intro op'
    rw [Cursor.atOp_of_words h]
    cases op <;> cases op' <;> decide
  have hsome : (c.binaryOp? (level p)).isSome = true :=
    List.find?_isSome.2 ⟨op, hop, (hsymbol op).2 rfl⟩
  obtain ⟨found, hfound⟩ := Option.isSome_iff_exists.1 hsome
  rw [Cursor.binaryOp?] at hfound ⊢
  have hat := List.find?_some hfound
  rw [hfound, (hsymbol found).1 hat]

/-- A level of operators goes on with an operator and another operand. -/
theorem Enters.binOp {op : BinaryOp} (left : Enters keep self op.precedence ws good)
    (right : Reads (rung keep self op.precedence.next) ws' (Stops op.precedence.next) good')
    (hop : op ≠ .pow) (hgood : ∀ a b span, good a → good' b → good'' ⟨.binOp a op b, span⟩) :
    Enters keep self op.precedence (ws ++ (.op, op.symbol) :: ws') good'' := by
  have honward : onward keep self op.precedence =
      binaryTail (level op.precedence) (rung keep self op.precedence.next) := by
    cases op <;> rfl
  have hreach : reach op.precedence < op.precedence.next.rank := by
    cases op <;> decide
  have hsymbol : Word.binding (.op, op.symbol) ≤ reach op.precedence := by
    cases op <;> first | decide | exact absurd rfl hop
  have hlevel : op ∈ level op.precedence := by
    cases op <;> first | decide | exact absurd rfl hop
  refine left.turn (fun start left => do
    let _ ← bump
    let right ← rung keep self op.precedence.next
    close (.binOp left op right) start) hsymbol (fun start fuel a c later hwords => ?_)
    fun start a ha => ?_
  · rw [honward, binaryTail, bind_of_ok (get_ok.2 ⟨rfl, rfl⟩), binaryOp?_symbol hwords hlevel]
    simp only [bind_assoc]
  · exact .skip (right.andThen (fun b hb => .close fun span => hgood a b span ha hb) fun w hw =>
      Nat.lt_of_le_of_lt hw hreach)

/-! ### Operators that do not group to the left -/

theorem rung_boolOp (op : BoolOp) :
    rung keep self op.precedence = boolChain op (rung keep self op.precedence.next) := by
  cases op <;> rfl

section Chains

variable {γ : Type} {words : γ → List Word} {goods : γ → Node → Prop}

theorem reads_boolTail (op : BoolOp) {xs : List γ}
    (h : ∀ x ∈ xs, Reads (rung keep self op.precedence.next) (words x) (Stops op.precedence.next)
      (goods x)) {fuel : Nat} (hfuel : xs.length < fuel) :
    Reads (boolTail op (rung keep self op.precedence.next) fuel)
      (xs.flatMap fun x => (.name, op.symbol) :: words x) (Stops op.precedence)
      (List.Forall₂ goods xs) := by
  have hkeyword : ¬ Stops op.precedence (.name, op.symbol) := by cases op <;> decide
  have hoperand : Stops op.precedence.next (.name, op.symbol) := by cases op <;> decide
  induction xs generalizing fuel with
  | nil =>
      obtain ⟨fuel, rfl⟩ := exists_fuel hfuel
      exact .unlessFalse (sees_notKeyword fun w hw => hw.ne hkeyword) (.pure .nil)
  | cons x xs ih =>
      obtain ⟨fuel, rfl⟩ := exists_fuel hfuel
      have hrest := ih (List.forall_mem_cons.1 h).2 (Nat.lt_of_succ_lt_succ hfuel)
      refine .unlessTrue (sees_keyword fun _ _ => rfl) (.skip ?_)
      refine (h x List.mem_cons_self).bind (fun a ha => hrest.thenPure fun _ has => .cons ha has) ?_
      intro w hw
      cases xs with
      | nil => exact hw.next
      | cons _ _ => exact hoperand

/-- Operands of one boolean operator form one chain, and one alone is itself. -/
theorem reads_boolChain (op : BoolOp) {xs : List γ}
    (first : Reads (rung keep self op.precedence.next) ws (Stops op.precedence.next) good)
    (h : ∀ x ∈ xs, Reads (rung keep self op.precedence.next) (words x) (Stops op.precedence.next)
      (goods x)) (hone : xs = [] → ∀ a, good a → good' a)
    (hmany : xs ≠ [] → ∀ a as span, good a → List.Forall₂ goods xs as →
      good' ⟨.boolOp op (a :: as), span⟩) :
    Reads (rung keep self op.precedence) (ws ++ xs.flatMap fun x => (.name, op.symbol) :: words x)
      (Stops op.precedence) good' := by
  have hoperand : Stops op.precedence.next (.name, op.symbol) := by cases op <;> decide
  have hlength : xs.length ≤ (xs.flatMap fun x => (.name, op.symbol) :: words x).length := by
    rw [List.length_flatMap, ← List.length_map]
    exact List.length_le_sum_of_one_le _ (by simp)
  rw [rung_boolOp]
  refine .mark fun start => first.bind (fun a ha => ?_) ?_
  · have hrest := Reads.bounded fun fuel hfuel => reads_boolTail op h (hlength.trans_lt hfuel)
    refine hrest.andThen (fun as has => ?_) fun _ hw => hw
    cases has with
    | nil => exact .pure (hone rfl a ha)
    | cons hb hbs => exact .close fun span => hmany (by simp) a _ span ha (.cons hb hbs)
  · intro w hw
    cases xs with
    | nil => exact hw.next
    | cons _ _ => exact hoperand

end Chains

/-- The words of a comparison operator. -/
def compareWords : CompareOp → List Word
  | .is => [(.name, "is")]
  | .isNot => [(.name, "is"), (.name, "not")]
  | .isIn => [(.name, "in")]
  | .notIn => [(.name, "not"), (.name, "in")]
  | op => [(.op, op.symbol)]

theorem first_compareWords (op : CompareOp) : First (Stops .bitOr) (compareWords op) := by
  cases op <;> exact .cons (by decide)

theorem compareWords_cases (op : CompareOp) :
    (∃ w, compareWords op = [w]) ∨ ∃ w w', compareWords op = [w, w'] := by
  cases op <;> simp [compareWords]

theorem compareOp?_of_stops (h : c.words = w :: rest) (hw : Stops .compare w) :
    c.compareOp? = none := by
  have op : ∀ {symbol}, ¬ Stops .compare (.op, symbol) → c.atOp symbol = false := fun hsymbol => by
    rw [Cursor.atOp_of_words h, decide_eq_false (hw.ne hsymbol)]
  have keyword : ∀ {word}, ¬ Stops .compare (.name, word) → c.atKeyword word = false :=
    fun hword => by rw [Cursor.atKeyword_of_words h, decide_eq_false (hw.ne hword)]
  have hnone : c.atOp "==" = false ∧ c.atOp "!=" = false ∧ c.atOp "<" = false ∧
      c.atOp "<=" = false ∧ c.atOp ">" = false ∧ c.atOp ">=" = false ∧ c.atKeyword "in" = false ∧
      c.atKeyword "not" = false ∧ c.atKeyword "is" = false :=
    ⟨op (by decide), op (by decide), op (by decide), op (by decide), op (by decide), op (by decide),
      keyword (by decide), keyword (by decide), keyword (by decide)⟩
  simp [Cursor.compareOp?, hnone]

theorem compareOp?_words {op : CompareOp} {v : Word} (h : c.words = compareWords op ++ v :: rest)
    (hv : v ≠ (.name, "not")) : c.compareOp? = some (op, (compareWords op).length) := by
  cases op <;>
    simp [Cursor.compareOp?, Cursor.atOp_of_words h, Cursor.atKeyword_of_words h,
      Cursor.isKeyword_eq, Cursor.next_of_words h, hv, compareWords, CompareOp.symbol]

section Comparisons

variable {γ : Type} {op : γ → CompareOp} {words : γ → List Word} {goods : γ → Node → Prop}

theorem stops_headD_comparisons (xs : List γ) (hw : Stops .compare w) :
    Stops .bitOr ((xs.flatMap fun x => compareWords (op x) ++ words x).headD w) := by
  cases xs with
  | nil => exact hw.next
  | cons x xs =>
      rw [List.flatMap_cons]
      exact (((first_compareWords (op x)).append _).append _).headD w

theorem reads_compareTail {xs : List γ}
    (h : ∀ x ∈ xs, Reads (rung keep self .bitOr) (words x) (Stops .bitOr) (goods x))
    (hstart : ∀ x ∈ xs, First (· ≠ (.name, "not")) (words x)) {fuel : Nat}
    (hfuel : xs.length < fuel) :
    Reads (compareTail (rung keep self .bitOr) fuel) (xs.flatMap fun x => compareWords (op x) ++ words x)
      (Stops .compare) (List.Forall₂ (fun x pair => pair.1 = op x ∧ goods x pair.2) xs) := by
  induction xs generalizing fuel with
  | nil =>
      obtain ⟨fuel, rfl⟩ := exists_fuel hfuel
      refine .getFirst fun c w later hw hwords => ?_
      rw [compareOp?_of_stops hwords hw]
      exact .pure .nil
  | cons x xs ih =>
      obtain ⟨fuel, rfl⟩ := exists_fuel hfuel
      have hrest := ih (List.forall_mem_cons.1 h).2
        (List.forall_mem_cons.1 hstart).2 (Nat.lt_of_succ_lt_succ hfuel)
      have hright : Reads (do
          let right ← rung keep self .bitOr
          return (op x, right) :: (← compareTail (rung keep self .bitOr) fuel))
          (words x ++ xs.flatMap fun x => compareWords (op x) ++ words x) (Stops .compare)
          (List.Forall₂ (fun x pair => pair.1 = op x ∧ goods x pair.2) (x :: xs)) :=
        (h x List.mem_cons_self).bind
          (fun b hb => hrest.thenPure fun _ has => .cons ⟨rfl, hb⟩ has) fun _ hw =>
            stops_headD_comparisons xs hw
      rw [List.flatMap_cons, List.append_assoc]
      refine .get fun c w rest hwords hw => ?_
      obtain ⟨later, hlater⟩ := Reads.words_headD
        (words x ++ xs.flatMap fun x => compareWords (op x) ++ words x) w rest
      rw [List.append_assoc, hlater] at hwords
      rw [compareOp?_words hwords (((hstart x List.mem_cons_self).append _).headD w)]
      rcases compareWords_cases (op x) with ⟨u, hu⟩ | ⟨u, u', hu⟩ <;> rw [hu]
      · exact .skip hright
      · exact .skip (.skip hright)

/-- Comparisons form one chain, and an operand without one is itself. -/
theorem reads_comparison {xs : List γ} (left : Reads (rung keep self .bitOr) ws (Stops .bitOr) good)
    (h : ∀ x ∈ xs, Reads (rung keep self .bitOr) (words x) (Stops .bitOr) (goods x))
    (hstart : ∀ x ∈ xs, First (· ≠ (.name, "not")) (words x))
    (hone : xs = [] → ∀ a, good a → good' a)
    (hmany : xs ≠ [] → ∀ a as span, good a → List.Forall₂ goods xs as →
      good' ⟨.compare a (xs.map op) as, span⟩) :
    Reads (rung keep self .compare) (ws ++ xs.flatMap fun x => compareWords (op x) ++ words x)
      (Stops .compare) good' := by
  have hlength : xs.length ≤ (xs.flatMap fun x => compareWords (op x) ++ words x).length := by
    rw [List.length_flatMap, ← List.length_map]
    refine List.length_le_sum_of_one_le _ fun i hi => ?_
    obtain ⟨x, _, rfl⟩ := List.mem_map.1 hi
    rcases compareWords_cases (op x) with ⟨u, hu⟩ | ⟨u, u', hu⟩ <;> simp [hu]
  refine .mark fun start => left.bind (fun a ha => ?_) fun _ hw => stops_headD_comparisons xs hw
  have hrest := Reads.bounded fun fuel hfuel => reads_compareTail h hstart (hlength.trans_lt hfuel)
  refine hrest.andThen (fun pairs hpairs => ?_) fun _ hw => hw
  have hops : pairs.map (·.1) = xs.map op := by
    rw [← List.forall₂_eq_eq_eq, List.forall₂_map_left_iff, List.forall₂_map_right_iff]
    exact hpairs.flip.imp fun _ _ hpair => hpair.1
  have hoperands : List.Forall₂ goods xs (pairs.map (·.2)) :=
    List.forall₂_map_right_iff.2 (hpairs.imp fun _ _ hpair => hpair.2)
  cases hpairs with
  | nil => exact .pure (hone rfl a ha)
  | cons _ _ =>
      refine .close fun span => ?_
      rw [hops]
      exact hmany (by simp) a _ span ha hoperands

end Comparisons

/-! ### Signs, powers and choices -/

theorem reads_not (operand : Reads (self .negation) ws (Stops .not) good)
    (hgood : ∀ a span, good a → good' ⟨.unaryOp .not a, span⟩) :
    Reads (rung keep self .not) ((.name, "not") :: ws) (Stops .not) good' :=
  .ifTrue (sees_keyword fun _ _ => rfl) (.mark fun _ => .skip (operand.andThen
    (fun a ha => .close fun span => hgood a span ha) fun _ hw => hw))

theorem reads_sign {op : UnaryOp} (hop : op ≠ .not)
    (operand : Reads (self .factor) ws (Stops .factor) good)
    (hgood : ∀ a span, good a → good' ⟨.unaryOp op a, span⟩) :
    Reads (rung keep self .factor) ((.op, op.symbol) :: ws) (Stops .factor) good' := by
  refine .mark fun start => .getFirst fun c w later _ hwords => ?_
  have hsign : sign? c.current = some op := by
    simp only [sign?, Cursor.isOp_eq, Cursor.word_of_words hwords]
    cases op <;> first | rfl | exact absurd rfl hop
  rw [hsign]
  exact .skip (operand.andThen (fun a ha => .close fun span => hgood a span ha) fun _ hw => hw)

theorem reads_power (base : Reads (rung keep self .await) ws (Stops .await) good)
    (exponent : Reads (self .factor) ws' (Stops .factor) good')
    (hgood : ∀ a b span, good a → good' b → good'' ⟨.binOp a .pow b, span⟩) :
    Reads (rung keep self .power) (ws ++ (.op, "**") :: ws') (Stops .power) good'' := by
  have hsymbol : Stops .await (.op, "**") := by decide
  refine .mark fun start => base.bind (fun a ha => ?_) fun _ _ => hsymbol
  exact .ifTrue (sees_op fun _ _ => rfl) (.skip (exponent.andThen
    (fun b hb => .close fun span => hgood a b span ha hb) fun _ hw => hw.factor_of_power))

theorem reads_ifExp {ws'' : List Word} {goodAll : Node → Prop}
    (body : Reads (rung keep self .or) ws (Stops .or) good)
    (condition : Reads (rung keep self .or) ws' (Stops .or) good')
    (orelse : Reads (self .test) ws'' (Stops .test) good'')
    (hgood : ∀ a b c span, good a → good' b → good'' c → goodAll ⟨.ifExp b a c, span⟩) :
    Reads (rung keep self .test) (ws ++ (.name, "if") :: (ws' ++ (.name, "else") :: ws''))
      (Stops .test) goodAll := by
  have hif : Stops .or (.name, "if") := by decide
  have helse : Stops .or (.name, "else") := by decide
  refine .mark fun start => body.bind (fun a ha => ?_) fun _ _ => hif
  refine .ifTrue (sees_keyword fun _ _ => rfl) (.skip (condition.bind (fun b hb => ?_)
    fun _ _ => helse))
  exact .expectKeyword (orelse.andThen (fun c hc => .close fun span => hgood a b c span ha hb hc)
    fun _ hw => hw)

/-! ### Down the ladder -/

theorem ne_not_of_begins (h : w.Begins .compare) : w ≠ (.name, "not") := by
  rintro rfl
  revert h
  unfold Word.Begins
  decide

theorem sign?_of_begins {l : Lexeme} (h : l.word.Begins .power) : sign? l = none := by
  have hsign : ∀ symbol ∈ ["+", "-", "~"], ¬ Word.Begins .power (.op, symbol) := by
    unfold Word.Begins
    decide
  have hop : ∀ symbol ∈ ["+", "-", "~"], l.isOp symbol = false := by
    intro symbol hsymbol
    rw [Cursor.isOp_eq, decide_eq_false_iff_not]
    intro hword
    exact hsign symbol hsymbol (hword ▸ h)
  simp [sign?, hop]

/-- What is read by a rung that is no loop is read by the next weaker one. -/
theorem reads_lower (h : Reads (rung keep self p.next) ws (Stops p.next) good)
    (hbegins : First (·.Begins p.next) ws)
    (hp : p ∈ [.test, .or, .and, .not, .compare, .factor, .power]) :
    Reads (rung keep self p) ws (Stops p) good := by
  have hchain : ∀ op : BoolOp, p = op.precedence → Reads (rung keep self p) ws (Stops p) good := by
    rintro op rfl
    have hnone : ∀ x ∈ ([] : List Unit), Reads (rung keep self op.precedence.next) []
        (Stops op.precedence.next) fun _ => True := by simp
    have hall := reads_boolChain op h hnone (fun _ _ ha => ha) fun hne => absurd rfl hne
    simpa using hall
  simp only [List.mem_cons, List.not_mem_nil, or_false] at hp
  rcases hp with rfl | rfl | rfl | rfl | rfl | rfl | rfl
  · have hif : ¬ Stops .test (.name, "if") := by decide
    exact .mark fun _ => h.andThen (fun a ha =>
      .ifFalse (sees_notKeyword fun _ hw => hw.ne hif) (.pure ha)) fun _ hw => hw.next
  · exact hchain .or rfl
  · exact hchain .and rfl
  · exact .ifFalse (sees_notKeyword fun w _ => ne_not_of_begins (hbegins.headD w))
      (h.mono fun _ hw => hw.next)
  · have hnone : ∀ x ∈ ([] : List CompareOp), Reads (rung keep self .bitOr) [] (Stops .bitOr)
        fun _ => True := by simp
    have hall : Reads (rung keep self .compare)
        (ws ++ ([] : List CompareOp).flatMap fun op => compareWords op ++ []) (Stops .compare) good :=
      reads_comparison h hnone (by simp) (fun _ _ ha => ha) fun hne => absurd rfl hne
    simpa using hall
  · refine .mark fun _ => .getFirst fun c w later _ hwords => ?_
    rw [sign?_of_begins (by rw [Cursor.word_of_words hwords]; exact hbegins.headD w)]
    exact h.mono fun _ hw => hw.next
  · have hpower : ¬ Stops .power (.op, "**") := by decide
    exact .mark fun _ => h.andThen (fun a ha =>
      .ifFalse (sees_notOp fun _ hw => hw.ne hpower) (.pure ha)) fun _ hw => hw.next

/-- What enters a rung enters the next weaker one. -/
theorem Enters.lower (h : Enters keep self p.next ws good) (hbegins : First (·.Begins p.next) ws)
    (hp : 0 < p.rank) : Enters keep self p ws good := by
  by_cases hlevel : level p ≠ []
  · exact enters_level h.reads hlevel
  · have hreads := reads_lower h.reads hbegins
    cases p with
    | tuple => cases hp
    | await | atom => exact h
    | test | or | and | not | compare | factor | power =>
        exact Reads.enters (hreads (by decide)) (by decide)
    | _ => exact absurd (by decide) hlevel

/-- What enters a rung enters all weaker ones. -/
theorem Enters.weaken (h : Enters keep self q ws good) (hbegins : First (·.Begins q) ws)
    (hp : 0 < p.rank) (hpq : p.rank ≤ q.rank) : Enters keep self p ws good := by
  induction hgap : q.rank - p.rank generalizing p with
  | zero =>
      obtain rfl : p = q := by
        have hrank : p.rank = q.rank := by omega
        cases p <;> cases q <;> first | rfl | cases hrank
      exact h
  | succ gap ih =>
      have hatom : p ≠ .atom := by
        rintro rfl
        cases q <;> cases hgap
      have hnext := Precedence.rank_next p hatom
      have hlower : Enters keep self p.next ws good := ih (by omega) (by omega) (by omega)
      exact hlower.lower (hbegins.imp fun _ hw => hw.mono (by omega)) hp

end Grammar

end TriviaTree
