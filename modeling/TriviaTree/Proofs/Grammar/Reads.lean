import Mathlib
import TriviaTree.Proofs.Grammar.Words

/-!
What a parser reads.

`Reads p ws stop good` says that wherever the words `ws` stand at the cursor, before a word that
`stop` allows, the parser `p` reads exactly `ws` and has a result in `good`. There is one lemma for
each way parsers are put together, so a rule of the grammar is followed along the words it should
read. Lists with commas are read by `reads_itemsUntil`, `reads_commaTail` and `reads_itemFold`.
-/

set_option autoImplicit false

namespace TriviaTree.Grammar

namespace Cursor

variable {c : Cursor} {w v : Word} {ws : List Word}

theorem word_of_words (h : c.words = w :: ws) : c.current.word = w :=
  (List.cons.inj h).1

theorem words_advance (h : c.words = w :: v :: ws) : c.advance.words = v :: ws := by
  obtain ⟨current, ahead, lastEnd⟩ := c
  cases ahead with
  | nil => simp [words] at h
  | cons lexeme ahead => exact (List.cons.inj h).2

theorem next_of_words (h : c.words = w :: v :: ws) : c.next.word = v := by
  obtain ⟨current, ahead, lastEnd⟩ := c
  cases ahead with
  | nil => simp [words] at h
  | cons lexeme ahead => exact (List.cons.inj (List.cons.inj h).2).1

theorem remaining_of_words (h : c.words = ws) : c.remaining = ws.length := by
  rw [← h]
  simp [remaining, words]

theorem kind_of_words (h : c.words = w :: ws) : c.current.kind = w.1 :=
  congrArg Prod.fst (word_of_words h)

theorem text_of_words (h : c.words = w :: ws) : c.current.text = w.2 :=
  congrArg Prod.snd (word_of_words h)

theorem isOp_eq (l : Lexeme) (op : String) : l.isOp op = decide (l.word = (.op, op)) := by
  simp [Lexeme.isOp, Lexeme.word]

theorem isKeyword_eq (l : Lexeme) (keyword : String) :
    l.isKeyword keyword = decide (l.word = (.name, keyword)) := by
  simp [Lexeme.isKeyword, Lexeme.word]

theorem atOp_of_words (h : c.words = w :: ws) (op : String) :
    c.atOp op = decide (w = (.op, op)) := by
  rw [atOp, isOp_eq, word_of_words h]

theorem atKeyword_of_words (h : c.words = w :: ws) (keyword : String) :
    c.atKeyword keyword = decide (w = (.name, keyword)) := by
  rw [atKeyword, isKeyword_eq, word_of_words h]

theorem atKind_of_words (h : c.words = w :: ws) (kind : TokenKind) :
    c.atKind kind = decide (w.1 = kind) := by
  rw [atKind, kind_of_words h]

end Cursor

variable {α β σ : Type}

/-- Before words `ws` and any word that `stop` allows after them, `p` reads exactly `ws`. -/
def Reads (p : Parser α) (ws : List Word) (stop : Word → Prop) (good : α → Prop) : Prop :=
  ∀ c w rest, c.words = ws ++ w :: rest → stop w →
    ∃ a c', p c = .ok (a, c') ∧ good a ∧ c'.words = w :: rest

/-- Before words `ws` and any word that `stop` allows after them, `look` answers `found`. -/
def Sees (look : Parser Bool) (ws : List Word) (stop : Word → Prop) (found : Bool) : Prop :=
  ∀ c w rest, c.words = ws ++ w :: rest → stop w → look c = .ok (found, c)

namespace Reads

variable {p q : Parser α} {ws ws' : List Word} {stop stop' : Word → Prop} {good : α → Prop}
  {good' : β → Prop} {w : Word}

theorem mono (h : Reads p ws stop good) (hstop : ∀ w, stop' w → stop w) : Reads p ws stop' good :=
  fun c w rest hwords hw => h c w rest hwords (hstop w hw)

theorem imp {good' : α → Prop} (h : Reads p ws stop good) (hgood : ∀ a, good a → good' a) :
    Reads p ws stop good' := by
  intro c w rest hwords hw
  obtain ⟨a, c', hrun, ha, hwords'⟩ := h c w rest hwords hw
  exact ⟨a, c', hrun, hgood a ha, hwords'⟩

theorem pure {a : α} (h : good a) : Reads (Pure.pure a : Parser α) [] stop good :=
  fun c _ _ hwords _ => ⟨a, c, rfl, h, hwords⟩

/-- The word at the cursor: the first one of `ws`, or the one that follows. -/
theorem words_headD (ws : List Word) (w : Word) (rest : List Word) :
    ∃ later, ws ++ w :: rest = ws.headD w :: later := by
  cases ws with
  | nil => exact ⟨rest, rfl⟩
  | cons v vs => exact ⟨vs ++ w :: rest, rfl⟩

/-- One parser after another: what the first may be followed by is what the second begins with. -/
theorem bind {f : α → Parser β} (first : Reads p ws stop good)
    (second : ∀ a, good a → Reads (f a) ws' stop' good')
    (hlink : ∀ w, stop' w → stop (ws'.headD w)) : Reads (p >>= f) (ws ++ ws') stop' good' := by
  intro c w rest hwords hw
  obtain ⟨later, hlater⟩ := words_headD ws' w rest
  obtain ⟨a, c₁, hrun, ha, hwords₁⟩ := first c (ws'.headD w) later
    (by rw [hwords, List.append_assoc, hlater]) (hlink w hw)
  obtain ⟨b, c₂, hrun', hb, hwords₂⟩ := second a ha c₁ w rest (hwords₁.trans hlater.symm) hw
  exact ⟨b, c₂, bind_ok.2 ⟨a, c₁, hrun, hrun'⟩, hb, hwords₂⟩

/-- `bind`, for a second parser that reads nothing. -/
theorem andThen {f : α → Parser β} (first : Reads p ws stop good)
    (second : ∀ a, good a → Reads (f a) [] stop' good') (hlink : ∀ w, stop' w → stop w) :
    Reads (p >>= f) ws stop' good' := by
  rw [← List.append_nil ws]
  exact first.bind second hlink

theorem thenPure {f : α → β} (h : Reads p ws stop good) (hgood : ∀ a, good a → good' (f a)) :
    Reads (p >>= fun a => Pure.pure (f a)) ws stop good' :=
  h.andThen (fun a ha => .pure (hgood a ha)) fun _ hw => hw

theorem mark {f : Location → Parser β} (h : ∀ start, Reads (f start) ws stop good') :
    Reads (Grammar.mark >>= f) ws stop good' := by
  intro c w rest hwords hw
  obtain ⟨b, c', hrun, hb, hwords'⟩ := h _ c w rest hwords hw
  exact ⟨b, c', bind_ok.2 ⟨_, _, mark_ok.2 ⟨rfl, rfl⟩, hrun⟩, hb, hwords'⟩

/-- A parser that looks at the cursor: it sees the words that stand there. -/
theorem get {f : Cursor → Parser β} (h : ∀ (c : Cursor) w rest, c.words = ws ++ w :: rest →
    stop w → Reads (f c) ws stop good') : Reads (MonadState.get >>= f) ws stop good' := by
  intro c w rest hwords hw
  obtain ⟨b, c', hrun, hb, hwords'⟩ := h c w rest hwords hw c w rest hwords hw
  exact ⟨b, c', bind_ok.2 ⟨_, _, get_ok.2 ⟨rfl, rfl⟩, hrun⟩, hb, hwords'⟩

/-- `get`, for a parser that only looks at the first word. -/
theorem getFirst {f : Cursor → Parser β} (h : ∀ (c : Cursor) w later, stop w →
    c.words = ws.headD w :: later → Reads (f c) ws stop good') :
    Reads (MonadState.get >>= f) ws stop good' :=
  .get fun c w rest hwords hw =>
    have ⟨later, hlater⟩ := words_headD ws w rest
    h c w later hw (hwords.trans hlater)

theorem bump {f : Lexeme → Parser β} (h : ∀ l : Lexeme, l.word = w → Reads (f l) ws stop good') :
    Reads (Grammar.bump >>= f) (w :: ws) stop good' := by
  intro c v rest hwords hv
  have hnext : c.advance.words = ws ++ v :: rest := by
    cases ws with
    | nil => exact Cursor.words_advance hwords
    | cons w' ws => exact Cursor.words_advance hwords
  obtain ⟨b, c', hrun, hb, hwords'⟩ :=
    h c.current (Cursor.word_of_words hwords) c.advance v rest hnext hv
  exact ⟨b, c', bind_ok.2 ⟨_, _, bump_ok.2 ⟨rfl, rfl⟩, hrun⟩, hb, hwords'⟩

/-- Past a word, whatever it is. -/
theorem skip (h : Reads q ws stop good) : Reads (Grammar.bump >>= fun _ => q) (w :: ws) stop good :=
  .bump fun _ _ => h

/-! ### Branches on what stands at the cursor -/

theorem look {look : Parser Bool} {found : Bool} {f : Bool → Parser β} (hlook : Sees look ws stop found)
    (h : Reads (f found) ws stop good') : Reads (look >>= f) ws stop good' := by
  intro c w rest hwords hw
  obtain ⟨b, c', hrun, hb, hwords'⟩ := h c w rest hwords hw
  exact ⟨b, c', bind_ok.2 ⟨found, c, hlook c w rest hwords hw, hrun⟩, hb, hwords'⟩

/-- Whatever is seen. -/
theorem lookAny {op : String} {f : Bool → Parser β} (h : ∀ found, Reads (f found) ws stop good') :
    Reads (Grammar.atOp op >>= f) ws stop good' := by
  intro c w rest hwords hw
  obtain ⟨b, c', hrun, hb, hwords'⟩ := h (c.atOp op) c w rest hwords hw
  exact ⟨b, c', bind_ok.2 ⟨_, c, atOp_ok.2 ⟨rfl, rfl⟩, hrun⟩, hb, hwords'⟩

theorem ifTrue {look : Parser Bool} (hlook : Sees look ws stop true) (h : Reads p ws stop good) :
    Reads (look >>= fun found => if found = true then p else q) ws stop good :=
  .look hlook h

theorem ifFalse {look : Parser Bool} (hlook : Sees look ws stop false) (h : Reads q ws stop good) :
    Reads (look >>= fun found => if found = true then p else q) ws stop good :=
  .look hlook h

theorem unlessTrue {look : Parser Bool} (hlook : Sees look ws stop true) (h : Reads q ws stop good) :
    Reads (look >>= fun found => if (!found) = true then p else q) ws stop good :=
  .look hlook h

theorem unlessFalse {look : Parser Bool} (hlook : Sees look ws stop false)
    (h : Reads p ws stop good) :
    Reads (look >>= fun found => if (!found) = true then p else q) ws stop good :=
  .look hlook h

/-! ### Words that are insisted on -/

theorem words_tail {c : Cursor} {v : Word} {rest : List Word}
    (h : c.words = (w :: ws) ++ v :: rest) : c.advance.words = ws ++ v :: rest := by
  cases ws with
  | nil => exact Cursor.words_advance h
  | cons w' ws => exact Cursor.words_advance h

theorem expectOp {op : String} (h : Reads p ws stop good) :
    Reads (Grammar.expectOp op >>= fun _ => p) ((.op, op) :: ws) stop good := by
  intro c w rest hwords hw
  obtain ⟨a, c', hrun, ha, hwords'⟩ := h c.advance w rest (words_tail hwords) hw
  have hat : c.atOp op = true := by rw [Cursor.atOp_of_words hwords, decide_eq_true_eq]
  exact ⟨a, c', bind_ok.2 ⟨(), _, expectOp_ok.2 ⟨hat, rfl⟩, hrun⟩, ha, hwords'⟩

theorem expectKeyword {keyword : String} (h : Reads p ws stop good) :
    Reads (Grammar.expectKeyword keyword >>= fun _ => p) ((.name, keyword) :: ws) stop good := by
  intro c w rest hwords hw
  obtain ⟨a, c', hrun, ha, hwords'⟩ := h c.advance w rest (words_tail hwords) hw
  have hat : c.atKeyword keyword = true := by
    rw [Cursor.atKeyword_of_words hwords, decide_eq_true_eq]
  exact ⟨a, c', bind_ok.2 ⟨(), _, expectKeyword_ok.2 ⟨hat, rfl⟩, hrun⟩, ha, hwords'⟩

theorem expectKind {kind : TokenKind} {text : String} {fault : Found → SyntaxFault}
    (h : Reads p ws stop good) :
    Reads (Grammar.expectKind kind fault >>= fun _ => p) ((kind, text) :: ws) stop good := by
  intro c w rest hwords hw
  obtain ⟨a, c', hrun, ha, hwords'⟩ := h c.advance w rest (words_tail hwords) hw
  have hat : c.atKind kind = true := by rw [Cursor.atKind_of_words hwords, decide_eq_true_eq]
  exact ⟨a, c', bind_ok.2 ⟨(), _, expectKind_ok.2 ⟨hat, rfl⟩, hrun⟩, ha, hwords'⟩

theorem expectIdentifier {name : String} {f : String → Parser β} (hname : isKeyword name = false)
    (h : Reads (f name) ws stop good') :
    Reads (Grammar.expectIdentifier >>= f) ((.name, name) :: ws) stop good' := by
  intro c w rest hwords hw
  obtain ⟨a, c', hrun, ha, hwords'⟩ := h c.advance w rest (words_tail hwords) hw
  have hkind : c.current.kind = .name := Cursor.kind_of_words hwords
  have htext : c.current.text = name := Cursor.text_of_words hwords
  refine ⟨a, c', bind_ok.2 ⟨name, _, expectIdentifier_ok.2 ⟨⟨hkind, ?_⟩, rfl, htext⟩, hrun⟩, ha,
    hwords'⟩
  rw [htext, hname]

/-! ### Nodes and loops -/

theorem close {kind : Kind Node} {start : Location} {good : Node → Prop}
    (h : ∀ span, good ⟨kind, span⟩) : Reads (Grammar.close kind start) [] stop good :=
  fun c _ _ hwords _ => ⟨_, c, close_ok.2 ⟨rfl, rfl⟩, h _, hwords⟩

theorem closeFull {keep : Retention} {kind : Kind Node} {start : Location} {good : Node → Prop}
    (h : ∀ span, good ⟨kind, span⟩) : Reads (Grammar.closeFull keep kind start) [] stop good := by
  cases keep with
  | native => exact .pure (h none)
  | full => exact .close h

/-- A loop gets fuel for every word it reads, and for the one that ends it. -/
theorem bounded {loop : Nat → Parser α}
    (h : ∀ fuel, ws.length < fuel → Reads (loop fuel) ws stop good) :
    Reads (Grammar.bounded loop) ws stop good := by
  intro c w rest hwords hw
  have hfuel : ws.length < c.remaining := by
    rw [Cursor.remaining_of_words hwords]
    simp
  obtain ⟨a, c', hrun, ha, hwords'⟩ := h c.remaining hfuel c w rest hwords hw
  exact ⟨a, c', bounded_ok.2 hrun, ha, hwords'⟩

end Reads

/-! ### What is seen -/

section Sees

variable {ws : List Word} {stop : Word → Prop}

theorem sees_op {op : String} (h : ∀ w, stop w → ws.headD w = (.op, op)) :
    Sees (atOp op) ws stop true := by
  intro c w rest hwords hw
  obtain ⟨later, hlater⟩ := Reads.words_headD ws w rest
  rw [atOp_ok, Cursor.atOp_of_words (hwords.trans hlater), decide_eq_true (h w hw)]
  exact ⟨rfl, rfl⟩

theorem sees_notOp {op : String} (hne : ∀ w, stop w → ws.headD w ≠ (.op, op)) :
    Sees (atOp op) ws stop false := by
  intro c w rest hwords hw
  obtain ⟨later, hlater⟩ := Reads.words_headD ws w rest
  rw [atOp_ok, Cursor.atOp_of_words (hwords.trans hlater), decide_eq_false (hne w hw)]
  exact ⟨rfl, rfl⟩

theorem sees_keyword {keyword : String} (h : ∀ w, stop w → ws.headD w = (.name, keyword)) :
    Sees (atKeyword keyword) ws stop true := by
  intro c w rest hwords hw
  obtain ⟨later, hlater⟩ := Reads.words_headD ws w rest
  rw [atKeyword_ok, Cursor.atKeyword_of_words (hwords.trans hlater), decide_eq_true (h w hw)]
  exact ⟨rfl, rfl⟩

theorem sees_notKeyword {keyword : String} (hne : ∀ w, stop w → ws.headD w ≠ (.name, keyword)) :
    Sees (atKeyword keyword) ws stop false := by
  intro c w rest hwords hw
  obtain ⟨later, hlater⟩ := Reads.words_headD ws w rest
  rw [atKeyword_ok, Cursor.atKeyword_of_words (hwords.trans hlater), decide_eq_false (hne w hw)]
  exact ⟨rfl, rfl⟩

theorem sees_kind {kind : TokenKind} (h : ∀ w, stop w → (ws.headD w).1 = kind) :
    Sees (atKind kind) ws stop true := by
  intro c w rest hwords hw
  obtain ⟨later, hlater⟩ := Reads.words_headD ws w rest
  rw [atKind_ok, Cursor.atKind_of_words (hwords.trans hlater), decide_eq_true (h w hw)]
  exact ⟨rfl, rfl⟩

theorem sees_notKind {kind : TokenKind} (hne : ∀ w, stop w → (ws.headD w).1 ≠ kind) :
    Sees (atKind kind) ws stop false := by
  intro c w rest hwords hw
  obtain ⟨later, hlater⟩ := Reads.words_headD ws w rest
  rw [atKind_ok, Cursor.atKind_of_words (hwords.trans hlater), decide_eq_false (hne w hw)]
  exact ⟨rfl, rfl⟩

end Sees

/-- There is a first word, and it is in `P`. -/
def First (P : Word → Prop) (ws : List Word) : Prop :=
  ∃ w ∈ ws.head?, P w

namespace First

variable {P Q : Word → Prop} {ws : List Word}

theorem cons {w : Word} (h : P w) : First P (w :: ws) :=
  ⟨w, rfl, h⟩

theorem imp (h : First P ws) (hPQ : ∀ w, P w → Q w) : First Q ws :=
  have ⟨w, hw, hP⟩ := h
  ⟨w, hw, hPQ w hP⟩

theorem append (h : First P ws) (ws' : List Word) : First P (ws ++ ws') := by
  obtain ⟨w, hw, hP⟩ := h
  refine ⟨w, ?_, hP⟩
  rw [List.head?_append, hw]
  rfl

theorem headD (h : First P ws) (w : Word) : P (ws.headD w) := by
  obtain ⟨v, hv, hP⟩ := h
  rw [List.headD_eq_head?_getD, hv]
  exact hP

end First

/-! ### Lists with commas -/

/-- Words of items that each follow a comma, with a comma at the end or not. -/
def commaed (items : List (List Word)) (trailing : Bool) : List Word :=
  items.flatMap ((.op, ",") :: ·) ++ if trailing then [(.op, ",")] else []

/-- Words of items with commas between them; a comma at the end only follows an item. -/
def separated : List (List Word) → Bool → List Word
  | [], _ => []
  | ws :: rest, trailing => ws ++ commaed rest trailing

/-- Either nothing follows an item, or a comma and then the other items. -/
theorem commaed_cases (items : List (List Word)) (trailing : Bool) :
    items = [] ∧ commaed items trailing = [] ∨
      commaed items trailing = (.op, ",") :: separated items trailing := by
  cases items with
  | nil => cases trailing <;> simp [commaed, separated]
  | cons ws rest => simp [commaed, separated]

theorem commaed_of_trailing {items : List (List Word)} {trailing : Bool}
    (h : items = [] → trailing = true) :
    commaed items trailing = (.op, ",") :: separated items trailing := by
  rcases commaed_cases items trailing with ⟨hnil, hcommas⟩ | hcommas
  · rw [h hnil, hnil] at hcommas
    cases hcommas
  · exact hcommas

/-- The word before which a list with commas ends. -/
def Closer (closer : String) (w : Word) : Prop :=
  w = (.op, closer)

/-- The words before which an item of the list ends. -/
def Between (closer : String) (w : Word) : Prop :=
  w = (.op, ",") ∨ w = (.op, closer)

theorem headD_commaed {closer : String} {w : Word} (items : List (List Word)) (trailing : Bool)
    (hw : Closer closer w) : Between closer ((commaed items trailing).headD w) := by
  rcases commaed_cases items trailing with ⟨_, h⟩ | h <;> rw [h]
  · exact .inr hw
  · exact .inl rfl

theorem headD_commaed_closer (items : List (List Word)) (trailing : Bool) (closer : String)
    (w : Word) : Between closer ((commaed items trailing ++ [(TokenKind.op, closer)]).headD w) := by
  have hfirst : Between closer ((commaed items trailing).headD (.op, closer)) :=
    headD_commaed items trailing rfl
  cases hwords : commaed items trailing <;> simpa [hwords] using hfirst

/-- An item is read before a comma or the end of the list, where no item begins. -/
structure ReadsItem (closer : String) (item : Parser α) (ws : List Word) (good : α → Prop) :
    Prop where
  reads : Reads item ws (Between closer) good
  starts : First (· ≠ (.op, closer)) ws

section Lists

variable {γ : Type} {closer : String} {item : Parser α} {words : γ → List Word}
  {good : γ → α → Prop} (hcloser : closer ≠ ",")

include hcloser

theorem Closer.ne_comma {w : Word} (h : Closer closer w) : w ≠ (.op, ",") := by
  rintro rfl
  exact hcloser (Prod.mk.inj h).2.symm

theorem reads_itemsUntil (trailing : Bool) {xs : List γ}
    (h : ∀ x ∈ xs, ReadsItem closer item (words x) (good x)) {fuel : Nat} (hfuel : xs.length < fuel) :
    Reads (itemsUntil closer item fuel) (separated (xs.map words) trailing) (Closer closer)
      (List.Forall₂ good xs) := by
  induction xs generalizing fuel with
  | nil =>
      obtain ⟨fuel, rfl⟩ := exists_fuel hfuel
      exact .ifTrue (sees_op fun _ hw => hw) (.pure .nil)
  | cons x xs ih =>
      obtain ⟨fuel, rfl⟩ := exists_fuel hfuel
      obtain ⟨hread, hstart⟩ := h x List.mem_cons_self
      refine .ifFalse (sees_notOp fun w _ => (hstart.append _).headD w)
        (hread.bind (fun a ha => ?_) fun w hw => headD_commaed _ _ hw)
      rcases commaed_cases (xs.map words) trailing with ⟨hnil, hcommas⟩ | hcommas <;> rw [hcommas]
      · rw [List.map_eq_nil_iff.1 hnil]
        exact .unlessFalse (sees_notOp fun w hw => hw.ne_comma hcloser) (.pure (.cons ha .nil))
      · have hrest := ih (List.forall_mem_cons.1 h).2 (Nat.lt_of_succ_lt_succ hfuel)
        exact .unlessTrue (sees_op fun _ _ => rfl) (.skip (hrest.thenPure fun _ has => .cons ha has))

theorem reads_commaTail (trailing : Bool) {xs : List γ}
    (h : ∀ x ∈ xs, ReadsItem closer item (words x) (good x)) {fuel : Nat} (hfuel : xs.length < fuel) :
    Reads (commaTail (·.atOp closer) item fuel) (commaed (xs.map words) trailing) (Closer closer)
      (List.Forall₂ good xs) := by
  induction xs generalizing fuel with
  | nil =>
      obtain ⟨fuel, rfl⟩ := exists_fuel hfuel
      cases trailing with
      | false =>
          exact .unlessFalse (sees_notOp fun w hw => hw.ne_comma hcloser) (.pure .nil)
      | true =>
          refine .unlessTrue (sees_op fun _ _ => rfl) (.skip (.getFirst fun c w later hw hwords => ?_))
          rw [if_pos ((Cursor.atOp_of_words hwords closer).trans (decide_eq_true hw))]
          exact .pure .nil
  | cons x xs ih =>
      obtain ⟨fuel, rfl⟩ := exists_fuel hfuel
      obtain ⟨hread, hstart⟩ := h x List.mem_cons_self
      have hrest := ih (List.forall_mem_cons.1 h).2 (Nat.lt_of_succ_lt_succ hfuel)
      have hcommas : commaed ((x :: xs).map words) trailing =
          (.op, ",") :: (words x ++ commaed (xs.map words) trailing) := by simp [commaed]
      rw [hcommas]
      refine .unlessTrue (sees_op fun _ _ => rfl) (.skip (.getFirst fun c w later hw hwords => ?_))
      have hat : c.atOp closer = false :=
        (Cursor.atOp_of_words hwords closer).trans (decide_eq_false ((hstart.append _).headD w))
      rw [if_neg (Bool.not_eq_true _ ▸ hat)]
      exact hread.bind (fun a ha => hrest.thenPure fun _ has => .cons ha has) fun w hw =>
        headD_commaed _ _ hw

omit hcloser

/-- Items with commas between them, each of which changes a state. -/
def itemFold (closer : String) (step : σ → Parser σ) : Nat → σ → Parser σ
  | 0, s => return s
  | n + 1, s => do
      if ← atOp closer then return s
      let s ← step s
      if !(← atOp ",") then return s
      let _ ← bump
      itemFold closer step n s

/-- Items that lead from a state in one class to a state in another. -/
inductive Leads (closer : String) (step : σ → Parser σ) :
    (σ → Prop) → List (List Word) → (σ → Prop) → Prop
  | nil {good : σ → Prop} : Leads closer step good [] good
  | cons {good good' good'' : σ → Prop} {ws : List Word} {items : List (List Word)}
      (hitem : ∀ s, good s → ReadsItem closer (step s) ws good')
      (hitems : Leads closer step good' items good'') : Leads closer step good (ws :: items) good''

theorem Leads.append {step : σ → Parser σ} {good good' good'' : σ → Prop}
    {items items' : List (List Word)} (h : Leads closer step good items good')
    (h' : Leads closer step good' items' good'') : Leads closer step good (items ++ items') good'' := by
  induction h with
  | nil => exact h'
  | cons hitem _ ih => exact .cons hitem (ih h')

/-- Items that are all read in the same way; `good done` are the states after the items `done`. -/
theorem Leads.each {step : σ → Parser σ} {xs : List γ} (good : List γ → σ → Prop)
    (h : ∀ done, ∀ x ∈ xs, ∀ s, good done s →
      ReadsItem closer (step s) (words x) (good (done ++ [x]))) :
    Leads closer step (good []) (xs.map words) (good xs) := by
  have hsplit : ∀ done todo, done ++ todo = xs →
      Leads closer step (good done) (todo.map words) (good xs) := by
    intro done todo hall
    induction todo generalizing done with
    | nil =>
        rw [← hall, List.append_nil]
        exact .nil
    | cons x todo ih =>
        exact .cons (h done x (hall ▸ by simp)) (ih (done ++ [x]) (by simpa using hall))
  exact hsplit [] xs rfl

theorem reads_itemFold (hcloser : closer ≠ ",") (trailing : Bool) {step : σ → Parser σ}
    {items : List (List Word)} {good good' : σ → Prop} (h : Leads closer step good items good')
    {fuel : Nat} (hfuel : items.length < fuel) {s : σ} (hs : good s) :
    Reads (itemFold closer step fuel s) (separated items trailing) (Closer closer) good' := by
  induction h generalizing fuel s with
  | nil =>
      obtain ⟨fuel, rfl⟩ := exists_fuel hfuel
      exact .ifTrue (sees_op fun _ hw => hw) (.pure hs)
  | @cons _ _ _ ws items hitem hitems ih =>
      obtain ⟨fuel, rfl⟩ := exists_fuel hfuel
      obtain ⟨hread, hstart⟩ := hitem s hs
      refine .ifFalse (sees_notOp fun w _ => (hstart.append _).headD w)
        (hread.bind (fun s hs => ?_) fun w hw => headD_commaed _ _ hw)
      rcases commaed_cases items trailing with ⟨rfl, hcommas⟩ | hcommas <;> rw [hcommas]
      · cases hitems
        exact .unlessFalse (sees_notOp fun w hw => hw.ne_comma hcloser) (.pure hs)
      · exact .unlessTrue (sees_op fun _ _ => rfl) (.skip (ih (Nat.lt_of_succ_lt_succ hfuel) hs))

end Lists

end TriviaTree.Grammar
