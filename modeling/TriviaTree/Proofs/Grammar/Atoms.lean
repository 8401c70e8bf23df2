import Mathlib
import TriviaTree.Proofs.Grammar.Ladder
import TriviaTree.Proofs.Text.Literal

/-!
Atoms, and what follows them.

One lemma for each kind of atom says which words it is read from, given what its parts are read
from; another one for each of calls, subscripts and attributes. Entries of lists are read before a
comma or the closing bracket, and a comma may stand at the end of each list.
-/

set_option autoImplicit false

namespace TriviaTree.Grammar

variable {keep : Retention} {self : Self} {ws : List Word} {stop : Word → Prop}
  {good : Node → Prop}

/-- The words that an expression may stand before. -/
theorem stops_of_between {closer : String} (hcloser : Stops .test (.op, closer)) {w : Word}
    (hw : Between closer w) : Stops .test w := by
  rcases hw with rfl | rfl
  · decide
  · exact hcloser

/-- A chain of calls, subscripts and attributes is entered by an atom. -/
theorem enters_atom (h : Reads (atom self) ws (fun w => w.binding ≤ 15) good) :
    Enters keep self .atom ws good := by
  intro c w rest hwords hw
  obtain ⟨a, c', hrun, ha, hwords'⟩ := h c w rest hwords hw
  refine ⟨c.current.span.start, c'.remaining, a, c', ?_, ha, hwords', ?_⟩
  · show primary keep self c = trailers keep self _ _ a c'
    rw [primary, bind_of_ok (mark_ok.2 ⟨rfl, rfl⟩), bind_of_ok hrun]
    exact bind_of_ok (get_ok.2 ⟨rfl, rfl⟩)
  · rw [Cursor.remaining_of_words hwords']
    exact Nat.lt_succ_self _

/-! ### Names and literals -/

theorem reads_name {id : String} (hid : isKeyword id = false) (hgood : ∀ span, good ⟨.name id, span⟩) :
    Reads (atom self) [(.name, id)] stop good := by
  have hconstant : keywordConstant? id = none := by
    unfold keywordConstant?
    split
    case h_4 => rfl
    all_goals exact absurd hid (by decide)
  refine .mark fun start => .getFirst fun c w later _ hwords => ?_
  have hkind : c.current.kind = .name := Cursor.kind_of_words hwords
  have htext : c.current.text = id := Cursor.text_of_words hwords
  simp only [hkind, htext, hconstant, hid]
  exact .skip (.close hgood)

/-- The constant that a word by itself stands for. -/
def literal? : Word → Option Constant
  | (.name, text) => keywordConstant? text
  | (.int, text) => some (.int text)
  | (.float, text) => some (.float text)
  | _ => none

theorem reads_literal {w : Word} {value : Constant} (hvalue : literal? w = some value)
    (hgood : ∀ span, good ⟨.constant value, span⟩) : Reads (atom self) [w] stop good := by
  obtain ⟨kind, text⟩ := w
  refine .mark fun start => .getFirst fun c w later _ hwords => ?_
  have hkind : c.current.kind = kind := Cursor.kind_of_words hwords
  have htext : c.current.text = text := Cursor.text_of_words hwords
  cases kind <;> simp only [literal?, reduceCtorEq, Option.some.injEq] at hvalue
  case name =>
    simp only [hkind, htext, hvalue]
    exact .skip (.close hgood)
  all_goals
    simp only [hkind, htext, hvalue]
    exact .skip (.close hgood)

theorem reads_stringTail (value : String) {fuel : Nat} (hfuel : 1 < fuel) :
    Reads (stringTail fuel) [(.str, Text.quoteString value)] (fun w => w.binding ≤ 15)
      (· = [value]) := by
  have hstr : ∀ w : Word, w.binding ≤ 15 → w.1 ≠ .str := by
    rintro ⟨kind, text⟩ hw rfl
    exact absurd hw (by simp [Word.binding])
  obtain ⟨fuel, rfl⟩ := Nat.exists_eq_add_of_le' hfuel
  refine .ifTrue (sees_kind fun _ _ => rfl) (.bump fun l hl => ?_)
  have hnone : Reads (stringTail (fuel + 1)) [] (fun w => w.binding ≤ 15) (· = []) :=
    .ifFalse (sees_notKind hstr) (.pure rfl)
  refine hnone.thenPure fun as has => ?_
  have htext : l.text = Text.quoteString value := congrArg Prod.snd hl
  rw [has, htext, Text.decodeString_quoteString]

theorem reads_str {value : String} (hgood : ∀ span, good ⟨.constant (.str value), span⟩) :
    Reads (atom self) [(.str, Text.quoteString value)] (fun w => w.binding ≤ 15) good := by
  refine .mark fun start => .getFirst fun c w later _ hwords => ?_
  have hkind : c.current.kind = .str := Cursor.kind_of_words hwords
  simp only [hkind]
  have htail := Reads.bounded fun fuel hfuel => reads_stringTail value hfuel
  refine htail.andThen (fun parts hparts => .close fun span => ?_) fun _ hw => hw
  have hjoin : String.join parts = value := by simp [hparts, String.join]
  rw [hjoin]
  exact hgood span

/-! ### Brackets -/

section Brackets

theorem reads_parenthesized (h : Reads (parenthesized self) ((.op, "(") :: ws) stop good) :
    Reads (atom self) ((.op, "(") :: ws) stop good := by
  refine .mark fun start => .getFirst fun c w later _ hwords => ?_
  have hkind : c.current.kind = .op := Cursor.kind_of_words hwords
  have htext : c.current.text = "(" := Cursor.text_of_words hwords
  simp only [hkind, htext, if_pos]
  exact h

theorem reads_braced (h : Reads (braced self) ((.op, "\x7b") :: ws) stop good) :
    Reads (atom self) ((.op, "\x7b") :: ws) stop good := by
  refine .mark fun start => .getFirst fun c w later _ hwords => ?_
  have hkind : c.current.kind = .op := Cursor.kind_of_words hwords
  have htext : c.current.text = "\x7b" := Cursor.text_of_words hwords
  simp only [hkind, htext]
  exact h

/-- An expression begins with no other operator than a bracket or a sign. -/
theorem ne_op_of_begins {p : Precedence} {w : Word} (h : w.Begins p) {symbol : String}
    (hsymbol : symbol ∉ ["(", "[", "\x7b", "+", "-", "~"]) : w ≠ (.op, symbol) := by
  rintro rfl
  rcases h with h | ⟨h, _⟩ <;> simp_all

theorem reads_starredOrTest (h : Reads (self .test) ws (Stops .test) good)
    (hbegins : First (·.Begins .test) ws) : Reads (starredOrTest self) ws (Stops .test) good :=
  .ifFalse (sees_notOp fun w _ => ne_op_of_begins (hbegins.headD w) (by decide)) h

theorem reads_starred {good' : Node → Prop} (h : Reads (self .bitwise) ws (Stops .bitOr) good)
    (hgood : ∀ a span, good a → good' ⟨.starred a, span⟩) :
    Reads (starred self) ((.op, "*") :: ws) (Stops .bitOr) good' :=
  .mark fun _ => .expectOp (h.andThen (fun a ha => .close fun span => hgood a span ha) fun _ hw => hw)

/-- An expression between parentheses stays what it is. -/
theorem reads_enclosed (h : Reads (self .test) ws (Stops .test) good)
    (hbegins : First (·.Begins .test) ws) :
    Reads (atom self) ((.op, "(") :: (ws ++ [(.op, ")")])) stop good := by
  have hcloser : Stops .test (.op, ")") := by decide
  refine reads_parenthesized (.mark fun _ => .expectOp (.ifFalse (sees_notOp fun w _ =>
    ne_op_of_begins ((hbegins.append _).headD w) (by decide)) ?_))
  refine (reads_starredOrTest h hbegins).bind (fun a ha => ?_) fun _ _ => hcloser
  exact .ifTrue (sees_op fun _ _ => rfl) (.skip (.pure ha))

variable {γ : Type} {words : γ → List Word} {goods : γ → Node → Prop} {xs : List γ}
  {closer : String}

theorem length_le_commaed (items : List (List Word)) (trailing : Bool) :
    items.length ≤ (commaed items trailing).length := by
  have hitems : items.length ≤ (items.flatMap ((TokenKind.op, ",") :: ·)).length := by
    rw [List.length_flatMap, ← List.length_map]
    exact List.length_le_sum_of_one_le _ (by simp)
  rw [commaed, List.length_append]
  omega

theorem length_le_separated {items : List (List Word)} (h : ∀ item ∈ items, item ≠ [])
    (trailing : Bool) : items.length ≤ (separated items trailing).length := by
  cases items with
  | nil => exact Nat.zero_le _
  | cons item rest =>
      have hitem := List.length_pos_iff.2 (h item List.mem_cons_self)
      have hrest := length_le_commaed rest trailing
      simp only [separated, List.length_append, List.length_cons]
      omega

theorem First.ne_nil {P : Word → Prop} (h : First P ws) : ws ≠ [] := by
  rintro rfl
  obtain ⟨w, hw, _⟩ := h
  cases hw

theorem reads_displayItems (h : ∀ x ∈ xs, ReadsItem closer (starredOrTest self) (words x) (goods x))
    (hcloser : closer ≠ ",") (trailing : Bool) :
    Reads (displayItems self closer) (separated (xs.map words) trailing ++ [(.op, closer)]) stop
      (List.Forall₂ goods xs) := by
  have hlength : xs.length ≤ (separated (xs.map words) trailing).length := by
    rw [← List.length_map]
    refine length_le_separated (fun item hitem => ?_) trailing
    obtain ⟨x, hx, rfl⟩ := List.mem_map.1 hitem
    exact (h x hx).starts.ne_nil
  have hitems := Reads.bounded fun fuel hfuel =>
    reads_itemsUntil hcloser trailing h (hlength.trans_lt hfuel)
  exact hitems.bind (fun as has => .expectOp (.pure has)) fun _ _ => rfl

theorem reads_list (h : ∀ x ∈ xs, ReadsItem "]" (starredOrTest self) (words x) (goods x))
    (trailing : Bool) (hgood : ∀ as span, List.Forall₂ goods xs as → good ⟨.list as, span⟩) :
    Reads (atom self) ((.op, "[") :: (separated (xs.map words) trailing ++ [(.op, "]")])) stop
      good := by
  refine .mark fun start => .getFirst fun c w later _ hwords => ?_
  have hkind : c.current.kind = .op := Cursor.kind_of_words hwords
  have htext : c.current.text = "[" := Cursor.text_of_words hwords
  simp only [hkind, htext]
  exact .skip ((reads_displayItems h (by decide) trailing).andThen
    (fun as has => .close fun span => hgood as span has) fun _ hw => hw)

/-- A tuple; one entry alone has a comma after it. -/
theorem reads_tuple (h : ∀ x ∈ xs, ReadsItem ")" (starredOrTest self) (words x) (goods x))
    {trailing : Bool} (hone : xs.length = 1 → trailing = true)
    (hgood : ∀ as span, List.Forall₂ goods xs as → good ⟨.tuple as, span⟩) :
    Reads (atom self) ((.op, "(") :: (separated (xs.map words) trailing ++ [(.op, ")")])) stop
      good := by
  refine reads_parenthesized (.mark fun _ => .expectOp ?_)
  cases xs with
  | nil =>
      exact .ifTrue (sees_op fun _ _ => rfl) (.skip (.close fun span => hgood [] span .nil))
  | cons x xs =>
      obtain ⟨⟨hread, hstart⟩, hrest⟩ := List.forall_mem_cons.1 h
      rw [List.map_cons, separated, List.append_assoc,
        commaed_of_trailing fun hnil => hone (by simp [List.map_eq_nil_iff.1 hnil])]
      refine .ifFalse (sees_notOp fun w _ => (hstart.append _).headD w)
        (hread.bind (fun a ha => ?_) fun _ _ => .inl rfl)
      refine .ifFalse (sees_notOp fun _ _ => by simp) (.expectOp ?_)
      exact (reads_displayItems hrest (by decide) trailing).andThen
        (fun as has => .close fun span => hgood _ span (.cons ha has)) fun _ hw => hw

/-- A set has at least one entry. -/
theorem reads_set (hne : xs ≠ [])
    (h : ∀ x ∈ xs, ReadsItem "\x7d" (starredOrTest self) (words x) (goods x)) (trailing : Bool)
    (hgood : ∀ as span, List.Forall₂ goods xs as → good ⟨.set as, span⟩) :
    Reads (atom self)
      ((.op, "\x7b") :: (separated (xs.map words) trailing ++ [(.op, "\x7d")])) stop good := by
  obtain ⟨x, xs, rfl⟩ := List.exists_cons_of_ne_nil hne
  obtain ⟨⟨hread, hstart⟩, hrest⟩ := List.forall_mem_cons.1 h
  refine reads_braced (.mark fun _ => .expectOp ?_)
  rw [List.map_cons, separated, List.append_assoc]
  refine .ifFalse (sees_notOp fun w _ => (hstart.append _).headD w) (hread.bind (fun a ha => ?_)
    fun w _ => headD_commaed_closer _ _ _ w)
  rcases commaed_cases (xs.map words) trailing with ⟨hnil, hcommas⟩ | hcommas <;> rw [hcommas]
  · rw [List.map_eq_nil_iff.1 hnil] at hgood
    exact .ifFalse (sees_notOp fun _ _ => by simp) (.ifFalse (sees_notOp fun _ _ => by simp)
      (.expectOp (.close fun span => hgood _ span (.cons ha .nil))))
  · refine .ifFalse (sees_notOp fun _ _ => by simp) (.ifTrue (sees_op fun _ _ => rfl) (.skip ?_))
    exact (reads_displayItems hrest (by decide) trailing).andThen
      (fun as has => .close fun span => hgood _ span (.cons ha has)) fun _ hw => hw

/-- A key and its value. -/
theorem readsItem_dictPair {ws' : List Word} {good' : Node → Prop}
    (key : Reads (self .test) ws (Stops .test) good) (hbegins : First (·.Begins .test) ws)
    (value : Reads (self .test) ws' (Stops .test) good') :
    ReadsItem "\x7d" (dictPair self) (ws ++ (.op, ":") :: ws')
      fun pair => good pair.1 ∧ good' pair.2 := by
  have hcolon : Stops .test (.op, ":") := by decide
  refine ⟨key.bind (fun a ha => .expectOp (value.andThen (fun b hb => .pure ⟨ha, hb⟩)
    fun _ hw => stops_of_between (by decide) hw)) fun _ _ => hcolon, ?_⟩
  exact (hbegins.imp fun _ hw => ne_op_of_begins hw (by decide)).append _

/-- A dictionary: the keys and the values are kept in two lists. -/
theorem reads_dict {keyWords valueWords : γ → List Word} {goodKeys goodValues : γ → Node → Prop}
    (hkeys : ∀ x ∈ xs, Reads (self .test) (keyWords x) (Stops .test) (goodKeys x))
    (hbegins : ∀ x ∈ xs, First (·.Begins .test) (keyWords x))
    (hvalues : ∀ x ∈ xs, Reads (self .test) (valueWords x) (Stops .test) (goodValues x))
    (trailing : Bool) (hgood : ∀ ks vs span, List.Forall₂ goodKeys xs ks →
      List.Forall₂ goodValues xs vs → good ⟨.dict ks vs, span⟩) :
    Reads (atom self) ((.op, "\x7b") ::
      (separated (xs.map fun x => keyWords x ++ (.op, ":") :: valueWords x) trailing ++
        [(.op, "\x7d")])) stop good := by
  refine reads_braced (.mark fun _ => .expectOp ?_)
  cases xs with
  | nil =>
      exact .ifTrue (sees_op fun _ _ => rfl) (.skip (.close fun span => hgood [] [] span .nil .nil))
  | cons x xs =>
      have hcolon : Stops .test (.op, ":") := by decide
      have hx := hbegins x List.mem_cons_self
      have hpairs : ∀ y ∈ xs, ReadsItem "\x7d" (dictPair self)
          (keyWords y ++ (.op, ":") :: valueWords y)
          fun pair => goodKeys y pair.1 ∧ goodValues y pair.2 := fun y hy =>
        have hmem := List.mem_cons_of_mem x hy
        readsItem_dictPair (hkeys y hmem) (hbegins y hmem) (hvalues y hmem)
      have hlength : xs.length ≤ (commaed (xs.map fun x => keyWords x ++ (.op, ":") :: valueWords x)
          trailing).length := by
        have hflat := length_le_commaed (xs.map fun x => keyWords x ++ (.op, ":") :: valueWords x)
          trailing
        rwa [List.length_map] at hflat
      rw [List.map_cons, separated, List.append_assoc, List.append_assoc, List.cons_append]
      refine .ifFalse (sees_notOp fun w _ => ne_op_of_begins ((hx.append _).headD w) (by decide))
        ((reads_starredOrTest (hkeys x List.mem_cons_self) hx).bind (fun a ha => ?_) fun _ _ => hcolon)
      refine .ifTrue (sees_op fun _ _ => rfl) (.skip ((hvalues x List.mem_cons_self).bind
        (fun b hb => ?_) fun w hw => ?_))
      · have htail := Reads.bounded fun fuel hfuel =>
          reads_commaTail (by decide) trailing hpairs (hlength.trans_lt hfuel)
        refine htail.bind (fun pairs hall => .expectOp (.close fun span => ?_)) fun _ _ => rfl
        exact hgood _ _ span
          (.cons ha (List.forall₂_map_right_iff.2 (hall.imp fun _ _ hpair => hpair.1)))
          (.cons hb (List.forall₂_map_right_iff.2 (hall.imp fun _ _ hpair => hpair.2)))
      · have hcloser : Stops .test (.op, "\x7d") := by decide
        exact stops_of_between hcloser (headD_commaed_closer _ _ _ w)

end Brackets

/-! ### Calls -/

section Calls

/-- Read one argument of a call. -/
def callItem (keep : Retention) (self : Self) (items : List Node × List Node) :
    Parser (List Node × List Node) := do
  let start ← mark
  let c ← get
  if c.atOp "*" then
    pure (items.1 ++ [← starred self], items.2)
  else if c.atOp "**" then
    let _ ← bump
    let value ← self .test
    pure (items.1, items.2 ++ [← closeFull keep (.keyword none value) start])
  else if c.atKind .name && c.next.isOp "=" then
    let name ← expectIdentifier
    let _ ← bump
    let value ← self .test
    pure (items.1, items.2 ++ [← closeFull keep (.keyword (some name) value) start])
  else if items.2.isEmpty then
    pure (items.1 ++ [← self .test], items.2)
  else fail .positionalAfterKeyword

theorem ite_bind {α β : Type} {P : Prop} [Decidable P] (p q : Parser α) (f : α → Parser β) :
    (if P then p else q) >>= f = if P then p >>= f else q >>= f := by
  split <;> rfl

theorem callItems_eq (n : Nat) (args keywords : List Node) :
    callItems keep self n args keywords = itemFold ")" (callItem keep self) n (args, keywords) := by
  induction n generalizing args keywords with
  | zero => rfl
  | succ n ih =>
      simp only [callItems, itemFold, callItem, ih, bind_assoc, ite_bind]

/-- The words do not begin like an argument passed by name. -/
def Unnamed (ws : List Word) : Prop :=
  ∀ id later, ws ≠ (.name, id) :: (.op, "=") :: later

theorem Unnamed.append {ws' : List Word} (h : Unnamed ws) (hne : ws ≠ [])
    (hfirst : ws'.head? ≠ some (.op, "=")) : Unnamed (ws ++ ws') := by
  intro id later heq
  match ws, hne with
  | [v], _ =>
      rw [List.singleton_append, List.cons.injEq] at heq
      exact hfirst (by rw [heq.2]; rfl)
  | v :: v' :: ws, _ =>
      obtain ⟨rfl, htail⟩ := List.cons.inj heq
      obtain ⟨rfl, _⟩ := List.cons.inj htail
      exact h id ws rfl

theorem Cursor.not_named {c : Cursor} (h : Unnamed c.words) :
    (c.atKind .name && c.next.isOp "=") = false := by
  by_contra hnamed
  obtain ⟨hname, hequals⟩ : c.current.kind = .name ∧ c.next.word = (.op, "=") := by
    simpa [Cursor.atKind, isOp_eq] using hnamed
  obtain ⟨current, ahead, lastEnd⟩ := c
  cases ahead with
  | nil =>
      have hkind : current.kind = .op := congrArg Prod.fst hequals
      exact absurd (hname.symm.trans hkind) (by decide)
  | cons lexeme ahead =>
      refine h current.text (ahead.map (·.word)) ?_
      simp only [Cursor.words, List.map_cons]
      exact congrArg₂ (· :: · :: _) (Prod.ext hname rfl) hequals

/-- An argument passed by position, when none has been passed by name. -/
theorem readsItem_positional (h : Reads (self .test) ws (Stops .test) good)
    (hbegins : First (·.Begins .test) ws) (hunnamed : Unnamed ws) (args : List Node) :
    ReadsItem ")" (callItem keep self (args, [])) ws
      fun items => ∃ a, good a ∧ items = (args ++ [a], []) := by
  refine ⟨.mark fun start => .get fun c w rest hwords hw => ?_,
    hbegins.imp fun _ hw => ne_op_of_begins hw (by decide)⟩
  obtain ⟨later, hlater⟩ := Reads.words_headD ws w rest
  have hop : ∀ symbol ∉ ["(", "[", "\x7b", "+", "-", "~"], c.atOp symbol = false := by
    intro symbol hsymbol
    rw [Cursor.atOp_of_words (hwords.trans hlater), decide_eq_false_iff_not]
    exact ne_op_of_begins (hbegins.headD w) hsymbol
  have hnamed : (c.atKind .name && c.next.isOp "=") = false := by
    refine Cursor.not_named ?_
    rw [hwords]
    exact hunnamed.append hbegins.ne_nil (by rcases hw with rfl | rfl <;> simp)
  rw [hop "*" (by decide), hop "**" (by decide), hnamed]
  exact h.andThen (fun a ha => .pure ⟨a, ha, rfl⟩) fun _ hw => stops_of_between (by decide) hw

theorem readsItem_starred {good' : Node → Prop} (h : Reads (self .bitwise) ws (Stops .bitOr) good)
    (hgood : ∀ a span, good a → good' ⟨.starred a, span⟩) (args : List Node) :
    ReadsItem ")" (callItem keep self (args, [])) ((.op, "*") :: ws)
      fun items => ∃ a, good' a ∧ items = (args ++ [a], []) := by
  refine ⟨.mark fun start => .getFirst fun c w later hw hwords => ?_, .cons (by decide)⟩
  rw [Cursor.atOp_of_words hwords]
  exact (reads_starred h hgood).andThen (fun a ha => .pure ⟨a, ha, rfl⟩) fun _ hw =>
    (stops_of_between (by decide) hw).mono (by decide)

/-- `**value`. -/
theorem readsItem_mapping {good' : Node → Prop} (h : Reads (self .test) ws (Stops .test) good)
    (hgood : ∀ a span, good a → good' ⟨.keyword none a, span⟩) (items : List Node × List Node) :
    ReadsItem ")" (callItem keep self items) ((.op, "**") :: ws)
      fun items' => ∃ a, good' a ∧ items' = (items.1, items.2 ++ [a]) := by
  refine ⟨.mark fun start => .getFirst fun c w later hw hwords => ?_, .cons (by decide)⟩
  rw [Cursor.atOp_of_words hwords, Cursor.atOp_of_words hwords]
  refine .skip (h.andThen (fun a ha => ?_) fun _ hw => stops_of_between (by decide) hw)
  exact (Reads.closeFull fun span => hgood a span ha).thenPure fun b hb => ⟨b, hb, rfl⟩

/-- `name=value`. -/
theorem readsItem_named {good' : Node → Prop} {name : String} (hname : isKeyword name = false)
    (h : Reads (self .test) ws (Stops .test) good)
    (hgood : ∀ a span, good a → good' ⟨.keyword (some name) a, span⟩)
    (items : List Node × List Node) :
    ReadsItem ")" (callItem keep self items) ((.name, name) :: (.op, "=") :: ws)
      fun items' => ∃ a, good' a ∧ items' = (items.1, items.2 ++ [a]) := by
  refine ⟨.mark fun start => .get fun c w rest hwords hw => ?_, .cons (by simp)⟩
  have hkind : c.atKind .name = true := by rw [Cursor.atKind_of_words hwords, decide_eq_true_eq]
  have hnext : c.next.isOp "=" = true := by
    rw [Cursor.isOp_eq, Cursor.next_of_words hwords, decide_eq_true_eq]
  have hop : ∀ symbol, c.atOp symbol = false := fun symbol => by
    rw [Cursor.atOp_of_words hwords, decide_eq_false_iff_not]
    simp
  rw [hop, hop, hkind, hnext]
  refine .expectIdentifier hname (.skip (h.andThen (fun a ha => ?_) fun _ hw =>
    stops_of_between (by decide) hw))
  exact (Reads.closeFull fun span => hgood a span ha).thenPure fun b hb => ⟨b, hb, rfl⟩

variable {γ δ : Type} {words : γ → List Word} {goods : γ → Node → Prop} {words' : δ → List Word}
  {goods' : δ → Node → Prop}

/-- Arguments passed by position, then arguments passed by name. -/
theorem reads_callArguments {xs : List γ} {ys : List δ}
    (hargs : ∀ x ∈ xs, ∀ args, ReadsItem ")" (callItem keep self (args, [])) (words x)
      fun items => ∃ a, goods x a ∧ items = (args ++ [a], []))
    (hkeywords : ∀ y ∈ ys, ∀ items, ReadsItem ")" (callItem keep self items) (words' y)
      fun items' => ∃ a, goods' y a ∧ items' = (items.1, items.2 ++ [a])) (trailing : Bool) :
    Reads (callArguments keep self)
      ((.op, "(") :: (separated (xs.map words ++ ys.map words') trailing ++ [(.op, ")")])) stop
      fun items => List.Forall₂ goods xs items.1 ∧ List.Forall₂ goods' ys items.2 := by
  have hpositional : Leads ")" (callItem keep self)
      (fun items => List.Forall₂ goods [] items.1 ∧ items.2 = []) (xs.map words)
      fun items => List.Forall₂ goods xs items.1 ∧ items.2 = [] := by
    refine .each (fun done (items : List Node × List Node) =>
      List.Forall₂ goods done items.1 ∧ items.2 = []) ?_
    rintro done x hx ⟨args, keywords⟩ ⟨hdone, rfl⟩
    obtain ⟨hread, hstart⟩ := hargs x hx args
    refine ⟨hread.imp ?_, hstart⟩
    rintro _ ⟨a, ha, rfl⟩
    exact ⟨List.rel_append hdone (.cons ha .nil), rfl⟩
  have hnamed : Leads ")" (callItem keep self)
      (fun items => List.Forall₂ goods xs items.1 ∧ List.Forall₂ goods' [] items.2) (ys.map words')
      fun items => List.Forall₂ goods xs items.1 ∧ List.Forall₂ goods' ys items.2 := by
    refine .each (fun done (items : List Node × List Node) =>
      List.Forall₂ goods xs items.1 ∧ List.Forall₂ goods' done items.2) ?_
    intro done y hy items hitems
    obtain ⟨hread, hstart⟩ := hkeywords y hy items
    refine ⟨hread.imp ?_, hstart⟩
    rintro _ ⟨a, ha, rfl⟩
    exact ⟨hitems.1, List.rel_append hitems.2 (.cons ha .nil)⟩
  simp only [List.forall₂_nil_left_iff] at hnamed
  have hall := hpositional.append hnamed
  have hnonempty : ∀ item ∈ xs.map words ++ ys.map words', item ≠ [] := by
    intro item hitem
    rcases List.mem_append.1 hitem with hitem | hitem
    · obtain ⟨x, hx, rfl⟩ := List.mem_map.1 hitem
      exact (hargs x hx []).starts.ne_nil
    · obtain ⟨y, hy, rfl⟩ := List.mem_map.1 hitem
      exact (hkeywords y hy ([], [])).starts.ne_nil
  have hitems : Reads (bounded fun n => callItems keep self n [] [])
      (separated (xs.map words ++ ys.map words') trailing) (Closer ")")
      fun items => List.Forall₂ goods xs items.1 ∧ List.Forall₂ goods' ys items.2 := by
    refine .bounded fun fuel hfuel => ?_
    rw [callItems_eq]
    exact reads_itemFold (by decide) trailing hall
      ((length_le_separated hnonempty trailing).trans_lt hfuel) ⟨.nil, rfl⟩
  exact .expectOp (hitems.bind (fun items hitems => .expectOp (.pure hitems)) fun _ _ => rfl)

end Calls

/-! ### What follows an atom -/

theorem atOp_run {c : Cursor} {text : String} {later : List Word}
    (hwords : c.words = (.op, text) :: later) (symbol : String) :
    atOp symbol c = .ok (decide (symbol = text), c) := by
  rw [atOp_ok, Cursor.atOp_of_words hwords]
  exact ⟨by simp [eq_comm], rfl⟩

/-- A call of what has been read. -/
theorem Enters.call {ws' : List Word} {goodItems : List Node × List Node → Prop}
    {good' : Node → Prop} (h : Enters keep self .atom ws good)
    (hitems : ∀ stop, Reads (callArguments keep self) ((.op, "(") :: ws') stop goodItems)
    (hgood : ∀ a items span, good a → goodItems items → good' ⟨.call a items.1 items.2, span⟩) :
    Enters keep self .atom (ws ++ (.op, "(") :: ws') good' := by
  refine h.turn (fun start a => do
    let items ← callArguments keep self
    close (.call a items.1 items.2) start) (by decide) (fun start fuel a c later hwords => ?_)
    fun start a ha => ?_
  · show trailers keep self start (fuel + 1) a c = _
    rw [trailers, bind_of_ok (atOp_run hwords "("), if_pos (by decide), bind_assoc]
    rfl
  · exact (hitems _).andThen (fun items hitems => .close fun span => hgood a items span ha hitems)
      fun _ hw => hw

theorem Enters.member {attr : String} {good' : Node → Prop} (h : Enters keep self .atom ws good)
    (hattr : isKeyword attr = false) (hgood : ∀ a span, good a → good' ⟨.attribute a attr, span⟩) :
    Enters keep self .atom (ws ++ [(.op, "."), (.name, attr)]) good' := by
  refine h.turn (fun start a => do
    let _ ← bump
    let attr ← expectIdentifier
    close (.attribute a attr) start) (by decide) (fun start fuel a c later hwords => ?_)
    fun start a ha => ?_
  · have hat := atOp_run hwords
    show trailers keep self start (fuel + 1) a c = _
    rw [trailers, bind_of_ok (hat "("), if_neg (by decide), bind_of_ok (hat "["), if_neg (by decide),
      bind_of_ok (hat "."), if_pos (by decide)]
    simp only [bind_assoc]
    rfl
  · exact .skip (.expectIdentifier hattr (.close fun span => hgood a span ha))

/-! ### Subscripts -/

section Subscripts

variable {γ : Type} {words : γ → List Word} {goods : γ → Node → Prop}

/-- The words before which a part of a slice ends. -/
def EndsPart (w : Word) : Prop :=
  w = (.op, ":") ∨ Between "]" w

theorem EndsPart.stops {w : Word} (h : EndsPart w) : Stops .test w := by
  rcases h with rfl | rfl | rfl <;> decide

/-- A part of a slice, which may be absent. -/
theorem reads_slicePart {part : Option γ}
    (h : ∀ x ∈ part, Reads (self .test) (words x) (Stops .test) (goods x))
    (hbegins : ∀ x ∈ part, First (·.Begins .test) (words x)) :
    Reads (slicePart self) (part.elim [] words) EndsPart (Option.Rel goods part) := by
  refine .getFirst fun c w later hw hwords => ?_
  cases part with
  | none =>
      have hat : (c.atOp ":" || c.atOp "]" || c.atOp ",") = true := by
        simp only [Cursor.atOp_of_words hwords, Option.elim_none, List.headD_nil]
        rcases hw with rfl | rfl | rfl <;> simp
      rw [hat]
      exact .pure .none
  | some x =>
      have hop : ∀ symbol ∉ ["(", "[", "\x7b", "+", "-", "~"], c.atOp symbol = false := by
        intro symbol hsymbol
        rw [Cursor.atOp_of_words hwords, decide_eq_false_iff_not]
        exact ne_op_of_begins ((hbegins x rfl).headD w) hsymbol
      rw [hop ":" (by decide), hop "]" (by decide), hop "," (by decide)]
      exact (h x rfl).andThen (fun a ha => .pure (.some ha)) fun _ hw => hw.stops

/-- What follows the first colon of a slice: the upper bound, and a colon with the step. -/
theorem reads_sliceTail {upper step : Option γ} {lower : Option Node}
    (h : ∀ x ∈ upper.toList ++ step.toList, Reads (self .test) (words x) (Stops .test) (goods x))
    (hbegins : ∀ x ∈ upper.toList ++ step.toList, First (·.Begins .test) (words x))
    (start : Location) (hgood : ∀ b d span, Option.Rel goods upper b → Option.Rel goods step d →
      good ⟨.slice lower b d, span⟩) :
    Reads (sliceTail self lower start) ((.op, ":") ::
      (upper.elim [] words ++ step.elim [] fun x => (.op, ":") :: words x)) (Between "]") good := by
  have hupper : Reads (slicePart self) (upper.elim [] words) EndsPart (Option.Rel goods upper) :=
    reads_slicePart (fun x hx => h x (by simp [Option.mem_def.1 hx]))
      fun x hx => hbegins x (by simp [Option.mem_def.1 hx])
  refine .expectOp (hupper.bind (fun b hb => ?_) fun w hw => ?_)
  · cases step with
    | none =>
        refine .ifFalse (sees_notOp fun w hw => ?_) (.close fun span => hgood b none span hb .none)
        rcases hw with rfl | rfl <;> simp
    | some x =>
        have hstep : Reads (slicePart self) ((some x).elim [] words) EndsPart
            (Option.Rel goods (some x)) :=
          reads_slicePart (fun y hy => h y (by simp [Option.mem_def.1 hy]))
            fun y hy => hbegins y (by simp [Option.mem_def.1 hy])
        exact .ifTrue (sees_op fun _ _ => rfl) (.skip (hstep.andThen
          (fun d hd => .close fun span => hgood b d span hb hd) fun _ hw => .inr hw))
  · cases step with
    | none => exact .inr hw
    | some x => exact .inl rfl

/-- An index that is no slice. -/
theorem reads_index (h : Reads (self .test) ws (Stops .test) good)
    (hbegins : First (·.Begins .test) ws) : Reads (sliceItem self) ws (Between "]") good := by
  refine .mark fun _ => .ifFalse (sees_notOp fun w _ => ne_op_of_begins (hbegins.headD w) (by decide))
    (h.andThen (fun a ha => .ifFalse (sees_notOp fun w hw => ?_) (.pure ha))
      fun _ hw => stops_of_between (by decide) hw)
  rcases hw with rfl | rfl <;> simp

theorem reads_slice {lower upper step : Option γ}
    (h : ∀ x ∈ lower.toList ++ (upper.toList ++ step.toList),
      Reads (self .test) (words x) (Stops .test) (goods x))
    (hbegins : ∀ x ∈ lower.toList ++ (upper.toList ++ step.toList), First (·.Begins .test) (words x))
    (hgood : ∀ a b d span, Option.Rel goods lower a → Option.Rel goods upper b →
      Option.Rel goods step d → good ⟨.slice a b d, span⟩) :
    Reads (sliceItem self) (lower.elim [] words ++ (.op, ":") ::
      (upper.elim [] words ++ step.elim [] fun x => (.op, ":") :: words x)) (Between "]") good := by
  have htail : ∀ (a : Option Node) start, Option.Rel goods lower a → Reads (sliceTail self a start)
      ((.op, ":") :: (upper.elim [] words ++ step.elim [] fun x => (.op, ":") :: words x))
      (Between "]") good := fun a start ha =>
    reads_sliceTail (List.forall_mem_append.1 h).2
      (List.forall_mem_append.1 hbegins).2 start
      fun b d span hb hd => hgood a b d span ha hb hd
  refine .mark fun start => ?_
  cases lower with
  | none => exact .ifTrue (sees_op fun _ _ => rfl) (htail none start .none)
  | some x =>
      have hcolon : Stops .test (.op, ":") := by decide
      have hx := hbegins x (by simp)
      refine .ifFalse (sees_notOp fun w _ => ne_op_of_begins ((hx.append _).headD w) (by decide)) ?_
      refine (h x (by simp)).bind (fun a ha => ?_) fun _ _ => hcolon
      exact .ifTrue (sees_op fun _ _ => rfl) (htail (some a) start (.some ha))

/-- One index by itself. -/
theorem reads_single (h : Reads (sliceItem self) ws (Between "]") good) :
    Reads (subscriptItems self) ws (Closer "]") good := by
  refine .mark fun _ => h.andThen (fun a ha => .unlessFalse (sees_notOp fun w hw => ?_) (.pure ha))
    fun _ hw => .inr hw
  exact hw.ne_comma (by decide)

/-- Several indices are a tuple; one alone has a comma after it. -/
theorem reads_several {xs : List γ} (hne : xs ≠ [])
    (h : ∀ x ∈ xs, ReadsItem "]" (sliceItem self) (words x) (goods x)) {trailing : Bool}
    (hone : xs.length = 1 → trailing = true)
    (hgood : ∀ as span, List.Forall₂ goods xs as → good ⟨.tuple as, span⟩) :
    Reads (subscriptItems self) (separated (xs.map words) trailing) (Closer "]") good := by
  obtain ⟨x, xs, rfl⟩ := List.exists_cons_of_ne_nil hne
  have hcommas := commaed_of_trailing fun hnil : xs.map words = [] =>
    hone (by simp [List.map_eq_nil_iff.1 hnil])
  have hlength : xs.length ≤ (commaed (xs.map words) trailing).length := by
    rw [← List.length_map]
    exact length_le_commaed _ trailing
  rw [List.map_cons, separated]
  refine .mark fun _ => (h x List.mem_cons_self).reads.bind (fun a ha => ?_) fun _ _ => by
    rw [hcommas]
    exact .inl rfl
  refine .unlessTrue (sees_op fun _ _ => by rw [hcommas]; rfl) ?_
  have hrest := Reads.bounded fun fuel hfuel => reads_commaTail (by decide) trailing
    (List.forall_mem_cons.1 h).2 (hlength.trans_lt hfuel)
  exact hrest.andThen (fun as has => .close fun span => hgood _ span (.cons ha has)) fun _ hw => hw

theorem Enters.subscript {ws' : List Word} {good' good'' : Node → Prop}
    (h : Enters keep self .atom ws good)
    (hindex : Reads (subscriptItems self) ws' (Closer "]") good')
    (hgood : ∀ a b span, good a → good' b → good'' ⟨.subscript a b, span⟩) :
    Enters keep self .atom (ws ++ (.op, "[") :: (ws' ++ [(.op, "]")])) good'' := by
  refine h.turn (fun start a => do
    let _ ← bump
    let index ← subscriptItems self
    expectOp "]"
    close (.subscript a index) start) (by decide) (fun start fuel a c later hwords => ?_)
    fun start a ha => ?_
  · have hat := atOp_run hwords
    show trailers keep self start (fuel + 1) a c = _
    rw [trailers, bind_of_ok (hat "("), if_neg (by decide), bind_of_ok (hat "["), if_pos (by decide)]
    simp only [bind_assoc]
    rfl
  · exact .skip (hindex.bind (fun b hb => .expectOp (.close fun span => hgood a b span ha hb))
      fun _ _ => rfl)

end Subscripts

end TriviaTree.Grammar
