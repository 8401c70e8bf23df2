import Mathlib
import TriviaTree.Proofs.Grammar.Atoms

/-!
Statements and blocks.

One lemma for each rule of statements says which words it is read from, given what its parts are
read from. A line ends before a line end (`EndsLine`) and the value of a statement before that or
before what may follow a value (`EndsValue`). A compound statement looks for an `elif` or `else`
after its block, so it ends before any other word (`EndsStatement`).
-/

set_option autoImplicit false

namespace TriviaTree.Grammar

variable {keep : Retention} {w : Word} {ws later : List Word} {stop : Word → Prop}
  {good : Node → Prop} {c : Cursor} {fuel : Nat} {keyword : String}

/-! ### Values -/

/-- A rule gets fuel for all the expressions it reads. -/
theorem Reads.withExpressions {α : Type} {rule : Self → Parser α} {good : α → Prop}
    (h : ∀ k, ws.length < k → Reads (rule (expression keep k)) ws stop good) :
    Reads (Grammar.withExpressions keep rule) ws stop good := by
  refine .get fun c w rest hwords _ => h _ ?_
  rw [Cursor.remaining_of_words hwords, List.length_append]
  omega

/-- The words before which the value of a statement ends. -/
def EndsValue (w : Word) : Prop :=
  Stops .test w ∧ w ≠ (.op, ",")

/-- A value that is no tuple without brackets. -/
theorem reads_commaList {item : Parser Node} (h : Reads item ws stop good) :
    Reads (commaList item) ws (fun w => stop w ∧ w ≠ (.op, ",")) good :=
  .mark fun _ => h.andThen (fun _ ha => .unlessFalse (sees_notOp fun _ hw => hw.2) (.pure ha))
    fun _ hw => hw.1

/-- A value may begin with the word. -/
def BeginsValue (w : Word) : Prop :=
  w.Begins .test ∨ w = (.op, "*")

theorem BeginsValue.ne_keyword (h : BeginsValue w) (hkeyword : isKeyword keyword = true)
    (hvalue : keyword ∉ ["True", "False", "None", "not"]) : w ≠ (.name, keyword) := by
  rintro rfl
  rcases h with (hfree | hconstant | hnot) | hstar
  · rw [hkeyword] at hfree
    cases hfree
  · refine hvalue ?_
    simp only [List.mem_cons, List.not_mem_nil, or_false] at hconstant ⊢
    tauto
  · exact hvalue (by simp [hnot.1])
  · cases hstar

theorem BeginsValue.startsExpression (h : BeginsValue w) (hwords : c.words = w :: later) :
    c.startsExpression = true := by
  have hkind := Cursor.kind_of_words hwords
  have htext := Cursor.text_of_words hwords
  obtain ⟨kind, text⟩ := w
  simp only [Cursor.startsExpression, hkind, htext]
  rcases h with h | h
  · cases kind with
    | name =>
        rcases h with hfree | hconstant | hnot
        · simp [hfree]
        · simp only [List.mem_cons, List.not_mem_nil, or_false] at hconstant
          rcases hconstant with rfl | rfl | rfl <;> decide
        · rw [hnot.1]
          decide
    | op =>
        rcases h with hbracket | hsign
        · simp only [List.mem_cons, List.not_mem_nil, or_false] at hbracket
          rcases hbracket with rfl | rfl | rfl <;> decide
        · simp only [List.mem_cons, List.not_mem_nil, or_false] at hsign
          rcases hsign.1 with rfl | rfl | rfl <;> decide
    | int | float | str => rfl
    | _ => exact h.elim
  · cases h
    decide

/-! ### Simple statements -/

/-- The word that ends a line. -/
def EndsLine (w : Word) : Prop :=
  w = (.newline, "\n")

theorem EndsLine.endsValue (h : EndsLine w) : EndsValue w := by
  obtain rfl := h
  exact ⟨by decide, by decide⟩

theorem reads_wordStatement {kind : Kind Node} (h : (keyword, kind) ∈
      [("pass", Kind.pass), ("break", .breakStmt), ("continue", .continueStmt)])
    (hgood : ∀ span, good ⟨kind, span⟩) :
    Reads (smallStatement keep) [(.name, keyword)] stop good := by
  refine .mark fun start => .getFirst fun c w later _ hwords => ?_
  have hkind : c.wordStatement? = some kind := by
    simp only [List.mem_cons, Prod.mk.injEq, List.not_mem_nil, or_false] at h
    rcases h with ⟨rfl, rfl⟩ | ⟨rfl, rfl⟩ | ⟨rfl, rfl⟩ <;>
      simp [Cursor.wordStatement?, Cursor.atKeyword_of_words hwords]
  rw [hkind]
  exact .skip (.close hgood)

theorem wordStatement?_eq_none (hwords : c.words = w :: later)
    (h : ∀ keyword ∈ ["pass", "break", "continue"], w ≠ (.name, keyword)) :
    c.wordStatement? = none := by
  simp only [List.mem_cons, List.not_mem_nil, or_false, forall_eq_or_imp, forall_eq] at h
  simp [Cursor.wordStatement?, Cursor.atKeyword_of_words hwords, h]

theorem reads_return_none (hgood : ∀ span, good ⟨.returnStmt none, span⟩) :
    Reads (smallStatement keep) [(.name, "return")] EndsLine good := by
  refine .mark fun start => .getFirst fun c w later _ hwords => ?_
  have hat : c.atKeyword "return" = true := by
    rw [Cursor.atKeyword_of_words hwords]
    rfl
  rw [wordStatement?_eq_none hwords (by simp), hat]
  refine .skip (.getFirst fun d v later hv hlater => ?_)
  have hnone : d.startsExpression = false := by
    rw [Cursor.startsExpression, Cursor.kind_of_words hlater]
    obtain rfl := hv
    rfl
  rw [hnone]
  exact .close hgood

theorem reads_return_some (h : Reads (anyList keep) ws EndsValue good)
    (hbegins : First BeginsValue ws) {good' : Node → Prop}
    (hgood : ∀ a span, good a → good' ⟨.returnStmt (some a), span⟩) :
    Reads (smallStatement keep) ((.name, "return") :: ws) EndsLine good' := by
  refine .mark fun start => .getFirst fun c w later _ hwords => ?_
  have hat : c.atKeyword "return" = true := by
    rw [Cursor.atKeyword_of_words hwords]
    rfl
  rw [wordStatement?_eq_none hwords (by simp), hat]
  refine .skip (.getFirst fun d v later hv hlater => ?_)
  rw [(hbegins.headD v).startsExpression hlater]
  exact h.andThen (fun a ha => .close fun span => hgood a span ha) fun _ hw => hw.endsValue

/-- A statement that begins with a value. -/
def valueStatement (keep : Retention) (start : Location) : Parser Node := do
  let first ← anyList keep
  match (← get).augmentedOp? with
  | some op =>
      let _ ← bump
      let value ← anyList keep
      close (.augAssign first op value) start
  | none =>
      let rest ← bounded (assignTail keep)
      match rest.getLast? with
      | some value => close (.assign (first :: rest.dropLast) value) start
      | none => close (.exprStmt first) start

theorem reads_valueStatement (hbegins : First BeginsValue ws)
    (h : ∀ start, Reads (valueStatement keep start) ws stop good) :
    Reads (smallStatement keep) ws stop good := by
  refine .mark fun start => .getFirst fun c w later _ hwords => ?_
  have hfirst := hbegins.headD w
  have hat : c.atKeyword "return" = false := by
    rw [Cursor.atKeyword_of_words hwords, decide_eq_false_iff_not]
    exact hfirst.ne_keyword (by decide) (by decide)
  have hnone : c.wordStatement? = none := by
    refine wordStatement?_eq_none hwords fun keyword hkeyword => ?_
    simp only [List.mem_cons, List.not_mem_nil, or_false] at hkeyword
    rcases hkeyword with rfl | rfl | rfl <;> exact hfirst.ne_keyword (by decide) (by decide)
  rw [hnone, hat]
  exact h start

theorem augmentedOp?_eq_none (hwords : c.words = w :: later) (h : w = (.op, "=") ∨ w.1 ≠ .op) :
    c.augmentedOp? = none := by
  rw [Cursor.augmentedOp?, List.find?_eq_none]
  intro op _
  rw [Cursor.atOp_of_words hwords]
  rcases h with rfl | h
  · cases op <;> decide
  · simpa using fun heq => h (congrArg Prod.fst heq)

theorem augmentedOp?_symbol {op : BinaryOp} (h : c.words = (.op, op.symbol ++ "=") :: later) :
    c.augmentedOp? = some op := by
  have hsymbol : ∀ op' : BinaryOp, c.atOp (op'.symbol ++ "=") = true ↔ op = op' := by
    intro op'
    rw [Cursor.atOp_of_words h]
    cases op <;> cases op' <;> decide
  have hall : op ∈ BinaryOp.all := by cases op <;> decide
  have hsome : c.augmentedOp?.isSome = true := List.find?_isSome.2 ⟨op, hall, (hsymbol op).2 rfl⟩
  obtain ⟨found, hfound⟩ := Option.isSome_iff_exists.1 hsome
  have hat := List.find?_some hfound
  rw [hfound, (hsymbol found).1 hat]

theorem endsValue_augmented (op : BinaryOp) : EndsValue (.op, op.symbol ++ "=") := by
  constructor <;> cases op <;> decide

theorem reads_augAssign {op : BinaryOp} {ws' : List Word} {good' good'' : Node → Prop}
    (target : Reads (anyList keep) ws EndsValue good) (hbegins : First BeginsValue ws)
    (value : Reads (anyList keep) ws' EndsValue good')
    (hgood : ∀ a b span, good a → good' b → good'' ⟨.augAssign a op b, span⟩) :
    Reads (smallStatement keep) (ws ++ (.op, op.symbol ++ "=") :: ws') EndsLine good'' := by
  refine reads_valueStatement (hbegins.append _) fun start => target.bind (fun a ha => ?_)
    fun _ _ => endsValue_augmented op
  refine .getFirst fun c w later _ hwords => ?_
  rw [augmentedOp?_symbol hwords]
  exact .skip (value.andThen (fun b hb => .close fun span => hgood a b span ha hb)
    fun _ hw => hw.endsValue)

section Assign

variable {γ : Type} {words : γ → List Word} {goods : γ → Node → Prop}

theorem endsValue_headD_assign (xs : List γ) (hw : EndsLine w) :
    EndsValue ((xs.flatMap fun x => (.op, "=") :: words x).headD w) := by
  cases xs with
  | nil => exact hw.endsValue
  | cons x xs =>
      have hequals : EndsValue (.op, "=") := ⟨by decide, by decide⟩
      exact hequals

theorem reads_assignTail {xs : List γ}
    (h : ∀ x ∈ xs, Reads (anyList keep) (words x) EndsValue (goods x)) (hfuel : xs.length < fuel) :
    Reads (assignTail keep fuel) (xs.flatMap fun x => (.op, "=") :: words x) EndsLine
      (List.Forall₂ goods xs) := by
  induction xs generalizing fuel with
  | nil =>
      obtain ⟨fuel, rfl⟩ := exists_fuel hfuel
      refine .unlessFalse (sees_notOp fun w hw => ?_) (.pure .nil)
      obtain rfl := hw
      simp
  | cons x xs ih =>
      obtain ⟨fuel, rfl⟩ := exists_fuel hfuel
      have hrest := ih (fun y hy => h y (List.mem_cons_of_mem x hy)) (Nat.lt_of_succ_lt_succ hfuel)
      exact .unlessTrue (sees_op fun _ _ => rfl) (.skip ((h x List.mem_cons_self).bind
        (fun a ha => hrest.thenPure fun _ has => .cons ha has) fun _ hw => endsValue_headD_assign xs hw))

/-- A value, and others after equals signs. -/
theorem reads_assigned {xs : List γ} {good' : Node → Prop}
    (first : Reads (anyList keep) ws EndsValue good) (hbegins : First BeginsValue ws)
    (h : ∀ x ∈ xs, Reads (anyList keep) (words x) EndsValue (goods x))
    (hone : xs = [] → ∀ a span, good a → good' ⟨.exprStmt a, span⟩)
    (hmany : ∀ a as b span, good a → List.Forall₂ goods xs (as ++ [b]) →
      good' ⟨.assign (a :: as) b, span⟩) :
    Reads (smallStatement keep) (ws ++ xs.flatMap fun x => (.op, "=") :: words x) EndsLine good' := by
  refine reads_valueStatement (hbegins.append _) fun start => first.bind (fun a ha => ?_)
    fun _ hw => endsValue_headD_assign xs hw
  refine .getFirst fun c w later hw hwords => ?_
  have hnone : c.augmentedOp? = none := by
    refine augmentedOp?_eq_none hwords ?_
    cases xs with
    | nil =>
        obtain rfl := hw
        exact .inr (by simp)
    | cons x xs => exact .inl rfl
  have hlength : xs.length ≤ (xs.flatMap fun x => ((.op, "=") :: words x : List Word)).length := by
    rw [List.length_flatMap]
    exact List.length_le_sum_of_one_le _ (by simp) |>.trans' (by simp)
  rw [hnone]
  have htail := Reads.bounded fun fuel hfuel => reads_assignTail h (hlength.trans_lt hfuel)
  refine htail.andThen (fun as has => ?_) fun _ hw => hw
  rcases List.eq_nil_or_concat as with rfl | ⟨front, b, rfl⟩
  · exact .close fun span => hone (List.forall₂_nil_right_iff.1 has) a span ha
  · rw [List.concat_eq_append, List.getLast?_concat, List.dropLast_concat]
    exact .close fun span => hmany a front b span ha (by simpa using has)

end Assign

/-- A line with one simple statement. -/
theorem reads_simpleStatements (h : Reads (smallStatement keep) ws EndsLine good) :
    Reads (simpleStatements keep) (ws ++ [(.newline, "\n")]) stop
      fun as => ∃ a, as = [a] ∧ good a := by
  have hsemicolons : Reads (bounded (semicolonTail keep)) [] EndsLine (· = []) := by
    refine .bounded fun fuel hfuel => ?_
    obtain ⟨fuel, rfl⟩ := exists_fuel hfuel
    refine .unlessFalse (sees_notOp fun w hw => ?_) (.pure rfl)
    obtain rfl := hw
    decide
  refine h.bind (fun a ha => ?_) fun _ _ => rfl
  rw [← List.nil_append [((TokenKind.newline, "\n") : Word)]]
  refine hsemicolons.bind (fun as has => ?_) fun _ _ => rfl
  refine .unlessFalse (sees_notKind fun _ _ => by simp) (.expectKind (.pure ⟨a, ?_, ha⟩))
  rw [has]

/-! ### Parameters -/

section Parameters

variable {γ : Type} {words : γ → List Word} {goods : γ → Node → Prop}

theorem reads_parameter {name : String} (hname : isKeyword name = false) {allowDefault : Bool}
    {default : Option γ} (h : ∀ x ∈ default, Reads (anyTest keep) (words x) (Stops .test) (goods x))
    (hallowed : ∀ x ∈ default, allowDefault = true)
    (hgood : ∀ d span, Option.Rel goods default d → good ⟨.arg name d, span⟩) :
    Reads (parameter keep allowDefault)
      ((.name, name) :: default.elim [] fun x => (.op, "=") :: words x) (Between ")") good := by
  refine .mark fun start => .expectIdentifier hname ?_
  cases default with
  | none =>
      have hnone : Sees (atOp "=") [] (Between ")") false := sees_notOp fun w hw => by
        rcases hw with rfl | rfl <;> simp
      refine .look hnone ?_
      rw [Bool.and_false]
      exact .close fun span => hgood none span .none
  | some x =>
      refine .look (sees_op fun _ _ => rfl) ?_
      rw [hallowed x rfl, Bool.and_true]
      exact .skip ((h x rfl).andThen (fun d hd => .close fun span => hgood (some d) span (.some hd))
        fun _ hw => stops_of_between (by decide) hw)

theorem parameterItems_eq (n : Nat) (ps : Parameters) :
    parameterItems keep n ps = itemFold ")" (parameterItem keep) n ps := by
  induction n generalizing ps with
  | zero => rfl
  | succ n ih => simp only [parameterItems, itemFold, ih]

/-- What is read for the parameters so far. -/
structure Parameters.For (goods : γ → Node → Prop) (args : List γ) (star : Bool) (vararg : Option γ)
    (kwonlyargs : List γ) (kwarg : Option γ) (ps : Parameters) : Prop where
  args : List.Forall₂ goods args ps.args
  star : ps.star = star
  vararg : Option.Rel goods vararg ps.vararg
  kwonlyargs : List.Forall₂ goods kwonlyargs ps.kwonlyargs
  kwarg : Option.Rel goods kwarg ps.kwarg

/-- A parameter by itself. -/
structure ReadsParameter (keep : Retention) (allowDefault : Bool) (ws : List Word)
    (good : Node → Prop) : Prop where
  reads : Reads (parameter keep allowDefault) ws (Between ")") good
  named : First (·.1 = .name) ws

theorem ne_op_of_name (h : w.1 = .name) (symbol : String) : w ≠ (.op, symbol) := by
  rintro rfl
  cases h

variable {args kwonlyargs : List γ} {vararg kwarg : Option γ} {star : Bool} {x : γ} {ps : Parameters}

theorem isNone_of_rel {x : Option γ} {a : Option Node} (h : Option.Rel goods x a) :
    a.isNone = x.isNone := by
  cases h <;> rfl

theorem isEmpty_of_forall₂ {xs : List γ} {as : List Node} (h : List.Forall₂ goods xs as) :
    as.isEmpty = xs.isEmpty := by
  cases h <;> rfl

theorem Parameters.For.kwarg_eq (h : ps.For goods args star vararg kwonlyargs none) :
    ps.kwarg = none :=
  Option.isNone_iff_eq_none.1 (isNone_of_rel h.kwarg)

theorem readsItem_parameter (h : ReadsParameter keep true (words x) (goods x))
    (hps : ps.For goods args false none [] none) :
    ReadsItem ")" (parameterItem keep ps) (words x)
      (Parameters.For goods (args ++ [x]) false none [] none) := by
  refine ⟨.getFirst fun c w later _ hwords => ?_, h.named.imp fun _ hw => ne_op_of_name hw _⟩
  have hop : ∀ symbol, c.atOp symbol = false := fun symbol => by
    rw [Cursor.atOp_of_words hwords, decide_eq_false_iff_not]
    exact ne_op_of_name (h.named.headD w) symbol
  rw [hop, hop, hps.kwarg_eq]
  refine h.reads.andThen (fun a ha => ?_) fun _ hw => hw
  rw [hps.star]
  exact .pure { hps with
    args := List.rel_append hps.args (.cons ha .nil), star := rfl, kwarg := .none }

theorem readsItem_keywordOnly (h : ReadsParameter keep true (words x) (goods x))
    (hps : ps.For goods args true vararg kwonlyargs none) :
    ReadsItem ")" (parameterItem keep ps) (words x)
      (Parameters.For goods args true vararg (kwonlyargs ++ [x]) none) := by
  refine ⟨.getFirst fun c w later _ hwords => ?_, h.named.imp fun _ hw => ne_op_of_name hw _⟩
  have hop : ∀ symbol, c.atOp symbol = false := fun symbol => by
    rw [Cursor.atOp_of_words hwords, decide_eq_false_iff_not]
    exact ne_op_of_name (h.named.headD w) symbol
  rw [hop, hop, hps.kwarg_eq]
  refine h.reads.andThen (fun a ha => ?_) fun _ hw => hw
  rw [hps.star]
  exact .pure { hps with
    star := rfl, kwonlyargs := List.rel_append hps.kwonlyargs (.cons ha .nil), kwarg := .none }

/-- A star, alone or with the parameter that takes the other positional arguments. -/
theorem readsItem_star (h : ∀ x ∈ vararg, ReadsParameter keep false (words x) (goods x))
    (hps : ps.For goods args false none [] none) :
    ReadsItem ")" (parameterItem keep ps) ((.op, "*") :: vararg.elim [] words)
      (Parameters.For goods args true vararg [] none) := by
  refine ⟨.getFirst fun c w later _ hwords => ?_, .cons (by decide)⟩
  rw [Cursor.atOp_of_words hwords, Cursor.atOp_of_words hwords, hps.star]
  refine .skip (.getFirst fun d v later hv hlater => ?_)
  cases vararg with
  | none =>
      have hat : (d.atOp "," || d.atOp ")") = true := by
        rw [Cursor.atOp_of_words hlater, Cursor.atOp_of_words hlater]
        rcases hv with rfl | rfl <;> rfl
      rw [hat]
      exact .pure { hps with star := rfl }
  | some x =>
      have hname := (h x rfl).named
      have hat : (d.atOp "," || d.atOp ")") = false := by
        rw [Cursor.atOp_of_words hlater, Cursor.atOp_of_words hlater, Bool.or_eq_false_iff,
          decide_eq_false_iff_not, decide_eq_false_iff_not]
        exact ⟨ne_op_of_name (hname.headD v) _, ne_op_of_name (hname.headD v) _⟩
      rw [hat]
      exact (h x rfl).reads.andThen
        (fun a ha => .pure { hps with star := rfl, vararg := .some ha }) fun _ hw => hw

theorem readsItem_doubleStar (h : ReadsParameter keep false (words x) (goods x))
    (hps : ps.For goods args star vararg kwonlyargs none) :
    ReadsItem ")" (parameterItem keep ps) ((.op, "**") :: words x)
      (Parameters.For goods args star vararg kwonlyargs (some x)) := by
  refine ⟨.getFirst fun c w later _ hwords => ?_, .cons (by decide)⟩
  rw [Cursor.atOp_of_words hwords]
  exact .skip (h.reads.andThen (fun a ha => .pure { hps with kwarg := .some ha }) fun _ hw => hw)

/-- The star in a list of parameters, where there is one. -/
def starItem (words : γ → List Word) (vararg : Option γ) (kwonlyargs : List γ) : List (List Word) :=
  if vararg.isNone && kwonlyargs.isEmpty then [] else [(.op, "*") :: vararg.elim [] words]

/-- The words of a list of parameters, one by one. -/
def parameterWords (words : γ → List Word) (args : List γ) (vararg : Option γ) (kwonlyargs : List γ)
    (kwarg : Option γ) : List (List Word) :=
  args.map words ++ (starItem words vararg kwonlyargs ++
    (kwonlyargs.map words ++ (kwarg.map fun x => (.op, "**") :: words x).toList))

theorem leads_parameters (hargs : ∀ x ∈ args, ReadsParameter keep true (words x) (goods x))
    (hvararg : ∀ x ∈ vararg, ReadsParameter keep false (words x) (goods x))
    (hkwonlyargs : ∀ x ∈ kwonlyargs, ReadsParameter keep true (words x) (goods x))
    (hkwarg : ∀ x ∈ kwarg, ReadsParameter keep false (words x) (goods x)) :
    Leads ")" (parameterItem keep) (Parameters.For goods [] false none [] none)
      (parameterWords words args vararg kwonlyargs kwarg)
      (Parameters.For goods args (!(vararg.isNone && kwonlyargs.isEmpty)) vararg kwonlyargs kwarg) := by
  have hpositional : Leads ")" (parameterItem keep) (Parameters.For goods [] false none [] none)
      (args.map words) (Parameters.For goods args false none [] none) :=
    .each (fun done => Parameters.For goods done false none [] none)
      fun done x hx ps hps => readsItem_parameter (hargs x hx) hps
  have hrest : Leads ")" (parameterItem keep)
      (Parameters.For goods args (!(vararg.isNone && kwonlyargs.isEmpty)) vararg kwonlyargs none)
      (kwarg.map fun x => (.op, "**") :: words x).toList
      (Parameters.For goods args (!(vararg.isNone && kwonlyargs.isEmpty)) vararg kwonlyargs kwarg) := by
    cases kwarg with
    | none => exact .nil
    | some x => exact .cons (fun ps hps => readsItem_doubleStar (hkwarg x rfl) hps) .nil
  refine hpositional.append ?_
  rw [starItem]
  by_cases hempty : (vararg.isNone && kwonlyargs.isEmpty) = true
  · obtain ⟨rfl, rfl⟩ : vararg = none ∧ kwonlyargs = [] := by simpa using hempty
    exact hrest
  · rw [Bool.not_eq_true] at hempty
    rw [hempty] at hrest ⊢
    have hnamed : Leads ")" (parameterItem keep) (Parameters.For goods args true vararg [] none)
        (kwonlyargs.map words) (Parameters.For goods args true vararg kwonlyargs none) :=
      .each (fun done => Parameters.For goods args true vararg done none)
        fun done x hx ps hps => readsItem_keywordOnly (hkwonlyargs x hx) hps
    exact .cons (fun ps hps => readsItem_star hvararg hps) (hnamed.append hrest)

theorem reads_parameters (hargs : ∀ x ∈ args, ReadsParameter keep true (words x) (goods x))
    (hvararg : ∀ x ∈ vararg, ReadsParameter keep false (words x) (goods x))
    (hkwonlyargs : ∀ x ∈ kwonlyargs, ReadsParameter keep true (words x) (goods x))
    (hkwarg : ∀ x ∈ kwarg, ReadsParameter keep false (words x) (goods x)) (trailing : Bool)
    (hgood : ∀ as v ks kw span, List.Forall₂ goods args as → Option.Rel goods vararg v →
      List.Forall₂ goods kwonlyargs ks → Option.Rel goods kwarg kw →
        good ⟨.arguments as v ks kw, span⟩) :
    Reads (parameters keep)
      (separated (parameterWords words args vararg kwonlyargs kwarg) trailing) (Closer ")") good := by
  have hleads := leads_parameters hargs hvararg hkwonlyargs hkwarg
  have hnonempty : ∀ item ∈ parameterWords words args vararg kwonlyargs kwarg, item ≠ [] := by
    intro item hitem
    simp only [parameterWords, List.mem_append, List.mem_map, Option.mem_toList] at hitem
    rcases hitem with ⟨x, hx, rfl⟩ | hstar | ⟨x, hx, rfl⟩ | hitem
    · exact (hargs x hx).named.ne_nil
    · rw [starItem] at hstar
      split at hstar
      · cases hstar
      · rw [List.mem_singleton.1 hstar]
        simp
    · exact (hkwonlyargs x hx).named.ne_nil
    · obtain ⟨x, _, rfl⟩ := Option.map_eq_some_iff.1 hitem
      simp
  have hitems : Reads (bounded fun n => parameterItems keep n {})
      (separated (parameterWords words args vararg kwonlyargs kwarg) trailing) (Closer ")")
      (Parameters.For goods args (!(vararg.isNone && kwonlyargs.isEmpty)) vararg kwonlyargs kwarg) := by
    refine .bounded fun fuel hfuel => ?_
    rw [parameterItems_eq]
    exact reads_itemFold (by decide) trailing hleads
      ((length_le_separated hnonempty trailing).trans_lt hfuel) ⟨.nil, rfl, .none, .nil, .none⟩
  refine .mark fun start => .lookAny fun empty => hitems.andThen (fun ps hps => ?_) fun _ hw => hw
  have hstar : (ps.star && ps.vararg.isNone && ps.kwonlyargs.isEmpty) = false := by
    rw [hps.star, isNone_of_rel hps.vararg, isEmpty_of_forall₂ hps.kwonlyargs]
    cases vararg.isNone <;> cases kwonlyargs.isEmpty <;> rfl
  have hwhole := fun span => hgood _ _ _ _ span hps.args hps.vararg hps.kwonlyargs hps.kwarg
  rw [hstar]
  cases empty with
  | true => exact .pure (hwhole none)
  | false => exact .closeFull hwhole

end Parameters

/-! ### Blocks -/

/-- The words before which a statement ends: it does not go on with another branch. -/
def EndsStatement (w : Word) : Prop :=
  w ≠ (.name, "elif") ∧ w ≠ (.name, "else")

/-- A statement may begin with the word. -/
structure BeginsStatement (w : Word) : Prop where
  solid : w.1 ≠ .newline ∧ w.1 ≠ .dedent ∧ w.1 ≠ .endMarker
  ends : EndsStatement w

/-- The words of a block. -/
def indented (ws : List Word) : List Word :=
  (.newline, "\n") :: (.indent, "") :: (ws ++ [(.dedent, "")])

/-- A statement that is read as one node. -/
structure ReadsStatement (statement : Parser (List Node)) (ws : List Word) (good : Node → Prop) :
    Prop where
  reads : Reads statement ws EndsStatement fun as => ∃ a, as = [a] ∧ good a
  begins : First BeginsStatement ws

section Blocks

variable {γ : Type} {words : γ → List Word} {goods : γ → Node → Prop} {xs : List γ}
  {statement : Parser (List Node)}

/-- The word at which a list of statements ends; no statement begins with it. -/
structure EndsBlock (stop : Cursor → Bool) (w : Word) : Prop where
  stops : ∀ {c : Cursor} {later : List Word}, c.words = w :: later → stop c = true
  ends : EndsStatement w

theorem reads_elseBlock_none : Reads (elseBlock keep statement) [] EndsStatement (· = []) :=
  .ifFalse (sees_notKeyword fun _ hw => hw.2) (.pure rfl)

theorem stops_colon : Stops .test (.op, ":") := by decide

variable (body : ∀ x ∈ xs, ReadsStatement statement (words x) (goods x))
include body

theorem reads_statements {stop : Cursor → Bool}
    (hgo : ∀ {c : Cursor} {w : Word} {later : List Word}, c.words = w :: later → BeginsStatement w →
      stop c = false) (hfuel : xs.length < fuel) :
    Reads (statements stop statement fuel) (xs.flatMap words) (EndsBlock stop)
      (List.Forall₂ goods xs) := by
  induction xs generalizing fuel with
  | nil =>
      obtain ⟨fuel, rfl⟩ := exists_fuel hfuel
      refine .getFirst fun c w later hw hwords => ?_
      rw [hw.stops hwords]
      exact .pure .nil
  | cons x xs ih =>
      obtain ⟨fuel, rfl⟩ := exists_fuel hfuel
      obtain ⟨⟨hread, hbegins⟩, hlater⟩ := List.forall_mem_cons.1 body
      have hrest := ih hlater (Nat.lt_of_succ_lt_succ hfuel)
      rw [List.flatMap_cons]
      refine .getFirst fun c w later hw hwords => ?_
      have hfirst := (hbegins.append (xs.flatMap words)).headD w
      have hnewline : c.atKind .newline = false := by
        rw [Cursor.atKind_of_words hwords, decide_eq_false_iff_not]
        exact hfirst.solid.1
      rw [hgo hwords hfirst, hnewline]
      refine hread.bind (fun as has => ?_) fun v hv => ?_
      · obtain ⟨a, rfl, ha⟩ := has
        exact hrest.thenPure fun _ has => .cons ha has
      · cases xs with
        | nil => exact hv.ends
        | cons y ys => exact (((hlater y List.mem_cons_self).begins.append _).headD v).ends

theorem length_le_flatMap_statements : xs.length ≤ (xs.flatMap words).length := by
  rw [List.length_flatMap, ← List.length_map (fun x => (words x).length)]
  refine List.length_le_sum_of_one_le _ fun n hn => ?_
  obtain ⟨x, hx, rfl⟩ := List.mem_map.1 hn
  exact List.length_pos_iff.2 (body x hx).begins.ne_nil

theorem reads_boundedStatements {stop : Cursor → Bool}
    (hgo : ∀ {c : Cursor} {w : Word} {later : List Word}, c.words = w :: later → BeginsStatement w →
      stop c = false) :
    Reads (bounded (statements stop statement)) (xs.flatMap words) (EndsBlock stop)
      (List.Forall₂ goods xs) :=
  .bounded fun _ hfuel =>
    reads_statements body hgo ((length_le_flatMap_statements body).trans_lt hfuel)

theorem reads_block : Reads (block keep statement) (indented (xs.flatMap words)) (fun _ => True)
    (List.Forall₂ goods xs) := by
  refine .ifTrue (sees_kind fun _ _ => rfl) (.skip (.expectKind ?_))
  refine (reads_boundedStatements body fun hwords hw => ?_).bind (fun as has => ?_) fun w _ => ?_
  · simp [Cursor.atKind_of_words hwords, hw.solid]
  · exact .ifTrue (sees_kind fun _ _ => rfl) (.skip (.pure has))
  · exact ⟨fun hwords => by simp [Cursor.atKind_of_words hwords], by simp, by simp⟩

theorem reads_elseBlock : Reads (elseBlock keep statement)
    ((.name, "else") :: (.op, ":") :: indented (xs.flatMap words)) stop (List.Forall₂ goods xs) :=
  .ifTrue (sees_keyword fun _ _ => rfl)
    (.skip (.expectOp ((reads_block body).mono fun _ _ => trivial)))

/-! ### Compound statements -/

variable {ws' : List Word} {good' : Node → Prop} {goodElse : List Node → Prop}

theorem reads_ifStatement {keyword : Word} (test : Reads (anyTest keep) ws (Stops .test) good)
    (orelse : Reads (elseBlock keep statement) ws' EndsStatement goodElse)
    (helse : ∀ w, EndsStatement w → ws'.headD w ≠ (.name, "elif"))
    (hgood : ∀ a as bs span, good a → List.Forall₂ goods xs as → goodElse bs →
      good' ⟨.ifStmt a as bs, span⟩) :
    Reads (ifStatement keep statement (fuel + 1))
      (keyword :: (ws ++ (.op, ":") :: (indented (xs.flatMap words) ++ ws'))) EndsStatement good' := by
  refine .mark fun start => .skip (test.bind (fun a ha => .expectOp ?_) fun _ _ => stops_colon)
  refine (reads_block body).bind (fun as has => ?_) fun _ _ => trivial
  exact .ifFalse (sees_notKeyword helse)
    (orelse.andThen (fun bs hbs => .close fun span => hgood a as bs span ha has hbs) fun _ hw => hw)

theorem reads_elif {keyword : Word} {goodNested : Node → Prop}
    (test : Reads (anyTest keep) ws (Stops .test) good)
    (nested : Reads (ifStatement keep statement fuel) ((.name, "elif") :: ws') EndsStatement goodNested)
    (hgood : ∀ a as b span, good a → List.Forall₂ goods xs as → goodNested b →
      good' ⟨.ifStmt a as [b], span⟩) :
    Reads (ifStatement keep statement (fuel + 1))
      (keyword :: (ws ++ (.op, ":") :: (indented (xs.flatMap words) ++ (.name, "elif") :: ws')))
      EndsStatement good' := by
  refine .mark fun start => .skip (test.bind (fun a ha => .expectOp ?_) fun _ _ => stops_colon)
  refine (reads_block body).bind (fun as has => ?_) fun _ _ => trivial
  exact .ifTrue (sees_keyword fun _ _ => rfl)
    (nested.andThen (fun b hb => .close fun span => hgood a as b span ha has hb) fun _ hw => hw)

theorem reads_whileStatement (test : Reads (anyTest keep) ws (Stops .test) good)
    (orelse : Reads (elseBlock keep statement) ws' EndsStatement goodElse)
    (hgood : ∀ a as bs span, good a → List.Forall₂ goods xs as → goodElse bs →
      good' ⟨.whileLoop a as bs, span⟩) :
    Reads (whileStatement keep statement)
      ((.name, "while") :: (ws ++ (.op, ":") :: (indented (xs.flatMap words) ++ ws')))
      EndsStatement good' := by
  refine .mark fun start => .expectKeyword (test.bind (fun a ha => .expectOp ?_)
    fun _ _ => stops_colon)
  exact (reads_block body).bind (fun as has => orelse.andThen
    (fun bs hbs => .close fun span => hgood a as bs span ha has hbs) fun _ hw => hw) fun _ _ => trivial

theorem reads_forStatement {targetWords : List Word} {goodTarget : Node → Prop}
    (target : Reads (targetList keep) targetWords (fun w => Stops .bitOr w ∧ w ≠ (.op, ","))
      goodTarget)
    (iter : Reads (anyList keep) ws EndsValue good)
    (orelse : Reads (elseBlock keep statement) ws' EndsStatement goodElse)
    (hgood : ∀ t a as bs span, goodTarget t → good a → List.Forall₂ goods xs as → goodElse bs →
      good' ⟨.forLoop t a as bs, span⟩) :
    Reads (forStatement keep statement)
      ((.name, "for") :: (targetWords ++ (.name, "in") ::
        (ws ++ (.op, ":") :: (indented (xs.flatMap words) ++ ws')))) EndsStatement good' := by
  have hin : Stops .bitOr (.name, "in") ∧ ((.name, "in") : Word) ≠ (.op, ",") :=
    ⟨by decide, by decide⟩
  have hcolon : EndsValue (.op, ":") := ⟨stops_colon, by decide⟩
  refine .mark fun start => .expectKeyword (target.bind (fun t ht => .expectKeyword ?_)
    fun _ _ => hin)
  refine iter.bind (fun a ha => .expectOp ?_) fun _ _ => hcolon
  exact (reads_block body).bind (fun as has => orelse.andThen
    (fun bs hbs => .close fun span => hgood t a as bs span ht ha has hbs) fun _ hw => hw)
    fun _ _ => trivial

theorem reads_functionDef {name : String} (hname : isKeyword name = false)
    (args : Reads (parameters keep) ws (Closer ")") good)
    (hgood : ∀ a as span, good a → List.Forall₂ goods xs as → good' ⟨.functionDef name a as, span⟩) :
    Reads (functionDef keep statement) ((.name, "def") :: (.name, name) :: (.op, "(") ::
      (ws ++ (.op, ")") :: (.op, ":") :: indented (xs.flatMap words))) stop good' := by
  refine .mark fun start => .expectKeyword (.expectIdentifier hname (.expectOp ?_))
  refine args.bind (fun a ha => .expectOp (.expectOp ?_)) fun _ _ => rfl
  exact (reads_block body).andThen (fun as has => .close fun span => hgood a as span ha has)
    fun _ _ => trivial

end Blocks

/-! ### Statements -/

section Statements

variable {k : Nat}

theorem readsStatement_if (h : ∀ fuel, ((.name, "if") :: ws : List Word).length < fuel →
      Reads (ifStatement keep (statement keep k) fuel) ((.name, "if") :: ws) EndsStatement good) :
    ReadsStatement (statement keep (k + 1)) ((.name, "if") :: ws) good := by
  refine ⟨.getFirst fun c w later _ hwords => ?_, .cons ⟨by decide, by decide, by decide⟩⟩
  rw [Cursor.atKeyword_of_words hwords]
  exact (Reads.bounded h).thenPure fun a ha => ⟨a, rfl, ha⟩

theorem readsStatement_while
    (h : Reads (whileStatement keep (statement keep k)) ((.name, "while") :: ws) EndsStatement good) :
    ReadsStatement (statement keep (k + 1)) ((.name, "while") :: ws) good := by
  refine ⟨.getFirst fun c w later _ hwords => ?_, .cons ⟨by decide, by decide, by decide⟩⟩
  rw [Cursor.atKeyword_of_words hwords, Cursor.atKeyword_of_words hwords]
  exact h.thenPure fun a ha => ⟨a, rfl, ha⟩

theorem readsStatement_for
    (h : Reads (forStatement keep (statement keep k)) ((.name, "for") :: ws) EndsStatement good) :
    ReadsStatement (statement keep (k + 1)) ((.name, "for") :: ws) good := by
  refine ⟨.getFirst fun c w later _ hwords => ?_, .cons ⟨by decide, by decide, by decide⟩⟩
  rw [Cursor.atKeyword_of_words hwords, Cursor.atKeyword_of_words hwords,
    Cursor.atKeyword_of_words hwords]
  exact h.thenPure fun a ha => ⟨a, rfl, ha⟩

theorem readsStatement_def
    (h : Reads (functionDef keep (statement keep k)) ((.name, "def") :: ws) EndsStatement good) :
    ReadsStatement (statement keep (k + 1)) ((.name, "def") :: ws) good := by
  refine ⟨.getFirst fun c w later _ hwords => ?_, .cons ⟨by decide, by decide, by decide⟩⟩
  rw [Cursor.atKeyword_of_words hwords, Cursor.atKeyword_of_words hwords,
    Cursor.atKeyword_of_words hwords, Cursor.atKeyword_of_words hwords]
  exact h.thenPure fun a ha => ⟨a, rfl, ha⟩

/-- A simple statement may begin with the word. -/
def BeginsSimple (w : Word) : Prop :=
  BeginsValue w ∨ ∃ keyword ∈ ["pass", "break", "continue", "return"], w = (.name, keyword)

theorem BeginsSimple.ne_keyword (h : BeginsSimple w)
    (hkeyword : keyword ∈ ["if", "while", "for", "def", "elif", "else"]) :
    w ≠ (.name, keyword) := by
  simp only [List.mem_cons, List.not_mem_nil, or_false] at hkeyword
  rcases h with h | ⟨word, hword, rfl⟩
  · rcases hkeyword with rfl | rfl | rfl | rfl | rfl | rfl <;>
      exact h.ne_keyword (by decide) (by decide)
  · simp only [List.mem_cons, List.not_mem_nil, or_false] at hword
    rcases hword with rfl | rfl | rfl | rfl <;>
      rcases hkeyword with rfl | rfl | rfl | rfl | rfl | rfl <;> decide

theorem BeginsSimple.beginsStatement (h : BeginsSimple w) : BeginsStatement w := by
  refine ⟨?_, h.ne_keyword (by decide), h.ne_keyword (by decide)⟩
  rcases h with (h | rfl) | ⟨word, _, rfl⟩
  · obtain ⟨kind, text⟩ := w
    cases kind <;> first | exact h.elim | simp
  all_goals simp

theorem readsStatement_simple (h : Reads (smallStatement keep) ws EndsLine good)
    (hbegins : First BeginsSimple ws) :
    ReadsStatement (statement keep (k + 1)) (ws ++ [(.newline, "\n")]) good := by
  refine ⟨.getFirst fun c w later _ hwords => ?_,
    (hbegins.imp fun _ hw => hw.beginsStatement).append _⟩
  have hkeyword : ∀ keyword ∈ ["if", "while", "for", "def", "elif", "else"],
      c.atKeyword keyword = false := by
    intro keyword hkeyword
    rw [Cursor.atKeyword_of_words hwords, decide_eq_false_iff_not]
    exact ((hbegins.append _).headD w).ne_keyword hkeyword
  rw [hkeyword "if" (by decide), hkeyword "while" (by decide), hkeyword "for" (by decide),
    hkeyword "def" (by decide)]
  exact reads_simpleStatements h

end Statements

/-! ### Modules -/

/-- The statements of a module, up to the end of the text. -/
theorem reads_module {γ : Type} {words : γ → List Word} {goods : γ → Node → Prop} {xs : List γ}
    (h : ∀ k, (xs.flatMap words).length < k →
      ∀ x ∈ xs, ReadsStatement (statement keep k) (words x) (goods x))
    (hgood : ∀ as span, List.Forall₂ goods xs as → good ⟨.module as, span⟩) :
    Reads (module keep) (xs.flatMap words) (· = (.endMarker, "")) good := by
  refine .get fun c w rest hwords _ => ?_
  have hk : (xs.flatMap words).length < c.remaining := by
    rw [Cursor.remaining_of_words hwords, List.length_append, List.length_cons]
    omega
  refine (reads_boundedStatements (h c.remaining hk) fun hwords hw => ?_).andThen
    (fun as has => .pure (hgood as _ has)) ?_
  · simp [Cursor.atKind_of_words hwords, hw.solid]
  · rintro w rfl
    exact ⟨fun hwords => by simp [Cursor.atKind_of_words hwords], by decide, by decide⟩

end TriviaTree.Grammar
