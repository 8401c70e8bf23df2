import Mathlib
import TriviaTree.Proofs.Grammar.Statements
import TriviaTree.Proofs.Printing.Printable
import TriviaTree.Proofs.Token.Steps

/-!
Everything the grammar reads can be printed.

What is made of printable parts is printable, expression by expression (`Production.printable`) and
statement by statement (`Sentence.printable`), when the lexemes at hand are spelled as their kinds say.
So a text is read as a tree of the shape that printing expects, with no trivia in it
(`parseModule_printable`).
-/

set_option autoImplicit false

namespace TriviaTree

/-- The lexeme is spelled as its kind says. -/
structure Lexeme.Spelled (l : Lexeme) : Prop where
  name : l.kind = .name → Text.isIdentifier l.text.toList = true
  number : l.kind = .int ∨ l.kind = .float → IsNumber l.kind l.text

/-- Between parentheses an item of a list is an expression. -/
theorem Printable.whole_of_item {n : Node} (h : Printable false .item n) :
    Printable false .whole n := by
  cases h with
  | item h => exact h
  | starred hvalue => exact .bracketed rfl hvalue

namespace Grammar

/-- All lexemes from the cursor on are spelled as their kinds say. -/
def Cursor.Spelled (c : Cursor) : Prop :=
  ∀ l ∈ c.current :: c.ahead, l.Spelled

theorem Cursor.Spelled.advance {c : Cursor} (h : c.Spelled) : c.advance.Spelled := by
  intro l hl
  cases hahead : c.ahead with
  | nil =>
      simp only [Cursor.advance, hahead] at hl
      exact h l (hahead ▸ hl)
  | cons lexeme rest =>
      simp only [Cursor.advance, hahead] at hl
      exact h l (by rw [hahead]; exact List.mem_cons_of_mem _ hl)

theorem Cursor.Spelled.identifier {c : Cursor} (h : c.Spelled) (hkind : c.current.kind = .name)
    (hfree : isKeyword c.current.text = false) : IsIdentifier c.current.text :=
  ⟨(h _ List.mem_cons_self).name hkind, hfree⟩

/-- What the parser reads from spelled lexemes has the property `P`. -/
def Yields {α : Type} (p : Parser α) (P : α → Prop) : Prop :=
  ∀ ⦃c a c'⦄, c.Spelled → p c = .ok (a, c') → c'.Spelled ∧ P a

/-! ### Expressions -/

/-- The part of a tree that has a role. -/
def Role.part : Role → Part
  | .expression => .whole
  | .item | .row => .item
  | .index => .index
  | .subscript => .subscript
  | .keyword => .keyword

/-- A word spelled as its kind says, or a node that can be printed. -/
def Read.Shaped : Read → Prop
  | .word w => (w.1 = .name → Text.isIdentifier w.2.toList = true) ∧
      (w.1 = .int ∨ w.1 = .float → IsNumber w.1 w.2)
  | .node role n => Printable false role.part n

/-- A tuple between parentheses loses them when it is all that stands in a subscript. -/
theorem subscript_of_index {n : Node} (h : Printable false .index n) :
    Printable false .subscript n := by
  by_cases htuple : ∃ elts, n.kind = .tuple elts ∧ elts ≠ []
  · obtain ⟨elts, hkind, hne⟩ := htuple
    obtain ⟨kind, span⟩ := n
    cases hkind
    cases h with
    | index h =>
        cases h with
        | tuple helts => exact .several hne fun e he => .index (helts e he).whole_of_item
  · push Not at htuple
    exact .single h fun elts hkind => htuple elts hkind

theorem printable_of_permits {role role' : Role} (h : role.permits role' = true) {n : Node}
    (hn : Printable false role.part n) : Printable false role'.part n := by
  cases role <;> cases role' <;> simp only [Role.permits, Bool.false_eq_true] at h
  · exact .item hn
  · exact .index hn
  · exact hn.whole_of_item
  · exact hn
  · exact subscript_of_index hn

/-- What is made of printable parts is printable. -/
theorem Production.printable {role : Role} {kind : Kind Node} {rs : List Read}
    (production : Production role kind rs) (h : ∀ r ∈ rs, r.Shaped) (span : Option Span) :
    Printable false role.part ⟨kind, span⟩ := by
  have listed : ∀ {role : Role} {elts : List Node} {rs : List Read},
      Listed (fun n => [.node role n]) elts rs → (∀ r ∈ rs, r.Shaped) →
      ∀ n ∈ elts, Printable false role.part n :=
    fun hlisted h n hn => h _ (hlisted.mem hn (List.mem_singleton_self _))
  cases production with
  | name hfree => exact .name ⟨(h _ List.mem_cons_self).1 rfl, hfree⟩
  | keywordConstant hvalue =>
      refine .constant ?_
      unfold keywordConstant? at hvalue
      split at hvalue <;> cases hvalue <;> trivial
  | int | float => exact .constant ((h _ List.mem_cons_self).2 (by simp))
  | string => exact .constant trivial
  | tuple hlisted => exact .tuple (listed hlisted fun r hr => h r (by simp [hr]))
  | list hlisted => exact .list (listed hlisted fun r hr => h r (by simp [hr]))
  | set hne hlisted => exact .set hne (listed hlisted fun r hr => h r (by simp [hr]))
  | @dict pairs _ hlisted =>
      have parts : ∀ pair ∈ pairs, ∀ r ∈ pairReads pair, r.Shaped :=
        fun pair hpair r hr => h r (by simp [hlisted.mem hpair hr])
      refine .dict (by simp) (List.forall_mem_map.2 fun pair hpair => ?_)
        (List.forall_mem_map.2 fun pair hpair => ?_)
      · exact parts pair hpair (.node .expression pair.1) (by simp [pairReads])
      · exact parts pair hpair (.node .expression pair.2) (by simp [pairReads])
  | @call _ arguments _ hlisted =>
      have parts : ∀ argument ∈ arguments, ∀ r ∈ argumentReads argument, r.Shaped :=
        fun argument hmem r hr => h r (by simp [hlisted.mem hmem hr])
      have each : ∀ byName, ∀ n ∈ passed byName arguments, Read.Shaped
          (.node (if byName then .keyword else .item) n) := by
        intro byName n hn
        simp only [passed, List.mem_map, List.mem_filter, beq_iff_eq] at hn
        obtain ⟨argument, ⟨hmem, rfl⟩, rfl⟩ := hn
        exact parts argument hmem _ (List.mem_singleton_self _)
      exact .call (h _ List.mem_cons_self) (each false) (each true)
  | subscript value index =>
      exact .subscript (h (.node .expression value) (by simp)) (h (.node .subscript index) (by simp))
  | member value hfree =>
      exact .member (h (.node .expression value) (by simp)) ⟨(h (.term _) (by simp)).1 rfl, hfree⟩
  | binOp left right =>
      exact .binOp (h (.node .expression left) (by simp)) (h (.node .expression right) (by simp))
  | unaryOp operator operand => exact .unaryOp (h (.node .expression operand) (by simp))
  | compare left hne =>
      refine .compare (h _ List.mem_cons_self) (by simpa using hne) (by simp) ?_
      refine List.forall_mem_map.2 fun step hstep => h (.node .expression step.2) ?_
      refine List.mem_cons_of_mem _ (List.mem_flatMap.2 ⟨step, hstep, ?_⟩)
      simp [compareReads]
  | boolOp operator first hne =>
      refine .boolOp (Nat.succ_le_succ (List.length_pos_iff.2 hne)) ?_
      refine List.forall_mem_cons.2 ⟨h _ List.mem_cons_self, fun n hn => ?_⟩
      refine h (.node .expression n) (List.mem_cons_of_mem _ (List.mem_flatMap.2 ⟨n, hn, ?_⟩))
      simp
  | ifExp test body orelse =>
      exact .ifExp (h (.node .expression test) (by simp)) (h (.node .expression body) (by simp))
        (h (.node .expression orelse) (by simp))
  | starred value => exact .starred (h (.node .expression value) (by simp))
  | slice lower upper =>
      exact .slice (fun n hn => h (.node .expression n) (by simp [Option.mem_def.1 hn]))
        (fun n hn => h (.node .expression n) (by simp [Option.mem_def.1 hn])) (by simp)
  | strided lower upper step =>
      exact .slice (fun n hn => h (.node .expression n) (by simp [Option.mem_def.1 hn]))
        (fun n hn => h (.node .expression n) (by simp [Option.mem_def.1 hn]))
        (fun n hn => h (.node .expression n) (by simp [Option.mem_def.1 hn]))
  | indices hne hlisted => exact .several hne (listed hlisted h)
  | keyword hfree value =>
      refine .keyword ?_ (h (.node .expression value) (by simp))
      simpa using ⟨(h (.term _) (by simp)).1 rfl, hfree⟩
  | keywords value => exact .keyword (by simp) (h (.node .expression value) (by simp))
  | row hne hlisted => exact .item (.tuple (listed hlisted h))

/-- From spelled lexemes, printable parts are read. -/
def shapes (keep : Retention) : Account keep where
  Reads c rs c' := c.Spelled → c'.Spelled ∧ ∀ r ∈ rs, r.Shaped
  nil c spelled := ⟨spelled, by simp⟩
  append first second spelled := by
    obtain ⟨spelled, shaped⟩ := first spelled
    obtain ⟨spelled, shaped'⟩ := second spelled
    exact ⟨spelled, fun r hr => (List.mem_append.1 hr).elim (shaped r) (shaped' r)⟩
  word hkind spelled := by
    have hcurrent := spelled _ List.mem_cons_self
    exact ⟨spelled.advance, List.forall_mem_singleton.2 ⟨hcurrent.name, hcurrent.number⟩⟩
  node read production hspan spelled := by
    obtain ⟨spelled, shaped⟩ := read spelled
    exact ⟨spelled, List.forall_mem_singleton.2 (production.printable shaped _)⟩
  bracketed {c c' n} read spelled := by
    obtain ⟨spelled, shaped⟩ := read spelled
    have hn : Printable false .item n := shaped (.node .item n) (by simp)
    exact ⟨spelled, List.forall_mem_singleton.2 hn.whole_of_item⟩
  recast h read spelled := by
    obtain ⟨spelled, shaped⟩ := read spelled
    exact ⟨spelled, List.forall_mem_singleton.2 (printable_of_permits h (shaped _ List.mem_cons_self))⟩

theorem Accounts.yields {keep : Retention} {p : Parser Node} {role : Role}
    (h : Accounts (shapes keep) p fun n => [.node role n]) : Yields p (Printable false role.part) :=
  fun _ _ _ spelled run => (h run spelled).imp_right (· _ List.mem_cons_self)

theorem yields_anyTest (keep : Retention) : Yields (anyTest keep) (Printable false .whole) :=
  Accounts.yields accounts_anyTest

/-! ### Parameters -/

theorem yields_parameter (keep : Retention) (allowDefault : Bool) :
    Yields (parameter keep allowDefault) (PrintableParameter false allowDefault) := by
  intro c a c' spelled run
  simp [parameter] at run
  obtain ⟨⟨hname, hfree⟩, ⟨hdefault, default, hvalue, rfl⟩ | ⟨_, rfl, rfl⟩⟩ := run
  · obtain ⟨later, shape⟩ := yields_anyTest keep spelled.advance.advance hvalue
    refine ⟨later, .arg (spelled.identifier hname (by simpa using hfree)) ?_⟩
    simpa [hdefault] using shape
  · exact ⟨spelled.advance, .arg (spelled.identifier hname (by simpa using hfree)) (by simp)⟩

/-- The parameters read so far can be printed. -/
structure Parameters.Printable (ps : Parameters) : Prop where
  args : ∀ a ∈ ps.args, PrintableParameter false true a
  vararg : ∀ a ∈ ps.vararg, PrintableParameter false false a
  kwonlyargs : ∀ a ∈ ps.kwonlyargs, PrintableParameter false true a
  kwarg : ∀ a ∈ ps.kwarg, PrintableParameter false false a

theorem yields_parameterItem (keep : Retention) {ps : Parameters} (hps : ps.Printable) :
    Yields (parameterItem keep ps) Parameters.Printable := by
  intro c ps' c' spelled run
  simp [parameterItem] at run
  rcases run with ⟨_, a, ha, rfl⟩ | ⟨_, ⟨_, _, ⟨_, rfl, rfl⟩ | ⟨_, a, ha, rfl⟩⟩ |
    ⟨_, _, a, middle, ha, ⟨_, rfl, rfl⟩ | ⟨_, rfl, rfl⟩⟩⟩
  · obtain ⟨later, shape⟩ := yields_parameter keep _ spelled.advance ha
    exact ⟨later, { hps with kwarg := by simpa using shape }⟩
  · exact ⟨spelled.advance, { hps with }⟩
  · obtain ⟨later, shape⟩ := yields_parameter keep _ spelled.advance ha
    exact ⟨later, { hps with vararg := by simpa using shape }⟩
  · obtain ⟨later, shape⟩ := yields_parameter keep _ spelled ha
    refine ⟨later, { hps with kwonlyargs := List.forall_mem_append.2 ⟨hps.kwonlyargs, ?_⟩ }⟩
    simpa using shape
  · obtain ⟨later, shape⟩ := yields_parameter keep _ spelled ha
    refine ⟨later, { hps with args := List.forall_mem_append.2 ⟨hps.args, ?_⟩ }⟩
    simpa using shape

theorem yields_parameterItems (keep : Retention) (n : Nat) : ∀ {ps : Parameters}, ps.Printable →
    Yields (parameterItems keep n ps) Parameters.Printable := by
  induction n with
  | zero =>
      intro ps hps c ps' c' spelled run
      simp only [parameterItems, pure_ok] at run
      obtain ⟨rfl, rfl⟩ := run
      exact ⟨spelled, hps⟩
  | succ n ih =>
      intro ps hps c ps' c' spelled run
      simp [parameterItems] at run
      rcases run with ⟨_, rfl, rfl⟩ | ⟨_, ps₁, middle, hitem, run⟩
      · exact ⟨spelled, hps⟩
      · obtain ⟨later, shape⟩ := yields_parameterItem keep hps spelled hitem
        rcases run with ⟨_, rfl, rfl⟩ | ⟨_, rest⟩
        · exact ⟨later, shape⟩
        · exact ih shape later.advance rest

theorem yields_parameters (keep : Retention) :
    Yields (parameters keep) (PrintableParameters false) := by
  intro c a c' spelled run
  simp [parameters] at run
  obtain ⟨ps, middle, hitems, _, run⟩ := run
  obtain ⟨later, shape⟩ := yields_parameterItems keep _ ⟨by simp, by simp, by simp, by simp⟩
    spelled hitems
  rcases run with ⟨_, rfl, rfl⟩ | ⟨_, run⟩
  · exact ⟨later, .arguments shape.args shape.vararg shape.kwonlyargs shape.kwarg⟩
  · obtain ⟨rfl, span, rfl, _⟩ := span_of_closeFull run
    exact ⟨later, .arguments shape.args shape.vararg shape.kwonlyargs shape.kwarg⟩

/-! ### Statements -/

/-- A portion of a statement that can be printed. -/
def Portion.Shaped : Portion → Prop
  | .word => True
  | .expression role n => Printable false role.part n
  | .signature name args => IsIdentifier name ∧ PrintableParameters false args
  | .statement n => PrintableStatement false n
  | .block body => ∀ s ∈ body, PrintableStatement false s

theorem Otherwise.printable {orelse : List Node} {ps : List Portion} (h : Otherwise orelse ps)
    (shaped : ∀ p ∈ ps, p.Shaped) : ∀ s ∈ orelse, PrintableStatement false s := by
  cases h with
  | none => simp
  | block body => exact shaped (.block _) (by simp)
  | elif n => exact List.forall_mem_singleton.2 (shaped (.statement n) (by simp))

/-- What is made of portions that can be printed can be printed. -/
theorem Sentence.printable {kind : Kind Node} {ps : List Portion} (sentence : Sentence kind ps)
    (h : ∀ p ∈ ps, p.Shaped) (span : Option Span) : PrintableStatement false ⟨kind, span⟩ := by
  cases sentence with
  | word hkind =>
      rcases hkind with rfl | rfl | rfl
      · exact .pass
      · exact .breakStmt
      · exact .continueStmt
  | returnStmt value =>
      exact .returnStmt fun v hv => h (.expression .row v) (by simp [Option.mem_def.1 hv])
  | augAssign target op value =>
      exact .augAssign (h (.expression .row target) (by simp)) (h (.expression .row value) (by simp))
  | assign first rest value =>
      have parts : ∀ v ∈ rest ++ [value], Printable false .item v := fun v hv =>
        h (.expression .row v) (List.mem_cons_of_mem _ (List.mem_flatMap.2 ⟨v, hv, by simp⟩))
      refine .assign (by simp) ?_ (parts value (by simp))
      exact List.forall_mem_cons.2 ⟨h _ List.mem_cons_self, fun v hv => parts v (by simp [hv])⟩
  | exprStmt value => exact .exprStmt (h _ List.mem_cons_self)
  | ifStmt test body hrest =>
      exact .ifStmt (h (.expression .expression test) (by simp)) (by simp) (h (.block body) (by simp))
        (hrest.printable fun p hp => h p (by simp [hp]))
  | whileLoop test body hrest =>
      exact .whileLoop (h (.expression .expression test) (by simp)) (by simp) (h (.block body) (by simp))
        (hrest.printable fun p hp => h p (by simp [hp]))
  | forLoop target iter body hrest =>
      exact .forLoop ⟨h (.expression .row target) (by simp), by simp⟩ (h (.expression .row iter) (by simp))
        (by simp) (h (.block body) (by simp)) (hrest.printable fun p hp => h p (by simp [hp]))
  | functionDef name args body =>
      obtain ⟨hname, hargs⟩ := h (.signature name args) List.mem_cons_self
      exact .functionDef hname hargs (by simp) (h (.block body) (by simp))

/-- From spelled lexemes, printable statements are read. -/
def statementShapes (keep : Retention) : StatementAccount keep where
  expressions := shapes keep
  Reads c ps c' := c.Spelled → c'.Spelled ∧ ∀ p ∈ ps, p.Shaped
  nil c spelled := ⟨spelled, by simp⟩
  append first second spelled := by
    obtain ⟨spelled, shaped⟩ := first spelled
    obtain ⟨spelled, shaped'⟩ := second spelled
    exact ⟨spelled, List.forall_mem_append.2 ⟨shaped, shaped'⟩⟩
  skip _ spelled := ⟨spelled.advance, by simp⟩
  word _ spelled := ⟨spelled.advance, by simp [Portion.Shaped]⟩
  expression read spelled :=
    (read spelled).imp_right fun shaped => List.forall_mem_singleton.2 (shaped _ List.mem_cons_self)
  signature _ hname _ run _ spelled := by
    have hidentifier := spelled.advance.identifier hname.1 hname.2
    obtain ⟨later, shape⟩ := yields_parameters keep spelled.advance.advance.advance run
    exact ⟨later.advance, List.forall_mem_singleton.2 ⟨hidentifier, shape⟩⟩
  statement read sentence spelled :=
    (read spelled).imp_right fun shaped => List.forall_mem_singleton.2 (sentence.printable shaped _)
  block {c c' body} read _ spelled := by
    refine (read spelled).imp_right fun shaped => List.forall_mem_singleton.2 fun s hs => ?_
    exact shaped (.statement s) (List.mem_map_of_mem hs)

theorem yields_module (keep : Retention) : Yields (module keep) (PrintableModule false) := by
  intro c a c' spelled run
  obtain ⟨body, rfl, read⟩ := tells_module (A := statementShapes keep) run
  obtain ⟨last, shaped⟩ := read spelled
  exact ⟨last, .module fun s hs => shaped (.statement s) (List.mem_map_of_mem hs)⟩

theorem spelled_ofLexemes {lexemes : List Lexeme} (h : ∀ l ∈ lexemes, l.Spelled) :
    (Cursor.ofLexemes lexemes).Spelled := by
  cases lexemes with
  | nil =>
      intro l hl
      rw [List.mem_singleton.1 hl]
      exact ⟨by decide, fun hkind => absurd hkind (by decide)⟩
  | cons first rest => exact h

end Grammar

open Grammar

/-- Every text that can be read is read as a module that can be printed. -/
theorem parseModule_printable {source : String} {keep : Retention} {tree : Node}
    (h : parseModule source keep = .ok tree) : PrintableModule false tree := by
  obtain ⟨tokens, htokens, c', run⟩ := parseModule_ok.1 h
  refine (yields_module keep (spelled_ofLexemes fun l hl => ?_) run).2
  obtain ⟨t, ht, rfl⟩ := List.mem_map.1 hl
  have spelled := spelled_of_tokenize htokens t (List.mem_of_mem_filter ht)
  exact ⟨spelled.name, spelled.number⟩

/-- Reading a text leaves its comments out. -/
theorem parseModule_plain {source : String} {keep : Retention} {tree : Node}
    (h : parseModule source keep = .ok tree) : tree.Plain :=
  (parseModule_printable h).isCode.plain

end TriviaTree
