import Mathlib
import TriviaTree.Proofs.Grammar.Phrase

/-!
The names of an expression are the names among its words.

An account of the grammar in words tells for every node from which words it may be read (`spellings`).
Here these are the words whose names are those that the node holds, no `def` among them, all brackets
matched (`Utters`).
-/

set_option autoImplicit false

namespace TriviaTree

/-! ### The names a tree holds -/

/-- The name that a node holds itself. -/
def Kind.ownName? {α : Type} : Kind α → Option String
  | .name id | .attribute _ id | .functionDef id _ _ | .arg id _ => some id
  | .keyword id _ => id
  | _ => none

/-- The names that a tree holds. -/
def Node.identifiers (n : Node) : Multiset String :=
  ↑(n.preorder.filterMap (·.kind.ownName?))

/-- The names that several trees hold. -/
def identifiersOf (ns : List Node) : Multiset String :=
  (ns.map Node.identifiers).sum

@[simp] theorem identifiersOf_nil : identifiersOf [] = 0 := rfl

@[simp] theorem identifiersOf_cons (n : Node) (ns : List Node) :
    identifiersOf (n :: ns) = n.identifiers + identifiersOf ns := by
  simp [identifiersOf]

@[simp] theorem identifiersOf_append (ns ns' : List Node) :
    identifiersOf (ns ++ ns') = identifiersOf ns + identifiersOf ns' := by
  simp [identifiersOf]

/-- A node holds its own name and those of its children. -/
theorem Node.identifiers_mk (kind : Kind Node) (span : Option Span) :
    (Node.mk kind span).identifiers = ↑kind.ownName?.toList + identifiersOf kind.children := by
  have hchildren : ∀ ns : List Node, identifiersOf ns =
      ↑((ns.map preorder).flatten.filterMap (·.kind.ownName?)) := by
    intro ns
    induction ns with
    | nil => rfl
    | cons n ns ih => simp [ih, identifiers]
  rw [identifiers, preorder_eq, hchildren, List.filterMap_cons]
  cases hname : kind.ownName? with
  | none => simp [Node.children]
  | some id => simp [Node.children]

theorem identifiersOf_perm {ns ns' : List Node} (h : ns.Perm ns') :
    identifiersOf ns = identifiersOf ns' :=
  (h.map Node.identifiers).sum_eq

namespace Grammar

/-! ### What is read, in words -/

/-- The words of what is read, where `P` tells those of a node. -/
inductive Spells (P : Role → Node → List Word → Prop) : List Read → List Word → Prop
  | nil : Spells P [] []
  | word (w : Word) {rs : List Read} {ws : List Word} (rest : Spells P rs ws) :
      Spells P (.word w :: rs) (w :: ws)
  | node {role : Role} {n : Node} {first : List Word} {rs : List Read} {ws : List Word}
      (h : P role n first) (rest : Spells P rs ws) : Spells P (.node role n :: rs) (first ++ ws)

section Spells

variable {P : Role → Node → List Word → Prop} {role : Role} {n : Node} {rs rs' : List Read}
  {ws ws' : List Word}

theorem Spells.append (first : Spells P rs ws) (second : Spells P rs' ws') :
    Spells P (rs ++ rs') (ws ++ ws') := by
  induction first with
  | nil => exact second
  | word w _ ih => exact .word w ih
  | node h _ ih =>
      rw [List.append_assoc]
      exact .node h ih

theorem Spells.split (h : Spells P (rs ++ rs') ws) :
    ∃ ws₁ ws₂, ws = ws₁ ++ ws₂ ∧ Spells P rs ws₁ ∧ Spells P rs' ws₂ := by
  induction rs generalizing ws with
  | nil => exact ⟨[], ws, rfl, .nil, h⟩
  | cons r rs ih =>
      cases h with
      | word w rest =>
          obtain ⟨ws₁, ws₂, rfl, first, second⟩ := ih rest
          exact ⟨w :: ws₁, ws₂, rfl, .word w first, second⟩
      | @node _ _ own _ _ h rest =>
          obtain ⟨ws₁, ws₂, rfl, first, second⟩ := ih rest
          exact ⟨own ++ ws₁, ws₂, (List.append_assoc _ _ _).symm, .node h first, second⟩

theorem spells_node_iff : Spells P [.node role n] ws ↔ P role n ws := by
  refine ⟨fun h => ?_, fun h => by simpa using Spells.node h .nil⟩
  cases h with
  | node h rest =>
      cases rest
      rwa [List.append_nil]

end Spells

/-- The words that the lexemes stand for are those of what is read. -/
def spellings (keep : Retention) {P : Role → Node → List Word → Prop}
    (hnode : ∀ {role : Role} {kind : Kind Node} {rs : List Read} {ws : List Word}
      (span : Option Span), Production role kind rs → Spells P rs ws → P role ⟨kind, span⟩ ws)
    (hbracketed : ∀ {n : Node} {ws : List Word},
      Spells P [.op "(", .node .item n, .op ")"] ws → P .expression n ws)
    (hrecast : ∀ {role role' : Role} {n : Node} {ws : List Word}, role.permits role' = true →
      P role n ws → P role' n ws) : Account keep where
  Reads c rs c' := c.Ended → ∃ ws, c.words = ws ++ c'.words ∧ Spells P rs ws
  nil c _ := ⟨[], rfl, .nil⟩
  append first second ended := by
    obtain ⟨ws, hwords, spells⟩ := first ended
    obtain ⟨ws', hwords', spells'⟩ := second (ended.of_words hwords)
    exact ⟨ws ++ ws', by rw [hwords, hwords', List.append_assoc], spells.append spells'⟩
  word {c} hkind ended := by
    refine ⟨[c.current.word], ended.words_advance ?_, .word _ .nil⟩
    intro h
    rw [h] at hkind
    cases hkind
  node read production _ ended := by
    obtain ⟨ws, hwords, spells⟩ := read ended
    exact ⟨ws, hwords, spells_node_iff.2 (hnode _ production spells)⟩
  bracketed read ended := by
    obtain ⟨ws, hwords, spells⟩ := read ended
    exact ⟨ws, hwords, spells_node_iff.2 (hbracketed spells)⟩
  recast h read ended := by
    obtain ⟨ws, hwords, spells⟩ := read ended
    exact ⟨ws, hwords, spells_node_iff.2 (hrecast h (spells_node_iff.1 spells))⟩

/-! ### The names of productions -/

/-- In these roles there may be commas outside of brackets. -/
def Role.commas : Role → Bool
  | .subscript | .row => true
  | _ => false

/-- A keyword that stands for a constant. -/
theorem keyword_of_constant {text : String} {value : Constant}
    (h : keywordConstant? text = some value) :
    isKeyword text = true ∧ isPlain false (.name, text) = true := by
  unfold keywordConstant? at h
  split at h <;> cases h <;> decide

theorem namesOf_eq_zero {ws : List Word} (h : ∀ w ∈ ws, w.name = 0) : namesOf ws = 0 := by
  induction ws with
  | nil => rfl
  | cons w ws ih => simp [h w, ih (List.forall_mem_cons.1 h).2]

theorem Listed.names {α : Type} {reads : α → List Read} {xs : List α} {rs : List Read}
    (h : Listed reads xs rs) (hreads : ∀ x, namesOf (Read.words (reads x)) = 0) :
    namesOf (Read.words rs) = 0 := by
  induction h with
  | nil => rfl
  | last x => exact hreads x
  | cons x _ ih => simp [hreads, ih, Word.name]

/-- Of the words that a node is made of one at most is a name: its own. -/
theorem Production.names {role : Role} {kind : Kind Node} {rs : List Read}
    (production : Production role kind rs) :
    namesOf (Read.words rs) = (kind.ownName?.toList : Multiset String) := by
  cases production with
  | name hfree | member _ hfree | keyword hfree => simp [Word.name, hfree, Kind.ownName?]
  | keywordConstant h => simp [Word.name, (keyword_of_constant h).1, Kind.ownName?]
  | string text texts value =>
      have hwords := Read.words_map_word ((text :: texts).map fun text => (TokenKind.str, text))
      rw [List.map_map] at hwords
      refine (congrArg namesOf hwords).trans (namesOf_eq_zero fun w hw => ?_)
      obtain ⟨text, _, rfl⟩ := List.mem_map.1 hw
      rfl
  | tuple h | list h | set _ h | indices _ h | row _ h =>
      simp [Word.name, h.names (fun _ => rfl), Kind.ownName?]
  | dict h => simp [Word.name, h.names, pairReads, Kind.ownName?]
  | call h => simp [Word.name, h.names, argumentReads, Kind.ownName?]
  | unaryOp operator operand => cases operator <;> rfl
  | compare left =>
      have hoperator : ∀ operator : CompareOp, ∀ w ∈ operator.words, w.name = 0 := by
        intro operator
        cases operator <;> decide
      rw [Read.words, Read.words_flatMap]
      refine namesOf_eq_zero fun w hw => ?_
      obtain ⟨step, _, hw⟩ := List.mem_flatMap.1 hw
      exact hoperator step.1 w (by simpa [compareReads] using hw)
  | boolOp operator first =>
      rw [Read.words, Read.words_flatMap]
      refine namesOf_eq_zero fun w hw => ?_
      obtain ⟨n, _, hw⟩ := List.mem_flatMap.1 hw
      obtain rfl := List.mem_singleton.1 hw
      cases operator <;> decide
  | ifExp => rfl
  | _ => simp [Word.name, Kind.ownName?]

/-- What makes up a phrase: plain words, and what stands between brackets. -/
inductive Phrased : Bool → List Read → Prop
  | nil {commas : Bool} : Phrased commas []
  | word {commas : Bool} {w : Word} {rs : List Read} (h : isPlain commas w = true)
      (rest : Phrased commas rs) : Phrased commas (.word w :: rs)
  | node {commas : Bool} {role : Role} {rs : List Read} (n : Node)
      (h : role.commas = true → commas = true) (rest : Phrased commas rs) :
      Phrased commas (.node role n :: rs)
  | enclosed {commas : Bool} {opener closer : String} {rs : List Read}
      (hpair : (opener, closer) ∈ bracketPairs) (inside : Phrased true rs) :
      Phrased commas (.op opener :: (rs ++ [.op closer]))

/-- The words of a node are a phrase with its names. -/
structure Utters (role : Role) (n : Node) (ws : List Word) : Prop where
  ne_nil : ws ≠ []
  phrase : Phrase role.commas ws n.identifiers

theorem Phrased.phrase {commas : Bool} {rs : List Read} {ws : List Word} (h : Phrased commas rs)
    (spells : Spells Utters rs ws) :
    Phrase commas ws (namesOf (Read.words rs) + identifiersOf (Read.nodes rs)) := by
  induction h generalizing ws with
  | nil =>
      cases spells
      exact .nil
  | word h _ ih =>
      cases spells with
      | word w rest => simpa [add_assoc] using (Phrase.word h).append (ih rest)
  | node n h _ ih =>
      cases spells with
      | node utters rest => simpa [add_left_comm] using (utters.phrase.relax h).append (ih rest)
  | enclosed hpair _ ih =>
      cases spells with
      | word _ rest =>
          obtain ⟨ws, ws', rfl, inside, last⟩ := rest.split
          cases last with
          | word _ none =>
              cases none
              simpa [Word.name] using (ih inside).enclosed hpair

theorem Listed.phrased {α : Type} {reads : α → List Read} {xs : List α} {rs : List Read}
    (h : Listed reads xs rs) (hreads : ∀ x rest, Phrased true rest → Phrased true (reads x ++ rest)) :
    Phrased true rs := by
  induction h with
  | nil => exact .nil
  | last x => simpa using hreads x [] .nil
  | cons x _ ih => exact hreads x _ (.word (by decide) ih)

theorem phrased_map_word {commas : Bool} {ws : List Word} (h : ∀ w ∈ ws, isPlain commas w = true)
    {rs : List Read} (rest : Phrased commas rs) : Phrased commas (ws.map .word ++ rs) := by
  induction ws with
  | nil => exact rest
  | cons w ws ih =>
      exact .word (h w List.mem_cons_self) (ih (List.forall_mem_cons.1 h).2)

theorem phrased_part (part : Option Node) {rs : List Read} (rest : Phrased false rs) :
    Phrased false (part.toList.map (.node .expression) ++ rs) := by
  cases part with
  | none => exact rest
  | some n => exact .node n (by decide) rest

theorem Production.phrased {role : Role} {kind : Kind Node} {rs : List Read}
    (production : Production role kind rs) : Phrased role.commas rs := by
  have single : ∀ n : Node, Phrased false [.node .expression n] := fun n => .node n (by decide) .nil
  have item : ∀ {role : Role} (n : Node) (rest : List Read), Phrased true rest →
      Phrased true ([.node role n] ++ rest) := fun n _ rest => .node n (fun _ => rfl) rest
  cases production with
  | name hfree => exact .word (isPlain_of_name hfree) .nil
  | keywordConstant h => exact .word (keyword_of_constant h).2 .nil
  | int | float => exact .word (by simp [isPlain, opensBracket, closesBracket]) .nil
  | string text texts value =>
      have hplain : ∀ w ∈ (text :: texts).map fun text => (TokenKind.str, text),
          isPlain false w = true := by
        simp [isPlain, opensBracket, closesBracket]
      have whole := phrased_map_word hplain .nil
      rwa [List.map_map, List.append_nil] at whole
  | tuple h | list h | set _ h => exact .enclosed (by decide) (h.phrased item)
  | dict h =>
      refine .enclosed (by decide) (h.phrased fun pair rest hrest => ?_)
      exact .node _ (by decide) (.word (by decide) (.node _ (by decide) hrest))
  | call h =>
      exact .node _ (by decide) (.enclosed (by decide) (h.phrased fun argument => item argument.2))
  | subscript value index =>
      have inside : Phrased true [.node .subscript index] := .node _ (fun _ => rfl) .nil
      exact .node _ (by decide) (.enclosed (by decide) inside)
  | member value hfree => exact .node _ (by decide) (.word (by decide) (.word (isPlain_of_name hfree) .nil))
  | binOp left right operator =>
      exact .node _ (by decide) (.word (by cases operator <;> decide) (single right))
  | unaryOp operator operand =>
      exact phrased_map_word (by cases operator <;> decide) (single operand)
  | @compare left rest hne =>
      refine .node _ (by decide) ?_
      clear hne
      induction rest with
      | nil => exact .nil
      | cons step rest ih =>
          rw [List.flatMap_cons, compareReads, List.append_assoc]
          refine phrased_map_word ?_ (.node _ (by decide) ih)
          cases step.1 <;> decide
  | @boolOp operator first rest hne =>
      refine .node _ (by decide) ?_
      clear hne
      induction rest with
      | nil => exact .nil
      | cons n rest ih => exact .word (by cases operator <;> decide) (.node n (by decide) ih)
  | ifExp test body orelse =>
      exact .node _ (by decide) (.word (by decide) (.node _ (by decide) (.word (by decide) (single orelse))))
  | starred value => exact .word (by decide) (single value)
  | slice lower upper =>
      refine phrased_part lower (.word (by decide) ?_)
      simpa using phrased_part upper .nil
  | strided lower upper step =>
      rw [List.append_assoc]
      refine phrased_part lower (.word (by decide) (phrased_part upper (.word (by decide) ?_)))
      simpa using phrased_part step .nil
  | keyword hfree value => exact .word (isPlain_of_name hfree) (.word (by decide) (single value))
  | keywords value => exact .word (by decide) (single value)
  | indices _ h | row _ h => exact h.phrased item

theorem Spells.ne_nil {rs : List Read} {ws : List Word} (spells : Spells Utters rs ws) (h : rs ≠ []) :
    ws ≠ [] := by
  cases spells with
  | nil => exact absurd rfl h
  | word => simp
  | node utters => simp [utters.ne_nil]

/-- The words that are read are phrases with the names of the nodes that are read from them. -/
def phrases (keep : Retention) : Account keep :=
  spellings keep (P := Utters)
    (fun span production spells => by
      refine ⟨spells.ne_nil production.ne_nil, ?_⟩
      rw [Node.identifiers_mk, identifiersOf_perm production.children_perm, ← production.names]
      exact production.phrased.phrase spells)
    (fun {n} _ spells => by
      have inside : Phrased true [.node .item n] := .node _ (fun _ => rfl) .nil
      have whole : Phrased false [.op "(", .node .item n, .op ")"] := .enclosed (by decide) inside
      refine ⟨spells.ne_nil (by simp), ?_⟩
      simpa [Word.name, Role.commas] using whole.phrase spells)
    (fun {role role'} _ _ h utters => by
      refine ⟨utters.ne_nil, utters.phrase.relax ?_⟩
      cases role <;> cases role' <;> simp_all [Role.permits, Role.commas])

end Grammar

end TriviaTree
