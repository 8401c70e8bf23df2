import Mathlib
import TriviaTree.Proofs.Grammar.Identifiers
import TriviaTree.Proofs.Grammar.Shape

/-!
Which blocks are empty.

The grammar opens a block where it finds an indentation and reads statements up to the dedent, and it
does not ask that there is one. The scanner sees to it: an indentation is followed by code
(`indent_leads`), for blank lines have none. The exception is a backslash right after the indentation,
which joins the line to the next. When that one holds no code either, the block has no statement.

`blocks_filled` says that there are no other empty blocks: where a backslash after an indentation has
code on its line, every block of the tree has a statement.
-/

set_option autoImplicit false

namespace TriviaTree

/-! ### Trees without empty blocks -/

/-- The block of a statement and the one after its `else`. -/
def Kind.blocks? : Kind Node → Option (List Node × List Node)
  | .functionDef _ _ body => some (body, [])
  | .ifStmt _ body orelse | .whileLoop _ body orelse | .forLoop _ _ body orelse =>
      some (body, orelse)
  | _ => none

/-- No block of the tree is empty. -/
def Node.Filled (n : Node) : Prop :=
  ∀ m ∈ n.preorder, ∀ body orelse, m.kind.blocks? = some (body, orelse) → body ≠ []

theorem Node.filled_iff {n : Node} :
    n.Filled ↔ (∀ body orelse, n.kind.blocks? = some (body, orelse) → body ≠ []) ∧
      ∀ c ∈ n.children, c.Filled :=
  forall_mem_preorder

section Printable

variable {strict : Bool}

theorem Printable.filled {part : Part} {n : Node} (h : Printable strict part n) : n.Filled := by
  induction h with
  | item _ ih | index _ ih | single _ _ ih => exact ih
  | _ =>
      refine Node.filled_iff.2 ⟨by simp [Kind.blocks?], ?_⟩
      simp only [Node.children, Kind.children, Kind.contents, List.flatten_cons, List.flatten_nil,
        List.append_nil, List.mem_append, List.mem_cons, List.not_mem_nil, Option.mem_toList]
      grind

theorem PrintableParameter.filled {defaults : Bool} {n : Node}
    (h : PrintableParameter strict defaults n) : n.Filled := by
  cases h with
  | arg _ hdefault =>
      refine Node.filled_iff.2 ⟨by simp [Kind.blocks?], fun c hc => ?_⟩
      exact (hdefault c (by simpa [Node.children, Kind.children, Kind.contents] using hc)).2.filled

theorem PrintableParameters.filled {n : Node} (h : PrintableParameters strict n) : n.Filled := by
  cases h with
  | arguments hargs hvararg hkwonlyargs hkwarg =>
      refine Node.filled_iff.2 ⟨by simp [Kind.blocks?], fun c hc => ?_⟩
      simp only [Node.children, Kind.children, Kind.contents, List.flatten_cons, List.flatten_nil,
        List.append_nil, List.mem_append, Option.mem_toList] at hc
      rcases hc with hc | hc | hc | hc
      · exact (hargs c hc).filled
      · exact (hvararg c hc).filled
      · exact (hkwonlyargs c hc).filled
      · exact (hkwarg c hc).filled

/-- A statement has no empty block if its own is not empty and there is none in it. -/
theorem PrintableStatement.filled {n : Node} (h : PrintableStatement strict n)
    (hblocks : ∀ body orelse, n.kind.blocks? = some (body, orelse) → body ≠ [] ∧
      (∀ s ∈ body, PrintableStatement strict s → s.Filled) ∧
      ∀ s ∈ orelse, PrintableStatement strict s → s.Filled) : n.Filled := by
  refine Node.filled_iff.2 ⟨fun body orelse hself => (hblocks body orelse hself).1, fun c hc => ?_⟩
  cases h with
  | returnStmt hvalue =>
      exact (hvalue c (by simpa [Node.children, Kind.children, Kind.contents] using hc)).filled
  | pass | breakStmt | continueStmt =>
      simp [Node.children, Kind.children, Kind.contents] at hc
  | functionDef | ifStmt | whileLoop | forLoop =>
      obtain ⟨-, hbody, horelse⟩ := hblocks _ _ rfl
      simp only [Node.children, Kind.children, Kind.contents, List.flatten_cons, List.flatten_nil,
        List.append_nil, List.mem_append, List.mem_cons, List.not_mem_nil] at hc
      grind [Printable.filled, PrintableParameters.filled, PrintableTarget]
  | _ =>
      simp only [Node.children, Kind.children, Kind.contents, List.flatten_cons, List.flatten_nil,
        List.append_nil, List.mem_append, List.mem_cons, List.not_mem_nil] at hc
      grind [Printable.filled]

end Printable

namespace Grammar

/-! ### Blocks that begin with code -/

/-- After each indentation there is code. -/
def IndentsLead (ws : List Word) : Prop :=
  ∀ before text after, ws = before ++ (.indent, text) :: after →
    ∃ w rest, after = w :: rest ∧ w.1.isCode = true

/-- The words at the cursor come to an end, and their blocks begin with code. -/
structure Cursor.Leads (c : Cursor) : Prop where
  ended : c.Ended
  indents : IndentsLead c.words

theorem Shares.leads {c c' : Cursor} {ps : List Portion} (shares : Shares c ps c') (leads : c.Leads) :
    c'.Leads := by
  obtain ⟨ws, _, hwords, _⟩ := shares
  refine ⟨leads.ended.of_words hwords, fun before text after hsplit =>
    leads.indents (ws ++ before) text after ?_⟩
  rw [hwords, hsplit, List.append_assoc]

theorem Cursor.Leads.advance {c : Cursor} (leads : c.Leads) (hkind : c.current.kind ≠ .endMarker) :
    c.advance.Leads := by
  refine ⟨leads.ended.advance hkind, fun before text after hsplit =>
    leads.indents (c.current.word :: before) text after ?_⟩
  rw [leads.ended.words_advance hkind, hsplit, List.cons_append]

/-- Code stands after a line break and an indentation. -/
theorem Cursor.Leads.code_of_indent {c : Cursor} (leads : c.Leads)
    (newline : c.atKind .newline = true) (indent : c.advance.atKind .indent = true) :
    c.advance.advance.current.kind.isCode = true := by
  rw [Cursor.atKind, decide_eq_true_eq] at newline indent
  have inside := leads.advance (by simp [newline])
  have hwords := inside.ended.words_advance (by simp [indent])
  have hword : c.advance.current.word = (.indent, c.advance.current.text) := by
    rw [Lexeme.word, indent]
  obtain ⟨w, rest, hrest, hcode⟩ := inside.indents [] _ _ (by rw [hwords, hword]; rfl)
  have hcurrent : c.advance.advance.current.kind = w.1 := congrArg Prod.fst (word_of_words hrest)
  rw [hcurrent, hcode]

/-- A block is not empty, and there is no empty block in statements that can be printed. -/
def Portion.Full : Portion → Prop
  | .statement n => PrintableStatement false n → n.Filled
  | .block body => body ≠ [] ∧ ∀ s ∈ body, PrintableStatement false s → s.Filled
  | _ => True

theorem Otherwise.filled {orelse : List Node} {ps : List Portion} (h : Otherwise orelse ps)
    (full : ∀ p ∈ ps, p.Full) : ∀ s ∈ orelse, PrintableStatement false s → s.Filled := by
  cases h with
  | none => simp
  | block => exact (full (.block orelse) (by simp)).2
  | elif n => exact List.forall_mem_singleton.2 (full (.statement n) (by simp))

theorem Sentence.filled {kind : Kind Node} {ps : List Portion} (sentence : Sentence kind ps)
    (full : ∀ p ∈ ps, p.Full) {span : Option Span} (printable : PrintableStatement false ⟨kind, span⟩) :
    Node.Filled ⟨kind, span⟩ := by
  refine printable.filled fun body orelse hblocks => ?_
  cases sentence with
  | ifStmt _ _ h | whileLoop _ _ h | forLoop _ _ _ h =>
      cases hblocks
      obtain ⟨hne, hbody⟩ : Portion.Full (.block body) := full _ (by simp)
      exact ⟨hne, hbody, h.filled fun p hp => full p (by simp [hp])⟩
  | functionDef =>
      cases hblocks
      obtain ⟨hne, hbody⟩ : Portion.Full (.block body) := full _ (by simp)
      exact ⟨hne, hbody, by simp⟩
  | word h => rcases h with rfl | rfl | rfl <;> cases hblocks
  | _ => cases hblocks

/-- Where blocks begin with code they are full. -/
def fillings (keep : Retention) : StatementAccount keep where
  expressions := phrases keep
  Reads c ps c' := (shares keep).Reads c ps c' ∧ (c.Leads → ∀ p ∈ ps, p.Full)
  nil c := ⟨(shares keep).nil c, by simp⟩
  append first second := by
    refine ⟨(shares keep).append first.1 second.1, fun leads => ?_⟩
    exact List.forall_mem_append.2 ⟨first.2 leads, second.2 ((first.1 leads.ended).leads leads)⟩
  skip h := ⟨(shares keep).skip h, by simp⟩
  word h := ⟨(shares keep).word h, by simp [Portion.Full]⟩
  expression read := ⟨(shares keep).expression read, by simp [Portion.Full]⟩
  signature word hname opened run closed :=
    ⟨(shares keep).signature word hname opened run closed, by simp [Portion.Full]⟩
  statement read sentence := by
    refine ⟨(shares keep).statement read.1 sentence, fun leads => ?_⟩
    exact List.forall_mem_singleton.2 (sentence.filled (read.2 leads))
  block {c c' body} read hempty := by
    refine ⟨(shares keep).block read.1 hempty, fun leads => List.forall_mem_singleton.2 ⟨?_, ?_⟩⟩
    · -- An indented block begins with code, so that there is a statement in it.
      rintro rfl
      obtain ⟨newline, indent, hkind⟩ := hempty rfl
      have hcode := leads.code_of_indent newline indent
      revert hkind hcode
      cases c.advance.advance.current.kind <;> decide
    · exact fun s hs => read.2 leads (.statement s) (List.mem_map_of_mem hs)

theorem filled_module {keep : Retention} {c c' : Cursor} {tree : Node} (leads : c.Leads)
    (run : module keep c = .ok (tree, c')) (printable : PrintableModule false tree) :
    tree.Filled := by
  obtain ⟨body, rfl, -, full⟩ := tells_module (A := fillings keep) run
  cases printable with | module hprintable
  refine Node.filled_iff.2 ⟨by simp [Kind.blocks?], fun s hs => ?_⟩
  have hmem : s ∈ body := by simpa [Node.children, Kind.children, Kind.contents] using hs
  exact full leads (.statement s) (List.mem_map_of_mem hmem) (hprintable s hmem)

end Grammar

/-- Where code comes first after each indentation among the tokens, it does among the words. -/
theorem indentsLead_codeWords {tokens : List Token}
    (h : ∀ before t after, tokens = before ++ t :: after → t.kind = .indent →
      leadsWithCode after = true) : Grammar.IndentsLead (codeWords tokens) := by
  intro before text after hsplit
  obtain ⟨before', between, hfilter, -, hbetween⟩ := List.map_eq_append_iff.1 hsplit
  obtain ⟨t, after', rfl, hword, rfl⟩ := List.map_eq_cons_iff.1 hbetween
  obtain ⟨first, later, rfl, -, hlater⟩ := List.filter_eq_append_iff.1 hfilter
  obtain ⟨comments, last, rfl, -, -, rfl⟩ := List.filter_eq_cons_iff.1 hlater
  have hcode := h (first ++ comments) t last (by simp) (congrArg Prod.fst hword)
  rw [leadsWithCode, ← List.head?_filter] at hcode
  cases hrest : last.filter (·.kind ≠ .comment) with
  | nil =>
      rw [hrest] at hcode
      cases hcode
  | cons t' rest =>
      rw [hrest] at hcode
      exact ⟨t'.word, rest.map Token.word, rfl, hcode⟩

/-- Code comes next wherever a backslash follows an indentation. -/
def joinsLead (source : List Char) : List Token → Bool
  | [] => true
  | t :: after =>
      (t.kind ≠ .indent || (Text.dropBytes t.stop source).bind List.head? ≠ some '\\' ||
        leadsWithCode after) && joinsLead source after

theorem leadsWithCode_of_joinsLead {source : List Char} {tokens before after : List Token} {t : Token}
    (h : joinsLead source tokens = true) (hsplit : tokens = before ++ t :: after)
    (hindent : t.kind = .indent)
    (hslash : (Text.dropBytes t.stop source).bind List.head? = some '\\') :
    leadsWithCode after = true := by
  induction before generalizing tokens with
  | nil =>
      rw [hsplit, List.nil_append, joinsLead, Bool.and_eq_true] at h
      simpa [hindent, hslash] using h.1
  | cons first before ih =>
      rw [hsplit, List.cons_append, joinsLead, Bool.and_eq_true] at h
      exact ih h.2 rfl

open Grammar in
/-- Every block of a tree has a statement, if code comes next wherever a backslash follows an
indentation. -/
theorem blocks_filled {source : String} {keep : Retention} {tokens : List Token} {tree : Node}
    (htokens : tokenize source = .ok tokens) (h : parseModule source keep = .ok tree)
    (hjoined : joinsLead source.toList tokens = true) :
    ∀ n ∈ tree.preorder, ∀ body orelse, n.kind.blocks? = some (body, orelse) → body ≠ [] := by
  obtain ⟨tokens', htokens', c', run⟩ := parseModule_ok.1 h
  obtain rfl : tokens = tokens' := Except.ok.inj (htokens.symm.trans htokens')
  obtain ⟨hwords, ended⟩ := ended_of_tokenize htokens _ rfl
  refine filled_module ⟨ended, ?_⟩ run (parseModule_printable h)
  rw [hwords]
  refine indentsLead_codeWords fun before t after hsplit hindent => ?_
  by_cases hslash : (Text.dropBytes t.stop source.toList).bind List.head? = some '\\'
  · exact leadsWithCode_of_joinsLead hjoined hsplit hindent hslash
  · exact indent_leads htokens hsplit hindent hslash

theorem blocks_filled_joined_line :
    let source := "while a:\n  \\\n  b\n  if c: # d\n\n    # e\n    f\nelse:\n  g"
    ∃ tokens tree, tokenize source = .ok tokens ∧ parseModule source .native = .ok tree ∧
      joinsLead source.toList tokens = true ∧
      ∀ n ∈ tree.preorder, ∀ body orelse, n.kind.blocks? = some (body, orelse) → body ≠ [] := by
  intro source
  have hread : (parseModule source .native).isOk = true := by decide +kernel
  have hscan : (tokenize source).map (joinsLead source.toList) = .ok true := by decide +kernel
  cases h : parseModule source .native with
  | error e => simp [h, Except.isOk, Except.toBool] at hread
  | ok tree =>
      cases htokens : tokenize source with
      | error e => simp [htokens, Except.map] at hscan
      | ok tokens =>
          rw [htokens, Except.map, Except.ok.injEq] at hscan
          exact ⟨tokens, tree, rfl, rfl, hscan, blocks_filled htokens h hscan⟩

/-- The only line of this block goes on after a backslash, and then there is nothing. -/
theorem block_without_statement :
    (parseModule "if x:\n  \\\n" .native).map (fun tree =>
      tree.preorder.any fun n => n.kind.blocks?.any fun blocks => blocks.1.isEmpty) = .ok true := by
  decide +kernel

end TriviaTree
