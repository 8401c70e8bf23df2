import Mathlib
import TriviaTree.Proofs.Directive.Clauses
import TriviaTree.Proofs.Grammar.Shape
import TriviaTree.Proofs.Placement.Editing
import TriviaTree.Proofs.Tree.Dump

/-!
Trees that are read from a text can be read off their dumps.

What a directive says is read by the grammar or clause by clause, so it is legible
(`legible_of_parsePayload`), and insertions put legible nodes into a legible tree
(`Node.Legible.carryOut`). So the dump of a tree with its comments shows all of it, but for spans and
markers (`dump_faithful`).
-/

set_option autoImplicit false

namespace TriviaTree

open Grammar

/-! ### What directives say -/

theorem parseExpression_ok {source : String} {e : Node} (h : parseExpression source = .ok e) :
    ∃ tokens, tokenize source = .ok tokens ∧
      ∃ c', soleExpression (.ofLexemes ((tokens.filter (·.kind ≠ .comment)).map
        (Token.locate (.ofText source)))) = .ok (e, c') := by
  rw [parseExpression, lexemes] at h
  cases htokens : tokenize source with
  | error fault =>
      rw [htokens] at h
      cases h
  | ok tokens =>
      rw [htokens] at h
      exact ⟨tokens, rfl, run'_ok.1 h⟩

/-- An expression that is read from a text can be printed. -/
theorem printable_of_parseExpression {source : String} {e : Node}
    (h : parseExpression source = .ok e) : Printable false .whole e := by
  obtain ⟨tokens, htokens, c', run⟩ := parseExpression_ok h
  have spelled : (Cursor.ofLexemes ((tokens.filter (·.kind ≠ .comment)).map
      (Token.locate (.ofText source)))).Spelled := by
    refine spelled_ofLexemes fun l hl => ?_
    obtain ⟨t, ht, rfl⟩ := List.mem_map.1 hl
    have spelled := spelled_of_tokenize htokens t (List.mem_of_mem_filter ht)
    exact ⟨spelled.name, spelled.number⟩
  generalize Cursor.ofLexemes _ = c at run spelled
  simp [soleExpression] at run
  obtain ⟨_, _, hexpression, _⟩ := run
  exact (yields_anyTest .full spelled hexpression).2

theorem printable_of_parsePayloadExpression {text : List Char} {e : Node}
    (h : parsePayloadExpression text = .ok e) : Printable false .whole e := by
  unfold parsePayloadExpression at h
  split at h
  · next hread =>
    cases h
    exact printable_of_parseExpression hread
  · cases h

/-- The expressions that a directive holds can be printed. -/
theorem PayloadText.printable {family : Family} {text : List Char} {p : Payload Node}
    (h : PayloadText family text p) : ∀ e ∈ p.expressions, Printable false .whole e := by
  cases h with
  | verbatim _ h => simp [Payload.expressions_of_isVerbatim h.verbatim]
  | clauses => simp [Payload.expressions]
  | condition _ h => simpa [Payload.expressions] using printable_of_parsePayloadExpression h
  | definition _ _ h =>
      exact fun e he => printable_of_parsePayloadExpression (h e (by simpa [Payload.expressions] using he))

/-- What a directive says is legible, whatever its family. -/
theorem PayloadText.legible {family : Family} {text : List Char} {p : Payload Node}
    (h : PayloadText family text p) : p.Legible := by
  refine ⟨fun e he => (h.printable e he).isCode, ?_⟩
  cases h with
  | verbatim _ h =>
      have hverbatim := h.verbatim
      cases p <;> simp_all [Payload.isVerbatim, Payload.clauseList]
  | clauses _ h =>
      intro clause hclause hmem
      exact absurd (isNamePart_of_mem (h.wellFormed clause hclause).name _ hmem) (by decide)
  | _ => simp [Payload.clauseList]

/-- A layer of a legible tree. -/
structure LegibleLayer (k : Kind Node) : Prop where
  spelled : ∀ value, k = .constant value → value.IsSpelled
  payload : ∀ d, k = .directive d → d.payload.Legible

theorem LegibleLayer.withContents {k : Kind Node} (h : LegibleLayer k) (cs : List (List Node)) :
    LegibleLayer (k.withContents cs) := by
  have hsame : (∃ value, k = .constant value) ∨ (∃ d, k = .directive d) ∨
      (∀ value, k.withContents cs ≠ .constant value) ∧ ∀ d, k.withContents cs ≠ .directive d := by
    cases k with
    | constant value => exact .inl ⟨value, rfl⟩
    | directive d => exact .inr (.inl ⟨d, rfl⟩)
    | _ =>
        refine .inr (.inr ?_)
        simp only [Kind.withContents]
        try split
        all_goals exact ⟨by simp, by simp⟩
  rcases hsame with ⟨value, rfl⟩ | ⟨d, rfl⟩ | ⟨hconstant, hdirective⟩
  · exact h
  · exact h
  · exact ⟨fun value heq => absurd heq (hconstant value), fun d heq => absurd heq (hdirective d)⟩

theorem Node.legible_iff {n : Node} :
    n.Legible ↔ LegibleLayer n.kind ∧ ∀ c ∈ n.children, c.Legible := by
  constructor
  · rintro ⟨spelled, payloads⟩
    obtain ⟨hself, hspelled⟩ := forall_mem_preorder.1 spelled
    obtain ⟨hpayload, hpayloads⟩ := forall_mem_preorder.1 payloads
    exact ⟨⟨hself, hpayload⟩, fun c hc => ⟨hspelled c hc, hpayloads c hc⟩⟩
  · rintro ⟨hlayer, hchildren⟩
    exact ⟨forall_mem_preorder.2 ⟨hlayer.spelled, fun c hc => (hchildren c hc).spelled⟩,
      forall_mem_preorder.2 ⟨hlayer.payload, fun c hc => (hchildren c hc).payloads⟩⟩

theorem Node.IsCode.legible {n : Node} (h : n.IsCode) : n.Legible := by
  refine ⟨h.spelled, fun m hm d hd => ?_⟩
  have htrivia := h.plain m hm
  rw [Node.isTrivia, hd] at htrivia
  cases htrivia

/-- A comment is legible, and so is a directive that says something legible. -/
theorem Trivia.legible_toNode {trivia : Trivia} {span : Option Span}
    (h : ∀ d, trivia = .directive d → d.payload.Legible) : (trivia.toNode span).Legible := by
  cases trivia with
  | comment c =>
      refine Node.legible_iff.2 ⟨⟨by simp [toNode], by simp [toNode]⟩, ?_⟩
      simp [toNode, Node.children, Kind.children, Kind.contents]
  | directive d =>
      refine Node.legible_iff.2 ⟨⟨by simp [toNode], ?_⟩, ?_⟩
      · rintro d' heq
        cases heq
        exact h d rfl
      · simp [toNode, Node.children, Kind.children, Kind.contents]

theorem legible_of_classify {classifier : Classifier} {raw : String} {d : Directive Node}
    (h : classifier.classify raw = .ok (.directive d)) : d.payload.Legible := by
  unfold Classifier.classify at h
  split at h
  · cases h
  · split at h
    · cases h
    · next hpayload =>
      cases h
      exact (payloadText_of_parsePayload hpayload).legible

/-! ### Insertions -/

namespace Node

variable {n n' new : Node}

theorem Legible.insertBelow {steps : List (String × Option Nat)} {field : String} {index : Nat}
    (hnew : new.Legible) (hn : n.Legible) (h : n.insertBelow steps field index new = .ok n') :
    n'.Legible := by
  induction steps generalizing n n' with
  | nil =>
      obtain ⟨cs, hsequence, hindex, rfl⟩ := insertHere_ok h
      obtain ⟨hlayer, hchildren⟩ := legible_iff.1 hn
      refine legible_iff.2 ⟨hlayer.withContents _, fun c hc => ?_⟩
      rcases List.mem_cons.1 ((Kind.children_insertChild hsequence hindex new).mem_iff.1 hc) with
        rfl | hc
      · exact hnew
      · exact hchildren c hc
  | cons step steps ih =>
      obtain ⟨name, place⟩ := step
      obtain ⟨child, child', hchild, hbelow, rfl⟩ := insertBelow_cons_ok h
      obtain ⟨hlayer, hchildren⟩ := legible_iff.1 hn
      obtain ⟨others, hold, hset⟩ := Kind.children_setChild hchild child'
      have hlayer' : LegibleLayer (n.kind.setChild name place child') := by
        rw [Kind.setChild, if_pos (by simp [hchild])]
        exact hlayer.withContents _
      refine legible_iff.2 ⟨hlayer', fun c hc => ?_⟩
      rcases List.mem_cons.1 (hset.mem_iff.1 hc) with rfl | hc
      · exact ih (hchildren child (hold.mem_iff.2 List.mem_cons_self)) hbelow
      · exact hchildren c (hold.mem_iff.2 (List.mem_cons_of_mem _ hc))

theorem Legible.insertAt {point : InsertionPoint} (hnew : new.Legible) (hn : n.Legible)
    (h : n.insertAt point new = .ok n') : n'.Legible := by
  unfold Node.insertAt at h
  split at h
  · exact hnew.insertBelow hn h
  · cases h

theorem Legible.carryOut {plan : List Planned} (hplan : ∀ p ∈ plan, p.node.Legible) (hn : n.Legible)
    (h : TriviaTree.carryOut n plan = .ok n') : n'.Legible := by
  induction plan generalizing n with
  | nil =>
      cases h
      exact hn
  | cons p plan ih =>
      unfold TriviaTree.carryOut at h
      split at h
      · cases h
      · next hinsert =>
        have hnode := hplan p List.mem_cons_self
        exact ih (fun q hq => hplan q (List.mem_cons_of_mem p hq)) (hnode.insertAt hn hinsert) h

end Node

theorem Planned.legible_settle {p : Planned} (before : List Planned)
    (h : ∀ d, p.trivia = .directive d → d.payload.Legible) : (p.settle before).node.Legible := by
  refine Trivia.legible_toNode fun d hd => h d ?_
  -- only comments are changed when a plan is settled
  obtain ⟨key, point, trivia, span, afterHeader⟩ := p
  simp only [settle] at hd
  split at hd
  · cases trivia with
    | comment c => cases hd
    | directive d' => exact hd
  · exact hd

/-- Every tree that is read with its comments is legible. -/
theorem legible_of_parseAugmented {classifier : Classifier} {source : String} {tree : Node}
    (h : parseAugmented classifier source = .ok tree) : tree.Legible := by
  unfold parseAugmented at h
  split at h
  · cases h
  next code hcode =>
  split at h
  · cases h
  next tokens htokens =>
  have hlegible := (parseModule_printable hcode).isCode.legible
  unfold insertTrivia at h
  split at h
  · cases h
    exact hlegible
  split at h
  · cases h
  next plan hplan =>
  have hplanned : ∀ p ∈ plan, ∀ d, p.trivia = .directive d → d.payload.Legible := by
    intro p hp d hd
    unfold planAll at hplan
    split at hplan
    · cases hplan
    · obtain ⟨token, _, htoken⟩ := exists_of_mem_mapM hplan p hp
      rcases (planToken_cases htoken).2.2 with ⟨d', hclassify, htrivia⟩ | ⟨c, _, _, htrivia⟩
      · rw [htrivia] at hd
        cases hd
        exact legible_of_classify hclassify
      · rw [htrivia] at hd
        cases hd
  cases hcarry : carryOut code (schedule plan) with
  | error fault =>
      rw [hcarry] at h
      cases h
  | ok carried =>
      rw [hcarry] at h
      cases h
      refine Node.Legible.carryOut (fun q hq => ?_) hlegible hcarry
      obtain ⟨p, hp, before, rfl⟩ := exists_of_mem_schedule hq
      exact Planned.legible_settle before (hplanned p hp)

/-- Trees that are read with their comments can be read off their dumps, but for spans and the markers
of directives. -/
theorem dump_faithful {classifier classifier' : Classifier} {source source' : String}
    {tree tree' : Node} (h : parseAugmented classifier source = .ok tree)
    (h' : parseAugmented classifier' source' = .ok tree')
    (heq : tree.dump .standard = tree'.dump .standard) :
    tree.eraseSpans.eraseMarkers = tree'.eraseSpans.eraseMarkers :=
  (legible_of_parseAugmented h).shown_eq (legible_of_parseAugmented h') heq

theorem dump_faithful_padded_directive :
    ∃ tree tree', parseAugmented .standard "#if x\na(1.5, 'b\\n')" = .ok tree ∧
      parseAugmented ⟨true, [.cond]⟩ "# if:  x\n\na( 1.5,\"b\\x0a\")" = .ok tree' ∧
      tree.dump .standard = tree'.dump .standard ∧
      tree.eraseSpans.eraseMarkers = tree'.eraseSpans.eraseMarkers := by
  have hdump : (parseAugmented .standard "#if x\na(1.5, 'b\\n')").toOption.map (·.dump .standard) =
      (parseAugmented ⟨true, [.cond]⟩ "# if:  x\n\na( 1.5,\"b\\x0a\")").toOption.map
        (·.dump .standard) := by
    decide +kernel
  have hread : (parseAugmented .standard "#if x\na(1.5, 'b\\n')").isOk = true := by decide +kernel
  cases h : parseAugmented .standard "#if x\na(1.5, 'b\\n')" with
  | error e => simp [h, Except.isOk, Except.toBool] at hread
  | ok tree =>
      cases h' : parseAugmented ⟨true, [.cond]⟩ "# if:  x\n\na( 1.5,\"b\\x0a\")" with
      | error e => simp [h, h', Except.toOption] at hdump
      | ok tree' =>
          have hsame : tree.dump .standard = tree'.dump .standard := by
            simpa [h, h', Except.toOption] using hdump
          exact ⟨tree, tree', rfl, rfl, hsame, dump_faithful h h' hsame⟩

end TriviaTree
