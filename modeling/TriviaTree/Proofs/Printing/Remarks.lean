import Mathlib
import TriviaTree.Proofs.Placement.Legible
import TriviaTree.Proofs.Placement.LineEnds
import TriviaTree.Proofs.Printing.Neat
import TriviaTree.Proofs.RoundTrip.Validation

/-!
The comments and directives of a text are remarks.

A comment is written as it was found, on one line. What a directive is written as is put together
from parts of the comment it was read from and from an expression without trivia, which takes one
line too (`PayloadText.unbroken`). So all trivia that a text is augmented with are remarks, and stand
where trivia may stand (`trimmed_of_parseAugmented`).
-/

set_option autoImplicit false

namespace TriviaTree

variable {classifier : Classifier} {source : String} {n : Node}

/-! ### What is found in a comment -/

theorem trim_subset (cs : List Char) : Text.trim cs ⊆ cs := by
  have hstart : Text.trimStart cs ⊆ cs := (List.dropWhile_suffix _).subset
  intro c hc
  rw [Text.trim, Text.trimEnd, List.mem_reverse] at hc
  exact hstart (List.mem_reverse.1 ((List.dropWhile_suffix _).subset hc))

theorem afterKeywords?_suffix {glued : Bool} {keywords : List String} {cs rest : List Char}
    (h : afterKeywords? glued keywords cs = some rest) : rest <:+ cs := by
  induction keywords generalizing glued cs with
  | nil =>
      cases h
      exact List.suffix_refl _
  | cons keyword keywords ih =>
      obtain ⟨-, later, htrim, -, hlater⟩ := afterKeywords?_cons_eq_some.1 h
      have hlast : later <:+ Text.trimStart cs := htrim ▸ List.suffix_append _ _
      exact (ih hlater).trans (hlast.trans (List.dropWhile_suffix _))

/-- A directive that is found has one of the keyword sequences, and what is left is in the text. -/
theorem recognize?_some {text : List Char} {found : Recognized}
    (h : classifier.recognize? text = some found) :
    found.form ∈ directiveTable ∧ found.rest ⊆ text := by
  unfold Classifier.recognize? at h
  split at h
  · obtain ⟨⟨hform, -⟩, hfound, -⟩ := recognize?_eq_some.1 h
    obtain ⟨first, keywords, hkeywords⟩ :=
      List.exists_cons_of_ne_nil (orderly_directiveTable.words _ hform).1
    obtain ⟨-, hmatch, -, -⟩ := DirectiveForm.recognize?_eq_some.1 hfound
    obtain ⟨later, hfirst, hlater⟩ := (DirectiveForm.match?_eq_some hkeywords).1 hmatch
    obtain ⟨after, hafter, hcolon⟩ := afterFirstKeyword?_eq_some.1 hfirst
    have hsuffix : later <:+ after := by
      split at hcolon
      · exact hcolon ▸ List.suffix_cons ':' later
      · exact hcolon.1 ▸ List.suffix_refl _
    have hstart : after <:+ Text.trimStart text := hafter ▸ List.suffix_append _ _
    refine ⟨hform, ((afterKeywords?_suffix hlater).trans ?_).subset⟩
    exact hsuffix.trans (hstart.trans (List.dropWhile_suffix _))
  · cases h

theorem unbroken_keywords {form : DirectiveForm} (h : form ∈ directiveTable) :
    ∀ keyword ∈ form.keywords, Unbroken keyword.toList := by
  have hall : directiveTable.all (fun form =>
      form.keywords.all fun keyword => decide (Unbroken keyword.toList)) = true := by
    decide +kernel
  simpa using List.all_eq_true.1 hall form h

theorem ClauseText.unbroken {cs : List Char} {list : List Clause} (h : ClauseText cs list)
    (hcs : Unbroken cs) : ∀ clause ∈ list, Unbroken clause.text.toList := by
  induction h with
  | nil => simp
  | skip _ _ ih => exact ih (hcs.subset (List.subset_cons_self _ _))
  | bare _ _ _ ih =>
      refine List.forall_mem_cons.2 ⟨hcs.subset (List.subset_append_left _ _), ?_⟩
      exact ih (hcs.subset (List.subset_append_right _ _))
  | @call name inner cs _ _ _ _ ih =>
      refine List.forall_mem_cons.2 ⟨fun c hc => hcs c ?_, ih (hcs.subset fun c hc => by simp [hc])⟩
      have hinner : c ∈ Text.trim inner → c ∈ inner := fun hc => trim_subset inner hc
      simp only [Clause.text, String.toList_append, String.toList_ofList, List.mem_append] at hc ⊢
      grind

/-- What is printed of a payload takes one line. -/
theorem PayloadText.unbroken {family : Family} {text : List Char} {p : Payload Node}
    (h : PayloadText family text p) (htext : Unbroken text) : Unbroken p.printed := by
  have hblank : ∀ {cs : List Char}, Unbroken cs → Unbroken (' ' :: cs) := fun hcs =>
    Unbroken.append (show Unbroken [' '] by decide) hcs
  have hexpression : ∀ e ∈ p.expressions, Unbroken e.lineText := fun e he =>
    ((onLine_of_printable (h.printable e he)).inline .tuple).unbroken
  cases h with
  | verbatim _ h =>
      rw [h.printed]
      split
      · exact fun c hc => absurd hc List.not_mem_nil
      · exact hblank htext
  | clauses _ h =>
      intro c hc
      obtain ⟨clause, hclause, hc⟩ := List.mem_flatMap.1 hc
      exact hblank (h.unbroken htext clause hclause) c hc
  | condition => exact hblank (hexpression _ (by simp [Payload.expressions]))
  | @definition text value hname =>
      have hname : Unbroken (String.ofList (text.takeWhile (!Text.isBlank ·))).toList := by
        rw [String.toList_ofList]
        exact htext.subset (List.takeWhile_prefix _).subset
      cases value with
      | none => exact hblank hname
      | some e => exact hblank (hname.append (hblank (hexpression e (by simp [Payload.expressions]))))

/-! ### Remarks -/

/-- A directive with keywords and a payload on one line is a remark. -/
theorem isRemark_directive {d : Directive Node} {span : Option Span}
    (hkeywords : ∀ keyword ∈ d.keywords, Unbroken keyword.toList) (hpayload : Unbroken d.payload.printed)
    (hexpressions : ∀ e ∈ d.payload.expressions, Printable false .whole e) :
    (⟨.directive d, span⟩ : Node).IsRemark := by
  have hlead : Unbroken (d.marker.lead d.keywords) := by
    obtain ⟨family, keywords, payload, padded, colon⟩ := d
    have hcolon : Unbroken (if colon then [':'] else []) := by cases colon <;> decide
    have hpadding : Unbroken (if padded then [' '] else []) := by cases padded <;> decide
    refine hpadding.append ?_
    cases keywords with
    | nil => exact hcolon
    | cons first rest =>
        obtain ⟨hfirst, hrest⟩ := List.forall_mem_cons.1 hkeywords
        refine hfirst.append (hcolon.append fun c hc => ?_)
        obtain ⟨word, hword, hc⟩ := List.mem_flatMap.1 hc
        exact Unbroken.append (show Unbroken [' '] by decide) (hrest word hword) c hc
  refine ⟨_, writeDirective_eq fun e he => render_lineText (hexpressions e he), by simp, ?_⟩
  rw [String.toList_ofList]
  exact Unbroken.append (show Unbroken ['#'] by decide) (hlead.append hpayload)

theorem isRemark_comment {c : Comment} (h : Unbroken c.payload.toList) (span : Option Span) :
    (⟨.comment c, span⟩ : Node).IsRemark := by
  refine ⟨c.line, rfl, by simp [Comment.line], ?_⟩
  rw [Comment.line, String.toList_append]
  exact Unbroken.append (by decide) h

/-- What a comment is taken for is a remark. -/
theorem isRemark_of_classify {raw : String} {trivia : Trivia}
    (h : classifier.classify raw = .ok trivia) (hraw : Unbroken raw.toList) (span : Option Span) :
    (trivia.toNode span).IsRemark := by
  unfold Classifier.classify at h
  split at h
  · cases h
    exact isRemark_comment hraw _
  · next found hfound =>
    split at h
    · cases h
    · next payload hpayload =>
      cases h
      obtain ⟨hform, hrest⟩ := recognize?_some hfound
      have hread := payloadText_of_parsePayload hpayload
      refine isRemark_directive (unbroken_keywords hform) (hread.unbroken ?_) hread.printable
      exact (hraw.subset hrest).subset (trim_subset _)

theorem Planned.isRemark_settle {p : Planned} (before : List Planned) (h : p.node.IsRemark) :
    (p.settle before).node.IsRemark := by
  unfold Planned.settle
  dsimp only
  split
  · obtain ⟨key, point, trivia, span, afterHeader⟩ := p
    cases trivia <;> exact h
  · exact h

/-- A comment is planned as a remark. -/
theorem isRemark_of_planToken {t : SpannedTree} {token : TriviaToken} {p : Planned}
    (h : t.planToken classifier source n token = .ok p) (htext : Unbroken token.text.toList) :
    p.node.IsRemark := by
  obtain ⟨-, -, hsays⟩ := planToken_cases h
  rcases hsays with ⟨d, hclassify, htrivia⟩ | ⟨c, endOfLine, hclassify, htrivia⟩
  · rw [Planned.node, htrivia]
    exact isRemark_of_classify hclassify htext _
  · rw [Planned.node, htrivia]
    exact isRemark_of_classify hclassify htext none

theorem unbroken_toTrivia {tokens : List Token} (h : tokenize source = .ok tokens) {comment : Token}
    (hmem : comment ∈ tokens) (hkind : comment.kind = .comment) (index : LineIndex) :
    Unbroken (comment.toTrivia index).text.toList := by
  have hcomment := (spelled_of_tokenize h comment hmem).comment hkind
  rw [Token.toTrivia, String.toList_ofList]
  exact fun c hc => hcomment c (List.mem_of_mem_drop hc)

/-- The trivia of an augmented text are remarks. -/
theorem isRemark_of_parseAugmented {m : Node} (h : parseAugmented classifier source = .ok n)
    (hm : m ∈ n.preorder) (htrivia : m.isTrivia = true) : m.IsRemark := by
  obtain ⟨full, tokens, plan, -, hnative, -, htokens, hplan, -, rfl⟩ := exists_plan h
  have hplanned : ∀ e ∈ (schedule plan).reverse.map Planned.insertion, e.node.isTrivia = true :=
    List.forall_mem_map.2 fun q _ => Planned.isTrivia_node q
  obtain ⟨e, he, rfl⟩ := exists_of_isTrivia (parseModule_plain hnative) hplanned hm htrivia
  obtain ⟨comment, hmem, hkind, p, before, hp, rfl⟩ := exists_of_mem_plan hplan he
  exact Planned.isRemark_settle before
    (isRemark_of_planToken hp (unbroken_toTrivia htokens hmem hkind _))

/-- An augmented text has its trivia where trivia may stand, around the tree that the text is read
as. -/
theorem wellPlaced_of_parseAugmented (h : parseAugmented classifier source = .ok n) :
    n.WellPlaced ∧ parseModule source .native = .ok n.strip := by
  unfold parseAugmented at h
  split at h
  · cases h
  next tree htree =>
  split at h
  · cases h
  next tokens htokens =>
  have plain := parseModule_plain htree
  obtain ⟨placed, adds⟩ := insertTrivia_ok plain.wellPlaced (unbroken_triviaTokens htokens) h
  refine ⟨placed, ?_⟩
  rw [adds.strip_eq, plain.strip_eq]
  exact htree

/-- The trivia of an augmented text are remarks and stand where trivia may stand. -/
theorem trimmed_of_parseAugmented (h : parseAugmented classifier source = .ok n) :
    n.Trimmed := fun m hm =>
  ⟨(Node.wellPlaced_iff.1 (wellPlaced_of_parseAugmented h).1).2 m hm,
    isRemark_of_parseAugmented h hm⟩

end TriviaTree
