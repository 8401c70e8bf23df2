import Mathlib
import TriviaTree.Proofs.Placement.Totality
import TriviaTree.Proofs.Tree.Walks

/-!
The extents of the nodes of a tree, and the comments between them.

Nesting is known of the root; here it is carried to every node (`Node.Nested.of_mem_preorder`), which
gives the two statements about whole texts. With full retention the spans are laminar and cut no
comment (`spans_laminar_around_comments`). Retention decides about nothing but spans, and full
retention leaves only what takes up no text without one (`retention_decides_spans_only`).
-/

set_option autoImplicit false

namespace TriviaTree

namespace Node.Nested

variable {B : Bounds} {tree n : Node}

theorem of_mem_preorder (nested : tree.Nested B) (hn : n ∈ tree.preorder) : n.Nested B := by
  induction tree with
  | step tree ih =>
      rcases Node.mem_preorder_iff.1 hn with rfl | ⟨c, hc, hn⟩
      · exact nested
      · exact ih c hc (nested.of_mem_children hc).1 hn

theorem pairwise_apart (nested : n.Nested B) : n.children.Pairwise Node.Apart := by
  cases nested with
  | bare hkind =>
      rcases hkind with rfl | rfl <;> exact .nil
  | spanned _ _ _ _ _ apart => exact apart

/-- Only a module without statements and a list without parameters have no span. -/
theorem kind_of_span_eq_none (nested : n.Nested B) (hspan : n.span = none) :
    n.kind = .module [] ∨ n.kind = .arguments [] none [] none := by
  cases nested with
  | bare hkind => exact hkind
  | spanned => cases hspan

end Node.Nested

/-- Every span of a text that is read with full retention takes up room and lies in the span of the
node above it, the spans below one node are disjoint, and each comment of the text lies in a span or
apart from it. -/
theorem spans_laminar_around_comments {source : String} {tree : Node}
    (h : parseModule source .full = .ok tree) :
    (∀ n ∈ tree.preorder,
      (∀ s, n.span = some s → s.start < s.stop) ∧
      (∀ c ∈ n.children, ∀ s, c.span = some s →
        ∃ outer, n.span = some outer ∧ outer.contains s = true) ∧
      n.children.Pairwise fun a b => ∀ s t, a.span = some s → b.span = some t →
        s.endsBefore t = true ∨ t.endsBefore s = true) ∧
    ∃ comments, triviaTokens source = .ok comments ∧
      ∀ comment ∈ comments, ∀ n ∈ tree.preorder, ∀ s, n.span = some s →
        s.contains comment.span = true ∨ s.endsBefore comment.span = true ∨
          s.startsAfter comment.span = true := by
  obtain ⟨tokens, htokens, _⟩ := parseModule_ok.1 h
  have nested : tree.Nested (.both fun _ => True) :=
    nested_of_parseModule htokens trivial (fun _ _ _ => ⟨trivial, trivial⟩) h
  refine ⟨fun n hn => ⟨fun s hs => ?_, fun c hc s hs => ?_, ?_⟩, ?_⟩
  · exact ((nested.of_mem_preorder hn).of_span hs).1
  · obtain ⟨_, outer, houter, hinside⟩ := (nested.of_mem_preorder hn).of_mem_children hc
    exact ⟨outer, houter, by simpa [Span.contains] using hinside s hs⟩
  · refine (nested.of_mem_preorder hn).pairwise_apart.imp fun hapart s t hs ht => ?_
    simpa [Span.endsBefore] using hapart s t hs ht
  · refine ⟨_, by rw [triviaTokens_eq, htokens]; rfl, ?_⟩
    intro comment hcomment n hn s hs
    obtain ⟨token, htoken, rfl⟩ := List.mem_map.1 hcomment
    obtain ⟨hmem, hkind⟩ := List.mem_filter.1 htoken
    -- the same tree once more, now with the ends of its spans outside this comment
    have nested := nested_of_tokenize htokens hmem (by simpa using hkind) h
    obtain ⟨_, hstart, hstop⟩ := (nested.of_mem_preorder hn).of_span hs
    exact Span.clear_of_ends hstart hstop

theorem spans_laminar_around_comments_call :
    let source := "f(a, # x\n  b=1)"
    ∃ tree comments, parseModule source .full = .ok tree ∧ tree.preorder.length = 7 ∧
      triviaTokens source = .ok comments ∧ comments.length = 1 ∧
      ∀ comment ∈ comments, ∀ n ∈ tree.preorder, ∀ s, n.span = some s →
        s.contains comment.span = true ∨ s.endsBefore comment.span = true ∨
          s.startsAfter comment.span = true := by
  intro source
  have hnodes : (parseModule source .full).map (·.preorder.length) = .ok 7 := by decide +kernel
  have hcount : (triviaTokens source).map List.length = .ok 1 := by decide +kernel
  cases h : parseModule source .full with
  | error fault => simp [h, Except.map] at hnodes
  | ok tree =>
      obtain ⟨_, comments, hcomments, hclear⟩ := spans_laminar_around_comments h
      refine ⟨tree, comments, rfl, ?_, hcomments, ?_, hclear⟩
      · simpa [h, Except.map] using hnodes
      · simpa [hcomments, Except.map] using hcount

/-- Both retentions refuse a text for the same fault at the same place, or both read it, and then
native retention gives the tree of full retention without the spans of modules, parameter lists and
arguments by name. Full retention leaves nothing without a span but a module without statements and
a list without parameters. -/
theorem retention_decides_spans_only (source : String) :
    (∃ e, parseModule source .native = .error e ∧ parseModule source .full = .error e) ∨
    ∃ full, parseModule source .full = .ok full ∧ parseModule source .native = .ok full.native ∧
      ∀ n ∈ full.preorder, n.span = none →
        n.kind = .module [] ∨ n.kind = .arguments [] none [] none := by
  have hnative := parseModule_native source
  cases hfull : parseModule source .full with
  | error e =>
      rw [hfull] at hnative
      exact .inl ⟨e, hnative, rfl⟩
  | ok full =>
      rw [hfull] at hnative
      refine .inr ⟨full, rfl, hnative, fun n hn => ?_⟩
      obtain ⟨tokens, htokens, _⟩ := parseModule_ok.1 hfull
      have nested : full.Nested (.both fun _ => True) :=
        nested_of_parseModule htokens trivial (fun _ _ _ => ⟨trivial, trivial⟩) hfull
      exact (nested.of_mem_preorder hn).kind_of_span_eq_none

end TriviaTree
