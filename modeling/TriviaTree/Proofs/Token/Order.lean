import Mathlib
import TriviaTree.Proofs.Source.Lines
import TriviaTree.Proofs.Token.Steps

/-!
Tokens stand one after the other.

A bite of the scanner reads a piece off the front of the text and finds its tokens inside that
piece (`Step.bite`); so a whole scan finds tokens that do not overlap, the end marker last
(`inOrder_of_tokenize`).
-/

set_option autoImplicit false

namespace TriviaTree

namespace Text

theorem byteSize_eq_sum (cs : List Char) : byteSize cs = (cs.map Char.utf8Size).sum := by
  rw [List.sum_eq_foldl, List.foldl_map]
  rfl

theorem byteSize_append (cs ds : List Char) : byteSize (cs ++ ds) = byteSize cs + byteSize ds := by
  simp [byteSize_eq_sum]

theorem byteSize_pos {cs : List Char} (h : cs ≠ []) : 0 < byteSize cs := by
  obtain ⟨c, rest, rfl⟩ := List.exists_cons_of_ne_nil h
  have := c.utf8Size_pos
  simp only [byteSize_eq_sum, List.map_cons, List.sum_cons]
  omega

theorem byteSize_le_of_isPrefix {cs ds : List Char} (h : cs <+: ds) :
    byteSize cs ≤ byteSize ds := by
  obtain ⟨rest, rfl⟩ := h
  simp [byteSize_append]

/-- Of two beginnings of a text the one of fewer bytes begins the other. -/
theorem isPrefix_of_byteSize_le {front back front' back' : List Char}
    (h : front ++ back = front' ++ back') (hle : byteSize front ≤ byteSize front') :
    front <+: front' := by
  rcases List.append_eq_append_iff.1 h with ⟨middle, rfl, -⟩ | ⟨extra, rfl, -⟩
  · exact List.prefix_append _ _
  · have hnone : extra = [] := by
      by_contra hne
      have := byteSize_pos hne
      rw [byteSize_append] at hle
      omega
    simp [hnone]

theorem trimEnd_isPrefix (cs : List Char) : trimEnd cs <+: cs :=
  List.rdropWhile_prefix isBlank cs

theorem trimEnd_ne_nil {c : Char} {cs : List Char} (hmem : c ∈ cs) (hc : isBlank c = false) :
    trimEnd cs ≠ [] := by
  intro hnil
  have hblank := List.rdropWhile_eq_nil_iff.1 hnil c hmem
  simp [hc] at hblank

end Text

/-- Tokens between two offsets, none over another; all but layout takes up room. -/
structure InOrder (lo hi : Nat) (tokens : List Token) : Prop where
  within : ∀ t ∈ tokens, lo ≤ t.start ∧ t.start ≤ t.stop ∧ t.stop ≤ hi
  room : ∀ t ∈ tokens, t.kind.isLayout = true ∨ t.start < t.stop
  pairwise : tokens.Pairwise (·.stop ≤ ·.start)

namespace InOrder

variable {lo mid hi : Nat} {tokens tokens' : List Token}

theorem nil : InOrder lo hi [] := ⟨by simp, by simp, .nil⟩

theorem append (left : InOrder lo mid tokens) (right : InOrder mid hi tokens') (hlo : lo ≤ mid)
    (hhi : mid ≤ hi) : InOrder lo hi (tokens ++ tokens') where
  within t ht := by
    rcases List.mem_append.1 ht with ht | ht
    · have := left.within t ht
      omega
    · have := right.within t ht
      omega
  room t ht := (List.mem_append.1 ht).elim (left.room t) (right.room t)
  pairwise := List.pairwise_append.2 ⟨left.pairwise, right.pairwise, fun a ha b hb => by
    have := left.within a ha
    have := right.within b hb
    omega⟩

theorem sublist (h : InOrder lo hi tokens) (hsub : tokens'.Sublist tokens) :
    InOrder lo hi tokens' where
  within t ht := h.within t (hsub.subset ht)
  room t ht := h.room t (hsub.subset ht)
  pairwise := h.pairwise.sublist hsub

/-- One of two tokens is over when the other begins. -/
theorem apart (h : InOrder lo hi tokens) {a b : Token} (ha : a ∈ tokens) (hb : b ∈ tokens)
    (hne : a ≠ b) : a.stop ≤ b.start ∨ b.stop ≤ a.start := by
  have hsymm : Std.Symm fun a b : Token => a.stop ≤ b.start ∨ b.stop ≤ a.start :=
    ⟨fun _ _ => Or.symm⟩
  have hapart : tokens.Pairwise fun a b => a.stop ≤ b.start ∨ b.stop ≤ a.start :=
    h.pairwise.imp .inl
  exact hapart.forall ha hb hne

end InOrder

namespace ScanState

/-- What one or more bites do: they read a piece off the text and find `tokens` in it. -/
structure Bite (s s' : ScanState) (tokens : List Token) : Prop where
  reads : ∃ taken, taken ++ s'.rest = s.rest ∧ s'.offset = s.offset + Text.byteSize taken
  inOrder : InOrder s.offset s'.offset tokens

namespace Bite

variable {s s' s'' : ScanState} {tokens tokens' : List Token}

theorem offset_le (bite : Bite s s' tokens) : s.offset ≤ s'.offset := by
  obtain ⟨taken, _, hoffset⟩ := bite.reads
  omega

theorem size (bite : Bite s s' tokens) :
    s'.offset + Text.byteSize s'.rest = s.offset + Text.byteSize s.rest := by
  obtain ⟨taken, hrest, hoffset⟩ := bite.reads
  rw [← hrest, Text.byteSize_append]
  omega

theorem trans (first : Bite s s' tokens) (second : Bite s' s'' tokens') :
    Bite s s'' (tokens ++ tokens') where
  reads := by
    obtain ⟨taken, hrest, hoffset⟩ := first.reads
    obtain ⟨taken', hrest', hoffset'⟩ := second.reads
    refine ⟨taken ++ taken', ?_, ?_⟩
    · rw [List.append_assoc, hrest', hrest]
    · rw [hoffset', hoffset, Text.byteSize_append, Nat.add_assoc]
  inOrder := first.inOrder.append second.inOrder first.offset_le second.offset_le

/-- Reading `taken` finds tokens that lie in it. -/
theorem of_taken (taken : List Char) (hrest : taken ++ s'.rest = s.rest)
    (hoffset : s'.offset = s.offset + Text.byteSize taken)
    (htokens : InOrder s.offset s'.offset tokens) : Bite s s' tokens where
  reads := ⟨taken, hrest, hoffset⟩
  inOrder := htokens

theorem silent (taken : List Char) (hrest : taken ++ s'.rest = s.rest)
    (hoffset : s'.offset = s.offset + Text.byteSize taken) : Bite s s' [] :=
  of_taken taken hrest hoffset .nil

/-- Reading `taken` finds the token that it starts with. -/
theorem token {kind : TokenKind} {taken text : List Char} (hrest : taken ++ s'.rest = s.rest)
    (hoffset : s'.offset = s.offset + Text.byteSize taken) (hstartsWith : text <+: taken)
    (hroom : kind.isLayout = true ∨ text ≠ []) : Bite s s' [s.tokenHere kind text] := by
  have hle := Text.byteSize_le_of_isPrefix hstartsWith
  refine of_taken taken hrest hoffset ⟨?_, ?_, List.pairwise_singleton _ _⟩
  · simp only [List.mem_singleton, forall_eq, tokenHere]
    omega
  · simp only [List.mem_singleton, forall_eq, tokenHere]
    refine hroom.imp id fun hne => ?_
    have := Text.byteSize_pos hne
    omega

end Bite

variable {s s' : ScanState} {tokens : List Token} {c : Char} {cs : List Char}

theorem bite_comment (h : s.rest = '#' :: cs) : Bite s s.comment.2 s.comment.1 := by
  refine Bite.token (Token.splitWhile_append _ s.rest) rfl (Text.trimEnd_isPrefix _) (.inr ?_)
  refine Text.trimEnd_ne_nil (c := '#') ?_ (by decide)
  rw [h]
  simp [Token.isBreak]

theorem bite_skipBreak (s : ScanState) : Bite s s.skipBreak [] :=
  Bite.silent _ (Token.splitBreak_append s.rest) rfl

theorem bite_blanks {taken rest : List Char}
    (hcut : Token.splitWhile Token.isIndentation s.rest = (taken, rest)) : Bite s (s.skip taken rest) [] := by
  refine Bite.silent taken ?_ rfl
  rw [← Token.splitWhile_append Token.isIndentation s.rest, hcut]
  rfl

/-- Layout at one place. -/
theorem inOrder_layout (s : ScanState) (kind : TokenKind) (hkind : kind.isLayout = true)
    (widths : List Nat) :
    InOrder s.offset s.offset (widths.map fun _ => s.tokenHere kind []) := by
  refine ⟨?_, ?_, ?_⟩
  · simp [tokenHere, Text.byteSize]
  · simp [tokenHere, hkind]
  · simp [tokenHere, Text.byteSize]

theorem Step.bite (step : Step s tokens s') : Bite s s' tokens := by
  cases step with
  | blank _ hrest => exact Bite.silent [_] hrest.symm rfl
  | newline => exact Bite.token (Token.splitBreak_append s.rest) rfl (List.prefix_refl _) (.inl rfl)
  | joined => exact bite_skipBreak s
  | continued _ hrest =>
      refine Bite.silent ('\\' :: _) ?_ rfl
      rw [hrest]
      exact congrArg ('\\' :: ·) (Token.splitBreak_append _)
  | comment _ hrest => exact bite_comment hrest
  | code _ hrest hne => exact Bite.token hrest rfl (List.prefix_refl _) (.inr hne)
  | blankLine _ hcut => exact (bite_blanks hcut).trans (bite_skipBreak _)
  | commentLine _ hcut =>
      simpa using (bite_blanks hcut).trans ((bite_comment rfl).trans (bite_skipBreak _))
  | indent _ hcut =>
      exact (bite_blanks hcut).trans (Bite.of_taken [] rfl rfl (inOrder_layout _ _ rfl [0]))
  | dedents _ hcut =>
      exact (bite_blanks hcut).trans (Bite.of_taken [] rfl rfl (inOrder_layout _ _ rfl _))

theorem inOrder_closing (s : ScanState) : InOrder s.offset s.offset s.closing := by
  have hend := inOrder_layout s .endMarker rfl [0]
  have hblocks := (inOrder_layout s .dedent rfl s.indents).append hend le_rfl le_rfl
  unfold closing
  rw [List.append_assoc]
  refine InOrder.append ?_ hblocks le_rfl le_rfl
  split
  · exact inOrder_layout s .newline rfl [0]
  · exact .nil

end ScanState

/-- The tokens that a scan finds in what is left of the text, the end marker last. -/
def ScanState.Finds (s : ScanState) (new : List Token) : Prop :=
  InOrder s.offset (s.offset + Text.byteSize s.rest) new ∧
    new.getLast?.map (·.kind) = some .endMarker

theorem ScanState.finds_closing (s : ScanState) (_ : s.rest = []) : s.Finds s.closing := by
  refine ⟨?_, by simp [closing, tokenHere]⟩
  simpa using s.inOrder_closing.append (InOrder.nil : InOrder s.offset _ [])
    le_rfl (Nat.le_add_right _ (Text.byteSize s.rest))

theorem ScanState.Step.finds (s : ScanState) (found : List Token) (next : ScanState)
    (later : List Token) (step : Step s found next) (h : next.Finds later) : s.Finds (found ++ later) := by
  obtain ⟨horder, hlast⟩ := h
  have hbite := step.bite
  rw [hbite.size] at horder
  refine ⟨hbite.inOrder.append horder hbite.offset_le (by have := hbite.size; omega), ?_⟩
  cases later with
  | nil => simp at hlast
  | cons first rest => simpa using hlast

theorem scan_adds {s : ScanState} {done tokens : List Token} (h : scan s done = .ok tokens) :
    ∃ new, tokens = done.reverse ++ new ∧ s.Finds new :=
  scan_induction ScanState.finds_closing ScanState.Step.finds h

/-- The tokens of a text lie in it one after the other; the last one is the end marker. -/
theorem inOrder_of_tokenize {source : String} {tokens : List Token}
    (h : tokenize source = .ok tokens) :
    InOrder 0 (LineIndex.ofText source).size tokens ∧
      tokens.getLast?.map (·.kind) = some .endMarker := by
  have hfinds := tokenize_induction ScanState.finds_closing ScanState.Step.finds h
  simpa [ScanState.Finds, ScanState.start, LineIndex.ofText] using hfinds

/-- The comments of a text, as `triviaTokens` gives them. -/
def Token.toTrivia (index : LineIndex) (token : Token) : TriviaToken :=
  ⟨String.ofList (token.text.toList.drop 1), index.span token.start token.stop⟩

theorem triviaTokens_eq (source : String) :
    triviaTokens source = (tokenize source).map fun tokens =>
      (tokens.filter (·.kind = .comment)).map (Token.toTrivia (.ofText source)) := by
  unfold triviaTokens
  cases tokenize source <;> rfl

theorem exists_of_triviaTokens {source : String} {comments : List TriviaToken}
    (h : triviaTokens source = .ok comments) : ∃ tokens, tokenize source = .ok tokens ∧
      comments = (tokens.filter (·.kind = .comment)).map (Token.toTrivia (.ofText source)) := by
  rw [triviaTokens_eq] at h
  cases htokens : tokenize source with
  | error e => rw [htokens] at h; cases h
  | ok tokens =>
      rw [htokens] at h
      cases h
      exact ⟨tokens, rfl, rfl⟩

end TriviaTree
