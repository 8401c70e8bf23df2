import Mathlib
import TriviaTree.Proofs.Placement.LocalRule
import TriviaTree.Proofs.Placement.Simultaneous

/-!
Comments can always be put into the tree of their own text.

No span of a natively read tree cuts a comment (`nested_of_tokenize`), so every comment has an
anchor, the anchor stands for a slot, and the slot has a key (`exists_slotFor`). A plan is then
made exactly when every comment is classified, and it is carried out without fail. What is left
to fail is reading the text and reading a directive (`parseAugmented_succeeds_iff`).
-/

set_option autoImplicit false

namespace TriviaTree

/-! ### The tree of a text -/

/-- A natively read text: the tree is what native retention leaves of the tree of full retention,
whose spans it is given. -/
theorem exists_full {source : String} {tree : Node} (h : parseModule source .native = .ok tree) :
    ∃ full, parseModule source .full = .ok full ∧ full.native = tree ∧
      tree.spanned source = .ok full.nativeSpanned ∧ full.nativeSpanned.Nests tree ∧
      ∃ body, tree.kind = .module body ∧ (full.nativeSpanned.spanOf? 0 ≠ none → body ≠ []) := by
  rw [parseModule_native] at h
  cases hfull : parseModule source .full with
  | error e => simp [hfull] at h
  | ok full =>
      obtain rfl : full.native = tree := by simpa [hfull] using h
      obtain ⟨body, hkind, hroot⟩ := parseModule_kind hfull
      obtain ⟨tokens, htokens, _⟩ := parseModule_ok.1 hfull
      have nested : full.Nested (.both fun _ => True) :=
        nested_of_parseModule htokens trivial (fun _ _ _ => ⟨trivial, trivial⟩) hfull
      have hnative : full.native.kind = .module (body.map Node.native) := by
        rw [Node.kind_native, hkind]
        rfl
      refine ⟨full, rfl, rfl, spanned_native hfull, nested.nests, _, hnative, fun hspan => ?_⟩
      rw [Node.spanOf?_nativeSpanned, FlatTree.get?_zero] at hspan
      simpa using hroot hspan

/-! ### Slots for all comments -/

/-- Either one element fails, and with its failure the whole, or all succeed. -/
theorem mapM_cases {α β ε : Type} (f : α → Except ε β) (xs : List α) :
    (∃ x ∈ xs, ∃ e, f x = .error e ∧ xs.mapM f = .error e) ∨
    ∃ ys, xs.mapM f = .ok ys ∧ (∀ y ∈ ys, ∃ x ∈ xs, f x = .ok y) ∧
      ∀ x ∈ xs, ∃ y, f x = .ok y := by
  induction xs with
  | nil => exact .inr ⟨[], rfl, by simp, by simp⟩
  | cons x xs ih =>
      rw [List.mapM_cons]
      cases hx : f x with
      | error e => exact .inl ⟨x, List.mem_cons_self, e, hx, rfl⟩
      | ok y =>
          rcases ih with ⟨x', hmem, e, he, hfailed⟩ | ⟨ys, hmade, hfrom, hall⟩
          · exact .inl ⟨x', List.mem_cons_of_mem x hmem, e, he, by rw [hfailed]; rfl⟩
          · refine .inr ⟨y :: ys, by rw [hmade]; rfl, ?_, ?_⟩
            · simp only [List.mem_cons, forall_eq_or_imp, exists_eq_or_imp]
              exact ⟨.inl hx, fun y' hy' => .inr (hfrom y' hy')⟩
            · simp only [List.mem_cons, forall_eq_or_imp]
              exact ⟨⟨y, hx⟩, hall⟩

theorem exists_of_mem_mapM {α β ε : Type} {f : α → Except ε β} {xs : List α} {ys : List β}
    (h : xs.mapM f = .ok ys) : ∀ y ∈ ys, ∃ x ∈ xs, f x = .ok y := by
  rcases mapM_cases f xs with ⟨_, _, e, _, hfailed⟩ | ⟨ys', hmade, hfrom, _⟩
  · cases h.symm.trans hfailed
  · cases h.symm.trans hmade
    exact hfrom

section Slots

variable {source : String} {tree : Node} {comments : List TriviaToken} {t : SpannedTree}

/-- Every comment of a text has a slot in the tree of the text. -/
theorem exists_slotFor (h : parseModule source .native = .ok tree)
    (hcomments : triviaTokens source = .ok comments) (ht : tree.spanned source = .ok t)
    {token : TriviaToken} (hmem : token ∈ comments) :
    ∃ point key, t.slotFor tree token.span = .ok (point, key) ∧ point.Fits tree ∧
      point.key tree = .ok key := by
  obtain ⟨full, hfull, rfl, hspanned, nests, body, hkind, hroot⟩ := exists_full h
  cases hspanned.symm.trans ht
  obtain ⟨tokens, htokens, _⟩ := parseModule_ok.1 hfull
  rw [triviaTokens_eq, htokens] at hcomments
  cases hcomments
  obtain ⟨comment, hcomment, rfl⟩ := List.mem_map.1 hmem
  obtain ⟨hcomment, hkindComment⟩ := List.mem_filter.1 hcomment
  have hkindComment : comment.kind = .comment := by simpa using hkindComment
  obtain ⟨anchor, hanchor, point, hlocate, fits⟩ := nests.exists_anchor hkind
    (room_of_tokenize htokens hcomment hkindComment)
    (nested_of_tokenize htokens hcomment hkindComment hfull).clear hroot
  refine ⟨point, _, ?_, fits, fits.key_eq.1⟩
  simp only [SpannedTree.slotFor, hanchor, hlocate, fits.key_eq.1]

/-- A comment is planned when it is classified, and in a slot of the tree. -/
theorem planToken_of_classify (h : parseModule source .native = .ok tree)
    (hcomments : triviaTokens source = .ok comments) (ht : tree.spanned source = .ok t)
    {token : TriviaToken} (hmem : token ∈ comments) (classifier : Classifier) :
    (∃ e, classifier.classify token.text = .error e ∧
      t.planToken classifier source tree token = .error (.directive e)) ∨
    ∃ trivia, classifier.classify token.text = .ok trivia ∧
      ∃ p, t.planToken classifier source tree token = .ok p ∧ p.point.Fits tree ∧
        p.point.key tree = .ok p.key := by
  obtain ⟨point, key, hslot, fits, hkey⟩ := exists_slotFor h hcomments ht hmem
  cases hclassify : classifier.classify token.text with
  | error e => exact .inl ⟨e, rfl, by simp only [SpannedTree.planToken, hclassify]⟩
  | ok trivia =>
      refine .inr ⟨trivia, rfl, ?_⟩
      simp only [SpannedTree.planToken, hclassify, hslot]
      cases trivia with
      | comment c => exact ⟨_, rfl, fits, hkey⟩
      | directive d => exact ⟨_, rfl, fits, hkey⟩

/-- The slots of a plan for the comments of a text are slots of its tree, under their keys. -/
theorem fits_of_plan (h : parseModule source .native = .ok tree)
    (hcomments : triviaTokens source = .ok comments) (ht : tree.spanned source = .ok t)
    {classifier : Classifier} {plan : List Planned}
    (hplan : comments.mapM (t.planToken classifier source tree) = .ok plan) :
    ∀ p ∈ plan, p.point.Fits tree ∧ p.point.key tree = .ok p.key := by
  intro p hp
  obtain ⟨token, hmem, htoken⟩ := exists_of_mem_mapM hplan p hp
  rcases planToken_of_classify h hcomments ht hmem classifier with
    ⟨e, _, he⟩ | ⟨_, _, p', hp', hfits⟩
  · cases htoken.symm.trans he
  · cases htoken.symm.trans hp'
    exact hfits

/-- The comments of a text are put into its tree when all of them are classified; a failure is
that of one of them. -/
theorem insertTrivia_cases (h : parseModule source .native = .ok tree)
    (hcomments : triviaTokens source = .ok comments) (classifier : Classifier) :
    (∃ token ∈ comments, ∃ e, classifier.classify token.text = .error e ∧
      insertTrivia classifier source tree comments = .error (.directive e)) ∨
    (∀ token ∈ comments, ∃ trivia, classifier.classify token.text = .ok trivia) ∧
      ∃ augmented, insertTrivia classifier source tree comments = .ok augmented := by
  obtain ⟨full, _, _, hspanned, _⟩ := exists_full h
  have hplan := fun token (hmem : token ∈ comments) =>
    planToken_of_classify h hcomments hspanned hmem classifier
  by_cases hempty : comments.isEmpty = true
  · refine .inr ⟨?_, tree, if_pos hempty⟩
    simp [List.isEmpty_iff.1 hempty]
  rw [insertTrivia, if_neg hempty, planAll, hspanned]
  rcases mapM_cases (full.nativeSpanned.planToken classifier source tree) comments with
    ⟨token, hmem, e, he, hfailed⟩ | ⟨plan, hmade, hfrom, hall⟩
  · left
    rcases hplan token hmem with ⟨e', hclassify, he'⟩ | ⟨_, _, p, hp, _⟩
    · cases he.symm.trans he'
      exact ⟨token, hmem, e', hclassify, by simp only [hfailed]⟩
    · cases he.symm.trans hp
  · right
    constructor
    · intro token hmem
      rcases hplan token hmem with ⟨e, _, he⟩ | ⟨trivia, hclassify, _⟩
      · obtain ⟨p, hp⟩ := hall token hmem
        cases hp.symm.trans he
      · exact ⟨trivia, hclassify⟩
    · have hslots := fits_of_plan h hcomments hspanned hmade
      simp only [hmade, carryOut_schedule (fun p hp => (hslots p hp).1) fun p hp => (hslots p hp).2]
      exact ⟨_, rfl⟩

end Slots

end TriviaTree
