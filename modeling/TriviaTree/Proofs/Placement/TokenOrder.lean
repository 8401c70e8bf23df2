import Mathlib
import TriviaTree.Proofs.Placement.Totality

/-!
The order in which comments are handed over does not matter.

A plan is made comment by comment, so another order of the comments gives the same entries in another
order (`exists_mapM_perm`). Comments that start at different places are never tied when the plan is
sorted, and a sort without ties forgets the order it started from (`mergeSort_eq_of_perm`). Whatever
is done to a plan afterwards is done to the same list (`insertTrivia_perm`).
-/

set_option autoImplicit false

namespace TriviaTree

/-! ### One by one -/

section MapM

variable {α β ε : Type} {f : α → Except ε β}

theorem mapM_eq_ok_iff {xs : List α} {ys : List β} :
    xs.mapM f = .ok ys ↔ List.Forall₂ (fun x y => f x = .ok y) xs ys := by
  induction xs generalizing ys with
  | nil => cases ys <;> simp [pure, Except.pure]
  | cons x xs ih =>
      rw [List.mapM_cons]
      cases hx : f x with
      | error e => cases ys <;> simp [bind, Except.bind, hx]
      | ok y =>
          cases hrest : xs.mapM f with
          | error e => cases ys <;> simp [bind, Except.bind, ← ih, hrest, hx]
          | ok made => cases ys <;> simp [bind, Except.bind, pure, Except.pure, ← ih, hrest, hx]

/-- What is made of each element does not depend on the order of the elements, but for its own
order. -/
theorem exists_mapM_perm {xs xs' : List α} {ys : List β} (hperm : xs'.Perm xs)
    (h : xs.mapM f = .ok ys) : ∃ ys', xs'.mapM f = .ok ys' ∧ ys'.Perm ys := by
  obtain ⟨ys', hmade, hsame⟩ := List.perm_comp_forall₂ hperm (mapM_eq_ok_iff.1 h)
  exact ⟨ys', mapM_eq_ok_iff.2 hmade, hsame⟩

end MapM

/-! ### Sorting without ties -/

/-- A sort in which no two elements are tied gives the same list for every order of its input. -/
theorem mergeSort_eq_of_perm {α : Type} {order : α → α → Ordering} [Std.TransCmp order]
    {xs ys : List α} (hperm : xs.Perm ys) (distinct : xs.Pairwise fun a b => order a b ≠ .eq) :
    (xs.mergeSort fun a b => order a b ≠ .gt) = ys.mergeSort fun a b => order a b ≠ .gt := by
  have hsame : (xs.mergeSort fun a b => order a b ≠ .gt).Perm
      (ys.mergeSort fun a b => order a b ≠ .gt) :=
    ((List.mergeSort_perm xs _).trans hperm).trans (List.mergeSort_perm ys _).symm
  refine hsame.eq_of_pairwise ?_ (List.pairwise_mergeSort ne_gt_trans ne_gt_total xs)
    (List.pairwise_mergeSort ne_gt_trans ne_gt_total ys)
  intro a b ha hb hab hba
  by_contra hne
  -- neither comes after the other, so the two are tied
  have : Std.Symm fun a b => order a b ≠ .eq :=
    ⟨fun a b h heq => h (Std.OrientedCmp.eq_symm heq)⟩
  have hb' := hperm.mem_iff.2 (List.mem_mergeSort.1 hb)
  refine distinct.forall (List.mem_mergeSort.1 ha) hb' hne ?_
  have hab := of_decide_eq_true hab
  have hba := of_decide_eq_true hba
  rw [show order b a = (order a b).swap from Std.OrientedCmp.eq_swap] at hba
  cases horder : order a b <;> simp_all

/-! ### Plans -/

namespace SpannedTree

variable {t : SpannedTree} {classifier : Classifier} {source : String} {tree : Node}

theorem span_of_planToken {token : TriviaToken} {p : Planned}
    (h : t.planToken classifier source tree token = .ok p) : p.span = token.span := by
  unfold planToken at h
  split at h
  · cases h
  · split at h
    · cases h
    · split at h <;> cases h <;> rfl

/-- Comments that start at different places are planned for different places. -/
theorem pairwise_order_of_plan {tokens : List TriviaToken} {plan : List Planned}
    (hplan : tokens.mapM (t.planToken classifier source tree) = .ok plan)
    (distinct : tokens.Pairwise fun a b => a.span.start ≠ b.span.start) :
    plan.Pairwise fun a b => Planned.order a b ≠ .eq := by
  have hstarts : tokens.map (·.span.start) = plan.map (·.span.start) := by
    have hmade := (mapM_eq_ok_iff.1 hplan).imp fun token p h => (span_of_planToken h).symm
    exact List.forall₂_eq_eq_eq ▸ List.forall₂_map_left_iff.2
      (List.forall₂_map_right_iff.2 (hmade.imp fun token p h => congrArg Span.start h))
  have hplaces : (plan.map (·.span.start)).Pairwise (· ≠ ·) := by
    rw [← hstarts]
    exact List.pairwise_map.2 distinct
  refine (List.pairwise_map.1 hplaces).imp fun {a b} hne htied => hne ?_
  exact compare_eq_iff_eq.1 (Ordering.then_eq_eq.1 htied).2

end SpannedTree

section Insertion

variable {classifier : Classifier} {source : String} {tree result : Node}
  {tokens tokens' : List TriviaToken}

theorem insertTrivia_of_perm (distinct : tokens.Pairwise fun a b => a.span.start ≠ b.span.start)
    (hperm : tokens'.Perm tokens) (h : insertTrivia classifier source tree tokens = .ok result) :
    insertTrivia classifier source tree tokens' = .ok result := by
  unfold insertTrivia at h ⊢
  rw [show tokens'.isEmpty = tokens.isEmpty by
    rw [Bool.eq_iff_iff, List.isEmpty_iff, List.isEmpty_iff]
    exact ⟨fun h => (h ▸ hperm).nil_eq.symm, fun h => (h ▸ hperm).eq_nil⟩]
  split
  · next hempty =>
    rw [if_pos hempty] at h
    exact h
  · next hsome =>
    rw [if_neg hsome] at h
    unfold planAll at h ⊢
    cases hspanned : tree.spanned source with
    | error fault => simp [hspanned] at h
    | ok t =>
        simp only [hspanned] at h ⊢
        cases hplan : tokens.mapM (t.planToken classifier source tree) with
        | error fault => simp [hplan] at h
        | ok plan =>
            obtain ⟨plan', hplan', hsame⟩ := exists_mapM_perm hperm hplan
            have hsorted : schedule plan' = schedule plan := by
              unfold schedule
              rw [mergeSort_eq_of_perm hsame.symm (SpannedTree.pairwise_order_of_plan hplan distinct)]
            simp only [hplan] at h
            simp only [hplan', hsorted, h]

end Insertion

/-- Comments that start at different places can be put into a tree in any order: it succeeds for all
orders or for none, and then the tree is the same. -/
theorem insertTrivia_perm (classifier : Classifier) (source : String) (tree : Node)
    {tokens tokens' : List TriviaToken}
    (distinct : tokens.Pairwise fun a b => a.span.start ≠ b.span.start)
    (hperm : tokens'.Perm tokens) :
    ((∃ result, insertTrivia classifier source tree tokens' = .ok result) ↔
      ∃ result, insertTrivia classifier source tree tokens = .ok result) ∧
    ∀ result result', insertTrivia classifier source tree tokens = .ok result →
      insertTrivia classifier source tree tokens' = .ok result' → result' = result := by
  have hdistinct' : tokens'.Pairwise fun a b => a.span.start ≠ b.span.start :=
    distinct.perm hperm.symm fun h => h.symm
  refine ⟨⟨?_, ?_⟩, ?_⟩
  · rintro ⟨result, h⟩
    exact ⟨result, insertTrivia_of_perm hdistinct' hperm.symm h⟩
  · rintro ⟨result, h⟩
    exact ⟨result, insertTrivia_of_perm distinct hperm h⟩
  · intro result result' h h'
    exact (Except.ok.inj ((insertTrivia_of_perm distinct hperm h).symm.trans h')).symm

/-- A header comment, a comment in the same slot and one behind the statement, handed over with the
last one first. -/
theorem insertTrivia_perm_header :
    let source := "if x: # a\n  # b\n  y # c\n"
    let first : TriviaToken := ⟨" a", ⟨⟨1, 6⟩, ⟨1, 9⟩⟩⟩
    let second : TriviaToken := ⟨" b", ⟨⟨2, 2⟩, ⟨2, 5⟩⟩⟩
    let third : TriviaToken := ⟨" c", ⟨⟨3, 4⟩, ⟨3, 7⟩⟩⟩
    ([first, second, third].Pairwise fun a b => a.span.start ≠ b.span.start) ∧
      [third, second, first].Perm [first, second, third] ∧
      triviaTokens source = .ok [first, second, third] ∧
      ∃ tree result, parseModule source .native = .ok tree ∧
        insertTrivia .standard source tree [first, second, third] = .ok result ∧
        insertTrivia .standard source tree [third, second, first] = .ok result := by
  intro source first second third
  have distinct : [first, second, third].Pairwise fun a b => a.span.start ≠ b.span.start := by
    decide
  have hperm : [third, second, first].Perm [first, second, third] :=
    List.reverse_perm [first, second, third]
  have htokens : triviaTokens source = .ok [first, second, third] := by decide +kernel
  have hread : (parseModule source .native).isOk = true := by decide +kernel
  have hplain : ∀ token ∈ [first, second, third],
      (Classifier.standard.recognize? token.text.toList).isNone = true := by decide +kernel
  cases htree : parseModule source .native with
  | error e => simp [htree, Except.isOk, Except.toBool] at hread
  | ok tree =>
      rcases insertTrivia_cases htree htokens .standard with
        ⟨token, hmem, e, he, _⟩ | ⟨_, result, hresult⟩
      · simp [Classifier.classify, Option.isNone_iff_eq_none.1 (hplain token hmem)] at he
      · have hsame := insertTrivia_perm .standard source tree distinct hperm
        obtain ⟨result', hresult'⟩ := hsame.1.2 ⟨result, hresult⟩
        obtain rfl := hsame.2 result result' hresult hresult'
        exact ⟨distinct, hperm, htokens, tree, result', rfl, hresult, hresult'⟩

end TriviaTree
