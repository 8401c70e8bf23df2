import Mathlib
import TriviaTree.Proofs.Token.Layout
import TriviaTree.Text.Literal

/-!
A value written as a literal is read as that value.

Between the quotes of `quoteString` the quote itself only stands after a backslash, and so does
every line break, so the scanner finds the end of the literal where it is
(`splitString_quoteString`), and resolving the escapes gives the value back
(`decodeString_quoteString`).
-/

set_option autoImplicit false

namespace TriviaTree.Text

/-! ### Resolving escapes -/

theorem decodeBody_plain {c : Char} {cs : List Char} (hc : c ≠ '\\') :
    decodeBody (c :: cs) = c :: decodeBody cs := by
  rw [decodeBody]
  all_goals simp_all

theorem hexDigit?_digitChar : ∀ n < 16, hexDigit? (Nat.digitChar n) = some n := by
  decide

theorem decodeBody_control {c : Char} (hc : isControl c = true) (cs : List Char) :
    decodeBody ('\\' :: 'x' :: Nat.digitChar (c.toNat / 16) :: Nat.digitChar (c.toNat % 16) :: cs) =
      c :: decodeBody cs := by
  have hsmall : c.toNat / 16 < 16 := by
    simp only [isControl, Bool.or_eq_true, Bool.and_eq_true, decide_eq_true_eq] at hc
    omega
  have hplus : ∀ n < 16, Nat.digitChar n ≠ '+' := by decide
  have hescape : hexEscape? [Nat.digitChar (c.toNat / 16), Nat.digitChar (c.toNat % 16)] = some c := by
    have hmod : c.toNat % 16 < 16 := Nat.mod_lt _ (by decide)
    rw [hexEscape?]
    · rw [hexDigit?_digitChar _ hsmall, hexDigit?_digitChar _ hmod]
      simp only
      rw [Nat.div_add_mod, Char.ofNat_toNat]
    · exact hplus _ hsmall
  rw [decodeBody, hescape]

/-- The two characters a literal can be quoted with. -/
def IsQuote (quote : Char) : Prop :=
  quote = '"' ∨ quote = '\''

theorem isQuote_quoteFor (cs : List Char) : IsQuote (quoteFor cs) := by
  unfold quoteFor
  split
  · exact .inl rfl
  · exact .inr rfl

variable {quote : Char}

/-- The three ways a character is written: as a short escape, by its code, or as it is. -/
theorem literalChar_cases (hquote : IsQuote quote) (c : Char) :
    (∃ d, literalChar quote c = ['\\', d] ∧ Token.isBreak d = false ∧
      ∀ cs, decodeBody ('\\' :: d :: cs) = c :: decodeBody cs) ∨
    (isControl c = true ∧ literalChar quote c =
      ['\\', 'x', Nat.digitChar (c.toNat / 16), Nat.digitChar (c.toNat % 16)]) ∨
    (literalChar quote c = [c] ∧ c ≠ '\\' ∧ c ≠ '\n' ∧ c ≠ '\r' ∧ c ≠ quote) := by
  unfold literalChar
  split
  · next hc => exact .inl ⟨'\\', rfl, rfl, fun cs => by rw [hc, decodeBody]⟩
  split
  · next hc => exact .inl ⟨'n', rfl, rfl, fun cs => by rw [hc, decodeBody]⟩
  split
  · next hc => exact .inl ⟨'r', rfl, rfl, fun cs => by rw [hc, decodeBody]⟩
  split
  · next hc => exact .inl ⟨'t', rfl, rfl, fun cs => by rw [hc, decodeBody]⟩
  split
  · next hc =>
    rcases hquote with rfl | rfl
    · exact .inl ⟨c, rfl, by rw [hc]; rfl, fun cs => by rw [hc, decodeBody]⟩
    · exact .inl ⟨c, rfl, by rw [hc]; rfl, fun cs => by rw [hc, decodeBody]⟩
  split
  · next hc => exact .inr (.inl ⟨hc, rfl⟩)
  · next hbackslash hfeed hreturn _ hne _ =>
    exact .inr (.inr ⟨rfl, hbackslash, hfeed, hreturn, hne⟩)

theorem decodeBody_literal (hquote : IsQuote quote) (cs : List Char) :
    decodeBody (cs.flatMap (literalChar quote)) = cs := by
  induction cs with
  | nil => rfl
  | cons c cs ih =>
      rw [List.flatMap_cons]
      rcases literalChar_cases hquote c with ⟨d, hd, _, hdecode⟩ | ⟨hcontrol, hcode⟩ |
        ⟨hplain, hbackslash, _⟩
      · rw [hd]
        exact (hdecode _).trans (congrArg (c :: ·) ih)
      · rw [hcode]
        exact (decodeBody_control hcontrol _).trans (congrArg (c :: ·) ih)
      · rw [hplain]
        exact (decodeBody_plain hbackslash).trans (congrArg (c :: ·) ih)

/-! ### Cutting the quotes off -/

/-- What stands after the opening quote is not another one, unless the literal is empty. -/
theorem literal_head (hquote : IsQuote quote) (c : Char) (cs : List Char) :
    ∃ d ds, (c :: cs).flatMap (literalChar quote) = d :: ds ∧ d ≠ quote := by
  have hbackslash : '\\' ≠ quote := by rcases hquote with rfl | rfl <;> decide
  rw [List.flatMap_cons]
  rcases literalChar_cases hquote c with ⟨d, hd, _⟩ | ⟨_, hcode⟩ | ⟨hplain, _, _, _, hne⟩
  · exact ⟨'\\', _, by rw [hd]; rfl, hbackslash⟩
  · exact ⟨'\\', _, by rw [hcode]; rfl, hbackslash⟩
  · exact ⟨c, _, by rw [hplain]; rfl, hne⟩

/-- A literal never looks like one between tripled quotes. -/
theorem afterStart_literal (hquote : IsQuote quote) (cs rest : List Char)
    (hrest : rest.head? ≠ some quote) :
    afterStart [quote, quote] (cs.flatMap (literalChar quote) ++ quote :: rest) = none := by
  cases cs with
  | nil =>
      cases rest with
      | nil => simp [afterStart]
      | cons d rest =>
          have hne : quote ≠ d := fun heq => hrest (by rw [heq]; rfl)
          simp [afterStart, hne]
  | cons c cs =>
      obtain ⟨d, ds, hd, hne⟩ := literal_head hquote c cs
      rw [hd, List.cons_append, afterStart, if_neg hne.symm]

theorem decodeString_quoteString (value : String) : decodeString (quoteString value) = value := by
  generalize hquoteFor : quoteFor value.toList = quote
  have hquote : IsQuote quote := hquoteFor ▸ isQuote_quoteFor _
  generalize hbody : value.toList.flatMap (literalChar quote) = body
  have hraw : (quoteString value).toList = quote :: (body ++ [quote]) := by
    simp [quoteString, hquoteFor, hbody]
  have hsingle : quote.utf8Size = 1 := by rcases hquote with rfl | rfl <;> rfl
  have hsize : byteSize (quote :: (body ++ [quote])) = byteSize body + 2 := by
    simp [byteSize_eq_sum, hsingle]
    omega
  have hlong : ∀ other, (afterStart [other, other, other] (quote :: (body ++ [quote]))).isSome =
      false := by
    intro other
    by_cases hother : other = quote
    · have := afterStart_literal hquote value.toList [] (by simp)
      rw [hbody] at this
      rw [hother, afterStart, if_pos rfl, this]
      rfl
    · rw [afterStart, if_neg hother]
      rfl
  have hslice : sliceBytes 1 (byteSize body + 2 - 1) (quote :: (body ++ [quote])) = some body := by
    have htake : byteSize body + 2 - 1 - 1 = byteSize body := by omega
    rw [sliceBytes, if_pos (by omega), dropBytes, if_neg (by decide), if_pos hsingle.le, hsingle,
      Nat.sub_self, htake]
    have hdrop : dropBytes 0 (body ++ [quote]) = some (body ++ [quote]) := by
      cases body <;> rfl
    rw [hdrop, Option.bind_some, takeBytes_byteSize_append]
  rw [decodeString, hraw, hsize]
  simp only [hlong, Bool.or_self, Bool.false_eq_true, if_false, hslice, Option.getD_some]
  rw [← hbody, decodeBody_literal hquote]
  exact String.ofList_toList

end TriviaTree.Text

namespace TriviaTree.Token

open Text

variable {quote : Char}

theorem splitShortBody_plain {c : Char} {cs : List Char} (hbackslash : c ≠ '\\')
    (hbreak : isBreak c = false) (hquote : c ≠ quote) :
    splitShortBody quote (c :: cs) =
      (splitShortBody quote cs).map fun found => (c :: found.1, found.2) := by
  rw [splitShortBody]
  · rw [if_neg (by simp [hbreak]), if_neg hquote]
  · exact fun h _ => hbackslash h
  · exact fun _ _ h _ => hbackslash h

theorem splitShortBody_escape (c : Char) (cs : List Char) :
    splitShortBody quote ('\\' :: c :: cs) =
      (splitShortBody quote cs).map fun found => ('\\' :: c :: found.1, found.2) := by
  rw [splitShortBody]

/-- The body of a literal ends at its closing quote. -/
theorem splitShortBody_literal (hquote : IsQuote quote) (cs rest : List Char) :
    splitShortBody quote (cs.flatMap (literalChar quote) ++ quote :: rest) =
      some (cs.flatMap (literalChar quote) ++ [quote], rest) := by
  induction cs with
  | nil =>
      have hbreak : isBreak quote = false := by rcases hquote with rfl | rfl <;> rfl
      have hbackslash : quote ≠ '\\' := by rcases hquote with rfl | rfl <;> decide
      rw [List.flatMap_nil, List.nil_append, splitShortBody]
      · rw [if_neg (by simp [hbreak]), if_pos rfl]
        rfl
      · exact fun h _ => hbackslash h
      · exact fun _ _ h _ => hbackslash h
  | cons c cs ih =>
      rw [List.flatMap_cons]
      rcases literalChar_cases hquote c with ⟨d, hd, _⟩ | ⟨hcontrol, hcode⟩ |
        ⟨hplain, hbackslash, hfeed, hreturn, hne⟩
      · rw [hd]
        simp [splitShortBody_escape, ih]
      · have hdigit : ∀ n < 16, Nat.digitChar n ≠ '\\' ∧ isBreak (Nat.digitChar n) = false ∧
            Nat.digitChar n ≠ quote := by
          rcases hquote with rfl | rfl <;> decide
        have hsmall : c.toNat / 16 < 16 := by
          simp only [isControl, Bool.or_eq_true, Bool.and_eq_true, decide_eq_true_eq] at hcontrol
          omega
        obtain ⟨hhigh, hhighBreak, hhighQuote⟩ := hdigit _ hsmall
        obtain ⟨hlow, hlowBreak, hlowQuote⟩ := hdigit _ (Nat.mod_lt c.toNat (by decide))
        rw [hcode]
        simp [splitShortBody_escape, splitShortBody_plain hhigh hhighBreak hhighQuote,
          splitShortBody_plain hlow hlowBreak hlowQuote, ih]
      · have hbreak : isBreak c = false := by simp [isBreak, hfeed, hreturn]
        rw [hplain]
        simp [splitShortBody_plain hbackslash hbreak hne, ih]

/-- A literal is read to its end, whatever follows it but another quote. -/
theorem splitString_quoteString (value : String) (rest : List Char)
    (hrest : ∀ c, IsQuote c → rest.head? ≠ some c) :
    splitString ((quoteString value).toList ++ rest) = some ((quoteString value).toList, rest) := by
  generalize hquoteFor : quoteFor value.toList = quote
  have hquote : IsQuote quote := hquoteFor ▸ isQuote_quoteFor _
  have hraw : (quoteString value).toList =
      quote :: (value.toList.flatMap (literalChar quote) ++ [quote]) := by
    simp [quoteString, hquoteFor]
  rw [hraw, List.cons_append, List.append_assoc, List.singleton_append, splitString,
    afterStart_literal hquote _ _ (hrest quote hquote), splitShortBody_literal hquote]
  rfl

/-- No line break is part of a literal. -/
theorem unbroken_quoteString (value : String) :
    ∀ c ∈ (quoteString value).toList, isBreak c = false := by
  generalize hquoteFor : quoteFor value.toList = quote
  have hquote : IsQuote quote := hquoteFor ▸ isQuote_quoteFor _
  have hquoteBreak : isBreak quote = false := by rcases hquote with rfl | rfl <;> rfl
  have hdigit : ∀ n < 16, isBreak (Nat.digitChar n) = false := by decide
  intro c hc
  simp only [quoteString, hquoteFor, String.toList_ofList, List.mem_cons, List.mem_append,
    List.mem_flatMap, List.not_mem_nil, or_false] at hc
  rcases hc with rfl | ⟨a, _, hc⟩ | rfl
  · exact hquoteBreak
  · rcases literalChar_cases hquote a with ⟨d, hd, hbreak, _⟩ | ⟨hcontrol, hcode⟩ |
      ⟨hplain, _, hfeed, hreturn, _⟩
    · rw [hd] at hc
      rcases List.mem_pair.1 hc with rfl | rfl
      · rfl
      · exact hbreak
    · have hsmall : a.toNat / 16 < 16 := by
        simp only [isControl, Bool.or_eq_true, Bool.and_eq_true, decide_eq_true_eq] at hcontrol
        omega
      rw [hcode] at hc
      simp only [List.mem_cons, List.not_mem_nil, or_false] at hc
      rcases hc with rfl | rfl | rfl | rfl
      · rfl
      · rfl
      · exact hdigit _ hsmall
      · exact hdigit _ (Nat.mod_lt _ (by decide))
    · rw [hplain, List.mem_singleton] at hc
      subst hc
      simp [isBreak, hfeed, hreturn]
  · exact hquoteBreak

end TriviaTree.Token
