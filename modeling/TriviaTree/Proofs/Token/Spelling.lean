import Mathlib
import TriviaTree.Token.Scan

/-!
How the tokens of a text are spelled.

A token that is a name is an identifier or a keyword, a token that is a number would be cut off
as that number again if it stood alone, a string ends with a quote and an operator is one of the
listed ones (`Token.Spelled`). For numbers this is because every part of one ends where the next
begins: no part can take in the first character of a later one (`splitNumber_again`).
-/

set_option autoImplicit false

namespace TriviaTree

variable {rest tail : List Char} (cs : List Char)

/-- The text of a number: it begins like one, and the scanner takes all of it. -/
structure IsNumber (kind : TokenKind) (text : String) : Prop where
  starts : ∃ c cs, text.toList = c :: cs ∧
    (c.isDigit = true ∨ c = '.' ∧ cs.head?.any Char.isDigit = true)
  all : Token.splitNumber text.toList = (kind, text.toList, [])

namespace Token

/-- What is cut off a text by one part is not carried on by the next. -/
theorem splitWhile_takeWhile_append {p : Char → Bool} (htail : ∀ c ∈ tail.head?, p c = false) :
    splitWhile p ((splitWhile p cs).1 ++ tail) = ((splitWhile p cs).1, tail) := by
  simp only [splitWhile]
  induction cs with
  | nil =>
      cases tail with
      | nil => rfl
      | cons c tail => simp [htail c rfl]
  | cons c cs ih =>
      cases hc : p c with
      | true => simpa [hc] using ih
      | false =>
          cases tail with
          | nil => simp [hc]
          | cons d tail => simp [hc, htail d rfl]

/-- The characters that an exponent or a suffix begins with. -/
def IsMark (c : Char) : Prop :=
  c = 'e' ∨ c = 'E' ∨ c = 'j' ∨ c = 'J'

theorem IsMark.not_digit {c : Char} (h : IsMark c) : c.isDigit = false ∧ isDigitPart c = false ∧
    c ≠ '.' := by
  rcases h with rfl | rfl | rfl | rfl <;> decide

/-- The suffix of a number, if it has one. -/
theorem splitImaginary_cases : (splitImaginary cs).1 = [] ∨
    ∃ c, (c = 'j' ∨ c = 'J') ∧ (splitImaginary cs).1 = [c] := by
  cases cs with
  | nil => exact .inl rfl
  | cons c cs =>
      by_cases hc : (c = 'j' || c = 'J') = true
      · exact .inr ⟨c, by simpa using hc, by simp [splitImaginary, hc]⟩
      · exact .inl (by simp [splitImaginary, hc])

theorem splitImaginary_again :
    splitImaginary (splitImaginary cs).1 = ((splitImaginary cs).1, []) := by
  rcases splitImaginary_cases cs with hnone | ⟨c, hc, hsuffix⟩
  · rw [hnone]
    rfl
  · rw [hsuffix]
    simp [splitImaginary, hc]

/-- An exponent, if there is one: a mark, perhaps a sign, and digits. -/
theorem splitExponent_cases : (splitExponent cs).1 = [] ∨
    ∃ mark d ds, (mark = 'e' ∨ mark = 'E') ∧ d.isDigit = true ∧ ds.all Char.isDigit = true ∧
      ((splitExponent cs).1 = mark :: d :: ds ∨
        ∃ sign, (sign = '+' ∨ sign = '-') ∧ (splitExponent cs).1 = mark :: sign :: d :: ds) := by
  match cs with
  | [] | [_] => exact .inl rfl
  | mark :: sign :: cs =>
      by_cases hmark : (mark = 'e' || mark = 'E') = true
      · have hmark' : mark = 'e' ∨ mark = 'E' := by simpa using hmark
        by_cases hsign : sign.isDigit = true
        · refine .inr ⟨mark, sign, cs.takeWhile Char.isDigit, hmark', hsign, by simp, .inl ?_⟩
          simp [splitExponent, hmark', hsign, splitWhile]
        · by_cases hdigits : ((sign = '+' || sign = '-') && cs.head?.any Char.isDigit) = true
          · rw [Bool.and_eq_true] at hdigits
            obtain ⟨hplus, hhead⟩ := hdigits
            cases cs with
            | nil => simp at hhead
            | cons d ds =>
                have hd : d.isDigit = true := by simpa using hhead
                refine .inr ⟨mark, d, ds.takeWhile Char.isDigit, hmark', hd, by simp,
                  .inr ⟨sign, by simpa using hplus, ?_⟩⟩
                have hplus' : sign = '+' ∨ sign = '-' := by simpa using hplus
                simp [splitExponent, hmark', hsign, splitWhile, hplus', hd]
          · have hnone : splitExponent (mark :: sign :: cs) = ([], mark :: sign :: cs) := by
              rw [splitExponent, if_pos hmark, if_neg hsign, if_neg hdigits]
            exact .inl (congrArg Prod.fst hnone)
      · have hnone : splitExponent (mark :: sign :: cs) = ([], mark :: sign :: cs) := by
          rw [splitExponent, if_neg hmark]
        exact .inl (congrArg Prod.fst hnone)

theorem splitWhile_digits {ds : List Char} (hds : ds.all Char.isDigit = true)
    (htail : ∀ c ∈ tail.head?, c.isDigit = false) :
    splitWhile Char.isDigit (ds ++ tail) = (ds, tail) := by
  have hself : (splitWhile Char.isDigit ds).1 = ds :=
    List.takeWhile_eq_self_iff.2 (List.all_eq_true.1 hds)
  have hagain := splitWhile_takeWhile_append (p := Char.isDigit) ds htail
  rwa [hself] at hagain

/-- An exponent with a suffix after it is cut off up to the suffix. -/
theorem splitExponent_again (htail : tail = [] ∨ ∃ c, (c = 'j' ∨ c = 'J') ∧ tail = [c]) :
    splitExponent ((splitExponent cs).1 ++ tail) = ((splitExponent cs).1, tail) := by
  have hdigit : ∀ c ∈ tail.head?, c.isDigit = false := by
    rcases htail with rfl | ⟨c, rfl | rfl, rfl⟩ <;> simp
  rcases splitExponent_cases cs with hnone | ⟨mark, d, ds, hmark, hd, hds, hexponent⟩
  · rw [hnone]
    rcases htail with rfl | ⟨c, -, rfl⟩ <;> rfl
  · have hall : (d :: ds).all Char.isDigit = true := by simp [hd, hds]
    have hdigits := splitWhile_digits hall hdigit
    rcases hexponent with hexponent | ⟨sign, hsign, hexponent⟩
    · rw [hexponent]
      rw [List.cons_append] at hdigits
      simp [splitExponent, hmark, hd, hdigits]
    · rw [hexponent]
      have hnot : sign.isDigit = false := by rcases hsign with rfl | rfl <;> decide
      rw [List.cons_append] at hdigits
      simp [splitExponent, hmark, hnot, hsign, hd, hdigits]

theorem point_of_splitFraction {cs : List Char} : ∀ c ∈ (splitFraction cs).1.head?, c = '.' := by
  intro c hc
  unfold splitFraction at hc
  split at hc
  · exact (Option.mem_some_iff.1 hc).symm
  · cases hc

theorem splitFraction_again (htail : ∀ c ∈ tail.head?, IsMark c) :
    splitFraction ((splitFraction cs).1 ++ tail) = ((splitFraction cs).1, tail) := by
  have hplain : ∀ ds : List Char, (∀ c ∈ ds.head?, c ≠ '.') → splitFraction ds = ([], ds) := by
    intro ds hds
    unfold splitFraction
    split
    · exact absurd rfl (hds '.' rfl)
    · rfl
  by_cases hpoint : cs.head? = some '.'
  · obtain ⟨ds, rfl⟩ := List.head?_eq_some_iff.1 hpoint
    have hagain := splitWhile_takeWhile_append (p := isDigitPart) ds
      fun c hc => (htail c hc).not_digit.2.1
    simp only [splitFraction, List.cons_append, hagain]
  · have hnone := hplain cs fun c hc heq => hpoint (heq ▸ hc)
    rw [hnone]
    exact hplain tail fun c hc => (htail c hc).not_digit.2.2

theorem splitDecimal_eq {cs : List Char} {whole fraction exponent suffix : List Char × List Char}
    (hwhole : splitWhile isDigitPart cs = whole) (hfraction : splitFraction whole.2 = fraction)
    (hexponent : splitExponent fraction.2 = exponent)
    (hsuffix : splitImaginary exponent.2 = suffix) :
    splitDecimal cs =
      (if (fraction.1 ++ exponent.1 ++ suffix.1).isEmpty then .int else .float,
        whole.1 ++ (fraction.1 ++ exponent.1 ++ suffix.1), suffix.2) := by
  subst hwhole hfraction hexponent hsuffix
  rfl

theorem splitDecimal_again :
    splitDecimal (splitDecimal cs).2.1 = ((splitDecimal cs).1, (splitDecimal cs).2.1, []) := by
  obtain ⟨whole, hwhole⟩ : ∃ whole, splitWhile isDigitPart cs = whole := ⟨_, rfl⟩
  obtain ⟨fraction, hfraction⟩ : ∃ fraction, splitFraction whole.2 = fraction := ⟨_, rfl⟩
  obtain ⟨exponent, hexponent⟩ : ∃ exponent, splitExponent fraction.2 = exponent := ⟨_, rfl⟩
  obtain ⟨suffix, hsuffix⟩ : ∃ suffix, splitImaginary exponent.2 = suffix := ⟨_, rfl⟩
  have hsuffixCases : suffix.1 = [] ∨ ∃ c, (c = 'j' ∨ c = 'J') ∧ suffix.1 = [c] :=
    hsuffix ▸ splitImaginary_cases exponent.2
  have hexponentMark : ∀ c ∈ exponent.1.head?, c = 'e' ∨ c = 'E' := by
    intro c hc
    rcases hexponent ▸ splitExponent_cases fraction.2 with hnone | ⟨mark, d, ds, hmark, -, -, h⟩
    · simp [hnone] at hc
    · rcases h with h | ⟨sign, -, h⟩ <;>
      · rw [h] at hc
        cases hc
        exact hmark
  have hfractionPoint : ∀ c ∈ fraction.1.head?, c = '.' := hfraction ▸ point_of_splitFraction
  have hlater : ∀ c ∈ (exponent.1 ++ suffix.1).head?, IsMark c := by
    intro c hc
    cases hempty : exponent.1 with
    | nil =>
        rw [hempty, List.nil_append] at hc
        rcases hsuffixCases with hnone | ⟨d, hd, hone⟩
        · simp [hnone] at hc
        · rw [hone] at hc
          cases hc
          exact .inr (.inr hd)
    | cons d ds =>
        have : c ∈ exponent.1.head? := by simpa [hempty] using hc
        exact (hexponentMark c this).elim .inl fun h => .inr (.inl h)
  have hmarks : ∀ c ∈ (fraction.1 ++ exponent.1 ++ suffix.1).head?, isDigitPart c = false := by
    intro c hc
    rw [List.append_assoc] at hc
    cases hempty : fraction.1 with
    | nil =>
        rw [hempty, List.nil_append] at hc
        exact (hlater c hc).not_digit.2.1
    | cons d ds =>
        have : c ∈ fraction.1.head? := by simpa [hempty] using hc
        rw [hfractionPoint c this]
        decide
  have hwholeAgain : splitWhile isDigitPart (whole.1 ++ (fraction.1 ++ exponent.1 ++ suffix.1)) =
      (whole.1, fraction.1 ++ exponent.1 ++ suffix.1) :=
    hwhole ▸ splitWhile_takeWhile_append cs hmarks
  have hfractionAgain : splitFraction (fraction.1 ++ exponent.1 ++ suffix.1) =
      (fraction.1, exponent.1 ++ suffix.1) := by
    rw [List.append_assoc]
    exact hfraction ▸ splitFraction_again whole.2 hlater
  have hexponentAgain : splitExponent (exponent.1 ++ suffix.1) = (exponent.1, suffix.1) :=
    hexponent ▸ splitExponent_again fraction.2 hsuffixCases
  have hsuffixAgain : splitImaginary suffix.1 = (suffix.1, []) :=
    hsuffix ▸ splitImaginary_again exponent.2
  rw [splitDecimal_eq hwhole hfraction hexponent hsuffix]
  exact splitDecimal_eq hwholeAgain hfractionAgain hexponentAgain hsuffixAgain

theorem splitNumber_of_not_base {cs : List Char}
    (h : ∀ base rest, cs = '0' :: base :: rest → isBaseLetter base = false) :
    splitNumber cs = splitDecimal cs := by
  unfold splitNumber
  split
  · next base rest => rw [if_neg (by rw [h base rest rfl]; decide)]
  · rfl

theorem splitNumber_of_base {base : Char} (h : isBaseLetter base = true) :
    splitNumber ('0' :: base :: rest) =
      (.int, '0' :: base :: (splitWhile (fun c => c.isAlphanum || c = '_') rest).1,
        (splitWhile (fun c => c.isAlphanum || c = '_') rest).2) := by
  rw [splitNumber, if_pos h]

/-- A number that is cut off a text is a number by itself. -/
theorem splitNumber_again :
    splitNumber (splitNumber cs).2.1 = ((splitNumber cs).1, (splitNumber cs).2.1, []) := by
  by_cases hbase : ∃ base rest, cs = '0' :: base :: rest ∧ isBaseLetter base = true
  · obtain ⟨base, rest, rfl, hbase⟩ := hbase
    have hagain := splitWhile_takeWhile_append (p := fun c => c.isAlphanum || c = '_') rest
      (fun c (hc : c ∈ [].head?) => absurd hc (by simp))
    rw [List.append_nil] at hagain
    rw [splitNumber_of_base hbase, splitNumber_of_base hbase, hagain]
  · push Not at hbase
    have hplain : splitNumber cs = splitDecimal cs :=
      splitNumber_of_not_base fun base rest hcs => by simpa using hbase base rest hcs
    rw [hplain, splitNumber_of_not_base, splitDecimal_again]
    -- the second character of the number is that of the text
    intro base rest htaken
    have happend := splitDecimal_append cs
    rw [htaken] at happend
    simpa using hbase base _ happend.symm

theorem splitNumber_int_or_float : (splitNumber cs).1 = .int ∨ (splitNumber cs).1 = .float := by
  have hdecimal : (splitDecimal cs).1 = .int ∨ (splitDecimal cs).1 = .float := by
    simp only [splitDecimal]
    split
    · exact .inl rfl
    · exact .inr rfl
  unfold splitNumber
  split
  · split
    · exact .inl rfl
    · exact hdecimal
  · exact hdecimal

theorem splitNumber_kind :
    (splitNumber cs).1 ≠ .name ∧ (splitNumber cs).1 ≠ .op ∧ (splitNumber cs).1 ≠ .str ∧
      (splitNumber cs).1 ≠ .comment := by
  rcases splitNumber_int_or_float cs with h | h <;> simp [h]

/-- A text that begins like a number is cut after its first two characters at the earliest when the
first is a point. -/
theorem isNumber_splitNumber {c : Char} {cs : List Char}
    (h : c.isDigit = true ∨ c = '.' ∧ cs.head?.any Char.isDigit = true) :
    IsNumber (splitNumber (c :: cs)).1 (String.ofList (splitNumber (c :: cs)).2.1) where
  starts := by
    rw [String.toList_ofList]
    rcases h with hdigit | ⟨rfl, hnext⟩
    · have hne : (splitNumber (c :: cs)).2.1 ≠ [] := splitNumber_ne_nil (.inl hdigit)
      obtain ⟨d, ds, htaken⟩ := List.exists_cons_of_ne_nil hne
      have happend := splitNumber_append (c :: cs)
      rw [htaken, List.cons_append] at happend
      exact ⟨d, ds, htaken, .inl ((List.cons.inj happend).1 ▸ hdigit)⟩
    · cases cs with
      | nil => simp at hnext
      | cons d ds =>
          have hd : d.isDigit = true := by simpa using hnext
          have hplain : splitNumber ('.' :: d :: ds) = splitDecimal ('.' :: d :: ds) :=
            splitNumber_of_not_base fun base rest hcs => by simp at hcs
          obtain ⟨more, htaken⟩ : ∃ more, (splitDecimal ('.' :: d :: ds)).2.1 = '.' :: d :: more := by
            simp [splitDecimal, splitWhile, splitFraction, isDigitPart, hd]
          exact ⟨'.', d :: more, by rw [hplain, htaken], .inr ⟨rfl, by simpa using hd⟩⟩
  all := by
    rw [String.toList_ofList]
    exact splitNumber_again _

theorem splitShortBody_getLast? {quote : Char} {cs body : List Char}
    (h : splitShortBody quote cs = some (body, rest)) : body.getLast? = some quote := by
  fun_induction splitShortBody quote cs generalizing body rest with
  | case1 => simp at h
  | case2 => simp at h
  | case3 c cs ih =>
      obtain ⟨⟨b, r⟩, hbr, heq⟩ := Option.map_eq_some_iff.1 h
      cases heq
      simp [List.getLast?_cons, ih hbr]
  | case4 => simp at h
  | case5 =>
      cases h
      rfl
  | case6 c cs _ _ _ _ ih =>
      obtain ⟨⟨b, r⟩, hbr, heq⟩ := Option.map_eq_some_iff.1 h
      cases heq
      simp [List.getLast?_cons, ih hbr]

theorem splitLongBody_getLast? {quote : Char} {cs body : List Char}
    (h : splitLongBody quote cs = some (body, rest)) : body.getLast? = some quote := by
  fun_induction splitLongBody quote cs generalizing body rest with
  | case1 => simp at h
  | case2 => simp at h
  | case3 c cs ih =>
      obtain ⟨⟨b, r⟩, hbr, heq⟩ := Option.map_eq_some_iff.1 h
      cases heq
      simp [List.getLast?_cons, ih hbr]
  | case4 =>
      cases h
      rfl
  | case5 c cs _ _ _ ih =>
      obtain ⟨⟨b, r⟩, hbr, heq⟩ := Option.map_eq_some_iff.1 h
      cases heq
      simp [List.getLast?_cons, ih hbr]

/-- A string ends with the quote it begins with. -/
theorem splitString_getLast? {quote : Char} {cs taken : List Char}
    (h : splitString (quote :: cs) = some (taken, rest)) : taken.getLast? = some quote := by
  rw [splitString] at h
  split at h
  · obtain ⟨⟨b, r⟩, hbr, heq⟩ := Option.map_eq_some_iff.1 h
    cases heq
    simp [List.getLast?_cons, splitLongBody_getLast? hbr]
  · obtain ⟨⟨b, r⟩, hbr, heq⟩ := Option.map_eq_some_iff.1 h
    cases heq
    simp [List.getLast?_cons, splitShortBody_getLast? hbr]

end Token

/-- The text of a token is what its kind says. -/
structure Token.Spelled (t : Token) : Prop where
  name : t.kind = .name → Text.isIdentifier t.text.toList = true
  number : t.kind = .int ∨ t.kind = .float → IsNumber t.kind t.text
  string : t.kind = .str → t.text.toList.getLast? = some '"' ∨ t.text.toList.getLast? = some '\''
  operator : t.kind = .op → t.text ∈ Token.operators
  comment : t.kind = .comment → ∀ c ∈ t.text.toList, Token.isBreak c = false

theorem Token.Spelled.of_isLayout {t : Token} (h : t.kind.isLayout = true) : t.Spelled where
  name hkind := by simp [hkind, TokenKind.isLayout] at h
  number hkind := by rcases hkind with hkind | hkind <;> simp [hkind, TokenKind.isLayout] at h
  string hkind := by simp [hkind, TokenKind.isLayout] at h
  operator hkind := by simp [hkind, TokenKind.isLayout] at h
  comment hkind := by simp [hkind, TokenKind.isLayout] at h

end TriviaTree
