import TriviaTree.Token.Basic

/-!
Where a name, a number, a string or an operator ends.

Each function cuts one lexeme off the front of a text: what it takes and what it leaves, put
together again, are the text (`splitNumber_append` and its kin), so nothing is lost and the
caller's recursion on what is left ends.
-/

set_option autoImplicit false

namespace TriviaTree.Token

/-- The longest start of `cs` made of characters in `p`, and the rest. -/
def splitWhile (p : Char → Bool) (cs : List Char) : List Char × List Char :=
  (cs.takeWhile p, cs.dropWhile p)

theorem splitWhile_append (p : Char → Bool) (cs : List Char) :
    (splitWhile p cs).1 ++ (splitWhile p cs).2 = cs :=
  List.takeWhile_append_dropWhile

/-- A line break: carriage return and line feed together, or either alone. -/
def splitBreak : List Char → List Char × List Char
  | '\r' :: '\n' :: cs => (['\r', '\n'], cs)
  | '\r' :: cs => (['\r'], cs)
  | '\n' :: cs => (['\n'], cs)
  | cs => ([], cs)

theorem splitBreak_append (cs : List Char) :
    (splitBreak cs).1 ++ (splitBreak cs).2 = cs := by
  unfold splitBreak
  split <;> rfl

def isBreak (c : Char) : Bool :=
  c = '\r' || c = '\n'

theorem splitBreak_ne_nil {c : Char} {cs : List Char} (hc : isBreak c = true) :
    (splitBreak (c :: cs)).1 ≠ [] := by
  have : c = '\r' ∨ c = '\n' := by simpa [isBreak] using hc
  unfold splitBreak
  split <;> simp_all

/-- The characters a logical line may be indented with. -/
def isIndentation (c : Char) : Bool :=
  c = ' ' || c = '\t' || c = '\x0c'

/-- The text of a comment up to the end of its line. -/
def splitComment (cs : List Char) : List Char × List Char :=
  splitWhile (fun c => !isBreak c) cs

/-- Digits may be grouped by underscores. -/
def isDigitPart (c : Char) : Bool :=
  c.isDigit || c = '_'

/-- The letter after a leading zero that sets the base of an integer. -/
def isBaseLetter (c : Char) : Bool :=
  ['x', 'X', 'o', 'O', 'b', 'B'].contains c

/-- A point and the digits after it, if a point is next. -/
def splitFraction : List Char → List Char × List Char
  | '.' :: cs => let (digits, rest) := splitWhile isDigitPart cs; ('.' :: digits, rest)
  | cs => ([], cs)

theorem splitFraction_append (cs : List Char) :
    (splitFraction cs).1 ++ (splitFraction cs).2 = cs := by
  unfold splitFraction
  split
  · simp [splitWhile]
  · rfl

/-- An exponent: a mark, perhaps a sign, and at least one digit. A mark without digits is not
part of the number. -/
def splitExponent : List Char → List Char × List Char
  | mark :: sign :: cs =>
      if mark = 'e' || mark = 'E' then
        if sign.isDigit then
          let (digits, rest) := splitWhile Char.isDigit (sign :: cs)
          (mark :: digits, rest)
        else if (sign = '+' || sign = '-') && (cs.head?.any Char.isDigit) then
          let (digits, rest) := splitWhile Char.isDigit cs
          (mark :: sign :: digits, rest)
        else ([], mark :: sign :: cs)
      else ([], mark :: sign :: cs)
  | cs => ([], cs)

theorem splitExponent_append (cs : List Char) :
    (splitExponent cs).1 ++ (splitExponent cs).2 = cs := by
  unfold splitExponent
  split
  · split
    · split
      · simp [splitWhile]
      · split <;> simp [splitWhile]
    · rfl
  · rfl

/-- The suffix of an imaginary number. -/
def splitImaginary : List Char → List Char × List Char
  | c :: cs => if c = 'j' || c = 'J' then ([c], cs) else ([], c :: cs)
  | [] => ([], [])

theorem splitImaginary_append (cs : List Char) :
    (splitImaginary cs).1 ++ (splitImaginary cs).2 = cs := by
  unfold splitImaginary
  split
  · split <;> rfl
  · rfl

/-- A number without a base letter. A point, an exponent or an imaginary suffix makes it a
float. -/
def splitDecimal (cs : List Char) : TokenKind × List Char × List Char :=
  let (whole, afterWhole) := splitWhile isDigitPart cs
  let (fraction, afterFraction) := splitFraction afterWhole
  let (exponent, afterExponent) := splitExponent afterFraction
  let (suffix, rest) := splitImaginary afterExponent
  let marks := fraction ++ exponent ++ suffix
  (if marks.isEmpty then .int else .float, whole ++ marks, rest)

theorem splitDecimal_append (cs : List Char) :
    (splitDecimal cs).2.1 ++ (splitDecimal cs).2.2 = cs := by
  simp only [splitDecimal, List.append_assoc, splitImaginary_append, splitExponent_append,
    splitFraction_append, splitWhile_append]

/-- A number literal: an integer with a base letter, or a decimal number. -/
def splitNumber (cs : List Char) : TokenKind × List Char × List Char :=
  match cs with
  | '0' :: base :: rest =>
      if isBaseLetter base then
        let (digits, rest) := splitWhile (fun c => c.isAlphanum || c = '_') rest
        (.int, '0' :: base :: digits, rest)
      else splitDecimal cs
  | _ => splitDecimal cs

theorem splitNumber_append (cs : List Char) :
    (splitNumber cs).2.1 ++ (splitNumber cs).2.2 = cs := by
  unfold splitNumber
  split
  · split
    · simp [splitWhile]
    · exact splitDecimal_append _
  · exact splitDecimal_append _

theorem splitNumber_ne_nil {c : Char} {cs : List Char} (h : c.isDigit = true ∨ c = '.') :
    (splitNumber (c :: cs)).2.1 ≠ [] := by
  have hdecimal : (splitDecimal (c :: cs)).2.1 ≠ [] := by
    rcases h with hdigit | rfl
    · simp [splitDecimal, splitWhile, isDigitPart, hdigit]
    · simp [splitDecimal, splitWhile, isDigitPart, splitFraction]
  unfold splitNumber
  split
  · split
    · simp
    · exact hdecimal
  · exact hdecimal

/-- The body of a string on one line, up to and with the closing quote. A backslash takes the
character after it along, whatever it is. -/
def splitShortBody (quote : Char) : List Char → Option (List Char × List Char)
  | [] => none
  | '\\' :: [] => none
  | '\\' :: c :: cs => (splitShortBody quote cs).map fun (body, rest) => ('\\' :: c :: body, rest)
  | c :: cs =>
      if isBreak c then none
      else if c = quote then some ([c], cs)
      else (splitShortBody quote cs).map fun (body, rest) => (c :: body, rest)

/-- The body of a string between tripled quotes, up to and with the closing ones. -/
def splitLongBody (quote : Char) : List Char → Option (List Char × List Char)
  | [] => none
  | '\\' :: [] => none
  | '\\' :: c :: cs => (splitLongBody quote cs).map fun (body, rest) => ('\\' :: c :: body, rest)
  | c :: cs =>
      match Text.afterStart [quote, quote, quote] (c :: cs) with
      | some rest => some ([quote, quote, quote], rest)
      | none => (splitLongBody quote cs).map fun (body, rest) => (c :: body, rest)

theorem afterStart_append {start cs rest : List Char} (h : Text.afterStart start cs = some rest) :
    start ++ rest = cs := by
  induction start generalizing cs with
  | nil => simpa [Text.afterStart] using h.symm
  | cons a start ih =>
      cases cs with
      | nil => simp [Text.afterStart] at h
      | cons c cs =>
          by_cases hac : a = c
          · simp only [Text.afterStart, hac, if_true] at h
            simp [hac, ih h]
          · simp [Text.afterStart, hac] at h

theorem splitShortBody_append {quote : Char} {cs body rest : List Char}
    (h : splitShortBody quote cs = some (body, rest)) : body ++ rest = cs := by
  fun_induction splitShortBody quote cs generalizing body rest with
  | case1 => simp at h
  | case2 => simp at h
  | case3 c cs ih =>
      obtain ⟨⟨b, r⟩, hbr, heq⟩ := Option.map_eq_some_iff.1 h
      cases heq
      simp [ih hbr]
  | case4 => simp at h
  | case5 =>
      cases h
      simp
  | case6 c cs _ _ _ _ ih =>
      obtain ⟨⟨b, r⟩, hbr, heq⟩ := Option.map_eq_some_iff.1 h
      cases heq
      simp [ih hbr]

theorem splitLongBody_append {quote : Char} {cs body rest : List Char}
    (h : splitLongBody quote cs = some (body, rest)) : body ++ rest = cs := by
  fun_induction splitLongBody quote cs generalizing body rest with
  | case1 => simp at h
  | case2 => simp at h
  | case3 c cs ih =>
      obtain ⟨⟨b, r⟩, hbr, heq⟩ := Option.map_eq_some_iff.1 h
      cases heq
      simp [ih hbr]
  | case4 c cs _ _ r hr =>
      cases h
      exact afterStart_append hr
  | case5 c cs _ _ _ ih =>
      obtain ⟨⟨b, r⟩, hbr, heq⟩ := Option.map_eq_some_iff.1 h
      cases heq
      simp [ih hbr]

/-- A string literal, whose opening quote is the first character; `none` when it never closes. -/
def splitString : List Char → Option (List Char × List Char)
  | [] => none
  | quote :: cs =>
      match Text.afterStart [quote, quote] cs with
      | some inner =>
          (splitLongBody quote inner).map fun (body, rest) =>
            (quote :: quote :: quote :: body, rest)
      | none => (splitShortBody quote cs).map fun (body, rest) => (quote :: body, rest)

theorem splitString_append {cs taken rest : List Char}
    (h : splitString cs = some (taken, rest)) : taken ++ rest = cs := by
  unfold splitString at h
  split at h
  · simp at h
  · split at h
    · next quote cs inner hinner =>
        obtain ⟨⟨b, r⟩, hbr, heq⟩ := Option.map_eq_some_iff.1 h
        cases heq
        rw [← afterStart_append hinner, ← splitLongBody_append hbr]
        rfl
    · obtain ⟨⟨b, r⟩, hbr, heq⟩ := Option.map_eq_some_iff.1 h
      cases heq
      rw [← splitShortBody_append hbr]
      rfl

theorem splitString_ne_nil {cs taken rest : List Char}
    (h : splitString cs = some (taken, rest)) : taken ≠ [] := by
  unfold splitString at h
  split at h
  · simp at h
  · split at h <;>
    · obtain ⟨_, _, heq⟩ := Option.map_eq_some_iff.1 h
      cases heq
      simp

/-- Every operator and delimiter, longer ones first. -/
def operators : List String :=
  ["**=", "//=", ">>=", "<<=", "...",
   "**", "//", "<<", ">>", "<=", ">=", "==", "!=", "->", "+=", "-=", "*=", "/=", "%=", "&=",
   "|=", "^=", "@=", ":=",
   "+", "-", "*", "/", "%", "@", "&", "|", "^", "~", "<", ">", "(", ")", "[", "]", "\x7b",
   "\x7d", ",", ":", ".", ";", "="]

/-- The longest operator at the start of `cs`, and the rest. -/
def splitOperator (cs : List Char) : Option (String × List Char) :=
  operators.findSome? fun op => (Text.afterStart op.toList cs).map fun rest => (op, rest)

theorem splitOperator_append {cs rest : List Char} {op : String}
    (h : splitOperator cs = some (op, rest)) : op ∈ operators ∧ op.toList ++ rest = cs := by
  obtain ⟨found, hmem, hfound⟩ := List.exists_of_findSome?_eq_some h
  obtain ⟨r, hr, heq⟩ := Option.map_eq_some_iff.1 hfound
  cases heq
  exact ⟨hmem, afterStart_append hr⟩

theorem operator_ne_nil : ∀ op ∈ operators, op.toList ≠ [] := by
  decide

end TriviaTree.Token
