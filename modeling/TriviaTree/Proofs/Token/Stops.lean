import Mathlib
import TriviaTree.Proofs.Token.Layout

/-!
What a lexeme can see of the text after it.

Lexemes other than strings never reach past a line break or a `#`: each cut of `Token.Split` takes
from `u ++ v` what it takes from `u`, when `v` is empty or begins with such a character (`Stops`). So
a text may be changed from there on without changing how the lexeme before is cut (`Cleared`); for
strings it is enough that the lexeme is all there (`Cleared.splitString`).
-/

set_option autoImplicit false

namespace TriviaTree

variable {c quote : Char} {p : Char → Bool} {body rest : List Char}

namespace Token

/-- A line break, or the beginning of a comment. -/
def isStop (c : Char) : Bool :=
  isBreak c || c = '#'

/-- Nothing, or a text that begins with a stop. -/
def Stops (cs : List Char) : Prop :=
  ∀ c ∈ cs.head?, isStop c = true

theorem stops_nil : Stops [] := by
  simp [Stops]

theorem stops_cons {cs : List Char} : Stops (c :: cs) ↔ isStop c = true := by
  simp [Stops]

theorem isStop_cases (h : isStop c = true) : c = '\r' ∨ c = '\n' ∨ c = '#' := by
  simpa [isStop, isBreak, or_assoc] using h

/-- A class of characters that lexemes are made of. -/
theorem not_of_isStop (hp : p '\r' = false ∧ p '\n' = false ∧ p '#' = false) (h : isStop c = true) :
    p c = false := by
  rcases isStop_cases h with rfl | rfl | rfl
  · exact hp.1
  · exact hp.2.1
  · exact hp.2.2

section Cuts

variable {u v : List Char} (hv : Stops v)

include hv

theorem splitWhile_stop (hp : p '\r' = false ∧ p '\n' = false ∧ p '#' = false) :
    splitWhile p (u ++ v) = ((splitWhile p u).1, (splitWhile p u).2 ++ v) := by
  simp only [splitWhile]
  induction u with
  | nil =>
      cases v with
      | nil => rfl
      | cons c v => simp [not_of_isStop hp (stops_cons.1 hv)]
  | cons c u ih =>
      cases hc : p c with
      | true => simpa [hc] using ih
      | false => simp [hc]

theorem splitFraction_stop :
    splitFraction (u ++ v) = ((splitFraction u).1, (splitFraction u).2 ++ v) := by
  cases u with
  | nil =>
      cases v with
      | nil => rfl
      | cons c v => rcases isStop_cases (stops_cons.1 hv) with rfl | rfl | rfl <;> rfl
  | cons c u =>
      by_cases hc : c = '.'
      · subst hc
        simp only [List.cons_append, splitFraction,
          splitWhile_stop hv (p := isDigitPart) (by decide)]
      · simp [splitFraction, hc]

theorem splitExponent_stop :
    splitExponent (u ++ v) = ((splitExponent u).1, (splitExponent u).2 ++ v) := by
  have hdigit : v.head?.any Char.isDigit = false := by
    cases v with
    | nil => rfl
    | cons c v => rcases isStop_cases (stops_cons.1 hv) with rfl | rfl | rfl <;> rfl
  match u with
  | [] =>
      match v with
      | [] | [_] => rfl
      | c :: d :: v => rcases isStop_cases (stops_cons.1 hv) with rfl | rfl | rfl <;> rfl
  | [mark] =>
      cases v with
      | nil => rfl
      | cons c v =>
          rcases isStop_cases (stops_cons.1 hv) with rfl | rfl | rfl <;> simp [splitExponent]
  | mark :: sign :: u =>
      have hhead : (u ++ v).head?.any Char.isDigit = u.head?.any Char.isDigit := by
        cases u with
        | nil => simpa using hdigit
        | cons d u => rfl
      have hall := splitWhile_stop (u := sign :: u) hv (p := Char.isDigit) (by decide)
      have hrest := splitWhile_stop (u := u) hv (p := Char.isDigit) (by decide)
      simp only [List.cons_append] at hall
      simp only [List.cons_append, splitExponent, hhead, hall, hrest]
      split_ifs <;> rfl

theorem splitImaginary_stop :
    splitImaginary (u ++ v) = ((splitImaginary u).1, (splitImaginary u).2 ++ v) := by
  cases u with
  | nil =>
      cases v with
      | nil => rfl
      | cons c v =>
          rcases isStop_cases (stops_cons.1 hv) with rfl | rfl | rfl <;> simp [splitImaginary]
  | cons c u =>
      simp only [List.cons_append, splitImaginary]
      split <;> rfl

theorem splitDecimal_stop : splitDecimal (u ++ v) =
    ((splitDecimal u).1, (splitDecimal u).2.1, (splitDecimal u).2.2 ++ v) := by
  simp only [splitDecimal, splitWhile_stop hv (p := isDigitPart) (by decide), splitFraction_stop hv,
    splitExponent_stop hv, splitImaginary_stop hv]

theorem splitNumber_stop : splitNumber (u ++ v) =
    ((splitNumber u).1, (splitNumber u).2.1, (splitNumber u).2.2 ++ v) := by
  by_cases hbase : ∃ base rest, u = '0' :: base :: rest ∧ isBaseLetter base = true
  · obtain ⟨base, rest, rfl, hbase⟩ := hbase
    have hdigits := splitWhile_stop (u := rest) hv (p := fun c => c.isAlphanum || c = '_')
      (by decide)
    simp only [List.cons_append, splitNumber_of_base hbase, hdigits]
  · have hplain : ∀ base rest, u = '0' :: base :: rest → isBaseLetter base = false := by
      intro base rest hu
      by_contra hne
      exact hbase ⟨base, rest, hu, by simpa using hne⟩
    rw [splitNumber_of_not_base hplain, splitNumber_of_not_base, splitDecimal_stop hv]
    intro base rest huv
    match u with
    | [] =>
        subst huv
        have hzero : isStop '0' = true := stops_cons.1 hv
        simp [isStop, isBreak] at hzero
    | [c] =>
        cases huv
        exact not_of_isStop (by decide) (stops_cons.1 hv)
    | c :: d :: u =>
        cases huv
        exact hplain _ u rfl

theorem afterStart_stop {start : List Char} (hstart : ∀ c ∈ start, isStop c = false) :
    Text.afterStart start (u ++ v) = (Text.afterStart start u).map (· ++ v) := by
  induction start generalizing u with
  | nil => simp [Text.afterStart]
  | cons a start ih =>
      cases u with
      | nil =>
          cases v with
          | nil => rfl
          | cons c v =>
              have hne : a ≠ c := by
                rintro rfl
                have := hstart a List.mem_cons_self
                simp [stops_cons.1 hv] at this
              simp [Text.afterStart, hne]
      | cons c u =>
          by_cases hac : a = c
          · simp [Text.afterStart, hac, ih fun c hc => hstart c (List.mem_cons_of_mem a hc)]
          · simp [Text.afterStart, hac]

omit hv in
theorem isStop_of_mem_operators : ∀ op ∈ operators, ∀ c ∈ op.toList, isStop c = false := by
  have hall : operators.all (fun op => op.toList.all (!isStop ·)) = true := by decide
  intro op hop c hc
  simpa using List.all_eq_true.1 (List.all_eq_true.1 hall op hop) c hc

theorem splitOperator_stop :
    splitOperator (u ++ v) = (splitOperator u).map fun found => (found.1, found.2 ++ v) := by
  have hoperators := isStop_of_mem_operators
  unfold splitOperator
  generalize operators = ops at hoperators ⊢
  induction ops with
  | nil => rfl
  | cons op ops ih =>
      have hhere := afterStart_stop (u := u) hv (hoperators op List.mem_cons_self)
      have ih := ih (List.forall_mem_cons.1 hoperators).2
      simp only [List.findSome?_cons, hhere, Option.map_map]
      cases Text.afterStart op.toList u with
      | none => simpa using ih
      | some rest => rfl

end Cuts

/-! ### Strings -/

theorem splitShortBody_cons {cs : List Char} (hc : c ≠ '\\') :
    splitShortBody quote (c :: cs) =
      if isBreak c then none
      else if c = quote then some ([c], cs)
      else (splitShortBody quote cs).map fun (body, rest) => (c :: body, rest) := by
  cases cs <;> simp [splitShortBody, hc]

theorem splitLongBody_cons {cs : List Char} (hc : c ≠ '\\') :
    splitLongBody quote (c :: cs) =
      match Text.afterStart [quote, quote, quote] (c :: cs) with
      | some rest => some ([quote, quote, quote], rest)
      | none => (splitLongBody quote cs).map fun (body, rest) => (c :: body, rest) := by
  cases cs <;> cases h : Text.afterStart [quote, quote, quote] (c :: _) <;>
    simp [splitLongBody, hc, h]

/-- The body of a string is found whatever follows it. -/
theorem splitShortBody_any {cs : List Char} (h : splitShortBody quote cs = some (body, rest))
    (rest' : List Char) : splitShortBody quote (body ++ rest') = some (body, rest') := by
  fun_induction splitShortBody quote cs generalizing body rest with
  | case1 => cases h
  | case2 => cases h
  | case3 c cs ih =>
      obtain ⟨⟨b, r⟩, hbr, heq⟩ := Option.map_eq_some_iff.1 h
      cases heq
      simp [splitShortBody, ih hbr]
  | case4 => cases h
  | case5 cs hlast hpair hbreak =>
      cases h
      have hslash : quote ≠ '\\' := by
        cases cs <;> grind
      simp [splitShortBody_cons hslash, hbreak]
  | case6 c cs hlast hpair hbreak hquote ih =>
      obtain ⟨⟨b, r⟩, hbr, heq⟩ := Option.map_eq_some_iff.1 h
      cases heq
      have hslash : c ≠ '\\' := by
        cases cs <;> grind
      simp [splitShortBody_cons hslash, hbreak, hquote, ih hbr]

/-- The closing quotes are the last of a long body. -/
theorem splitLongBody_length {cs : List Char} (h : splitLongBody quote cs = some (body, rest)) :
    3 ≤ body.length := by
  fun_induction splitLongBody quote cs generalizing body rest with
  | case1 => cases h
  | case2 => cases h
  | case3 c cs ih | case5 c cs _ _ _ ih =>
      obtain ⟨⟨b, r⟩, hbr, heq⟩ := Option.map_eq_some_iff.1 h
      cases heq
      have := ih hbr
      simp only [List.length_cons]
      omega
  | case4 =>
      cases h
      simp

/-- Whether a text begins with `start` shows in as many characters as `start` has. -/
theorem afterStart_any {start cs : List Char} (hlength : start.length ≤ cs.length)
    (rest rest' : List Char) (h : Text.afterStart start (cs ++ rest) = none) :
    Text.afterStart start (cs ++ rest') = none := by
  induction start generalizing cs with
  | nil => simp [Text.afterStart] at h
  | cons a start ih =>
      cases cs with
      | nil => simp at hlength
      | cons c cs =>
          by_cases hac : a = c
          · simp only [List.cons_append, Text.afterStart, hac, if_true] at h ⊢
            exact ih (by simpa using hlength) h
          · simp [Text.afterStart, hac]

theorem splitLongBody_any {cs : List Char} (h : splitLongBody quote cs = some (body, rest))
    (rest' : List Char) : splitLongBody quote (body ++ rest') = some (body, rest') := by
  fun_induction splitLongBody quote cs generalizing body rest with
  | case1 => cases h
  | case2 => cases h
  | case3 c cs ih =>
      obtain ⟨⟨b, r⟩, hbr, heq⟩ := Option.map_eq_some_iff.1 h
      cases heq
      simp [splitLongBody, ih hbr]
  | case4 c cs hlast hpair rest hclosed =>
      cases h
      have hslash : c ≠ '\\' := by
        cases cs <;> grind
      obtain ⟨rfl, -⟩ : quote = c ∧ _ := List.cons.inj (afterStart_append hclosed)
      simp [splitLongBody_cons hslash, Text.afterStart]
  | case5 c cs hlast hpair hopen ih =>
      obtain ⟨⟨b, r⟩, hbr, heq⟩ := Option.map_eq_some_iff.1 h
      cases heq
      have hslash : c ≠ '\\' := by
        cases cs <;> grind
      have hbody := splitLongBody_length hbr
      rw [← splitLongBody_append hbr, ← List.cons_append] at hopen
      have hopen' := afterStart_any (by simp only [List.length_cons, List.length_nil]; omega)
        rest rest' hopen
      rw [List.cons_append] at hopen'
      simp [splitLongBody_cons hslash, hopen', ih hbr]

/-! ### Texts that are the same up to a stop -/

/-- Two texts that are the same up to a stop, or to the end. -/
def Cleared (cs cs' : List Char) : Prop :=
  ∃ u v v', cs = u ++ v ∧ cs' = u ++ v' ∧ Stops v ∧ Stops v'

namespace Cleared

variable {taken cs cs' : List Char}

theorem of_stops (h : Stops cs) (h' : Stops cs') : Cleared cs cs' :=
  ⟨[], cs, cs', rfl, rfl, h, h'⟩

theorem cons (c : Char) (h : Cleared cs cs') : Cleared (c :: cs) (c :: cs') := by
  obtain ⟨u, v, v', rfl, rfl, hv, hv'⟩ := h
  exact ⟨c :: u, v, v', rfl, rfl, hv, hv'⟩

theorem head?_any (h : Cleared cs cs') (hp : p '\r' = false ∧ p '\n' = false ∧ p '#' = false) :
    cs'.head?.any p = cs.head?.any p := by
  obtain ⟨u, v, v', rfl, rfl, hv, hv'⟩ := h
  have hnone : ∀ v : List Char, Stops v → v.head?.any p = false := by
    intro v hv
    cases v with
    | nil => rfl
    | cons c v => simpa using not_of_isStop hp (stops_cons.1 hv)
  cases u with
  | nil => simp only [List.nil_append, hnone v hv, hnone v' hv']
  | cons c u => rfl

theorem splitWhile (h : Cleared cs cs') (hp : p '\r' = false ∧ p '\n' = false ∧ p '#' = false)
    (hcut : Token.splitWhile p (taken ++ cs) = (taken, cs)) :
    Token.splitWhile p (taken ++ cs') = (taken, cs') := by
  obtain ⟨u, v, v', rfl, rfl, hv, hv'⟩ := h
  rw [← List.append_assoc, splitWhile_stop hv hp, Prod.mk.injEq, List.append_cancel_right_eq] at hcut
  rw [← List.append_assoc, splitWhile_stop hv' hp, hcut.1, hcut.2]

theorem splitNumber (h : Cleared cs cs') {kind : TokenKind}
    (hcut : Token.splitNumber (taken ++ cs) = (kind, taken, cs)) :
    Token.splitNumber (taken ++ cs') = (kind, taken, cs') := by
  obtain ⟨u, v, v', rfl, rfl, hv, hv'⟩ := h
  rw [← List.append_assoc, splitNumber_stop hv, Prod.mk.injEq, Prod.mk.injEq,
    List.append_cancel_right_eq] at hcut
  rw [← List.append_assoc, splitNumber_stop hv', hcut.1, hcut.2.1, hcut.2.2]

theorem splitOperator (h : Cleared cs cs') {op : String}
    (hcut : Token.splitOperator (op.toList ++ cs) = some (op, cs)) :
    Token.splitOperator (op.toList ++ cs') = some (op, cs') := by
  obtain ⟨u, v, v', rfl, rfl, hv, hv'⟩ := h
  rw [← List.append_assoc, splitOperator_stop hv, Option.map_eq_some_iff] at hcut
  obtain ⟨⟨op', rest⟩, hfound, heq⟩ := hcut
  rw [Prod.mk.injEq, List.append_cancel_right_eq] at heq
  rw [← List.append_assoc, splitOperator_stop hv', hfound, ← heq.1, ← heq.2]
  rfl

/-- Of what follows a string, only the next character matters: one more quote. -/
theorem splitString (h : Cleared cs cs') (hquote : isStop quote = false)
    (hcut : Token.splitString (quote :: body ++ cs) = some (quote :: body, cs)) :
    Token.splitString (quote :: body ++ cs') = some (quote :: body, cs') := by
  obtain ⟨u, v, v', rfl, rfl, hv, hv'⟩ := h
  have hquotes : ∀ c ∈ [quote, quote], isStop c = false := by simpa using hquote
  simp only [List.cons_append, Token.splitString] at hcut ⊢
  cases hopen : Text.afterStart [quote, quote] (body ++ (u ++ v)) with
  | none =>
      simp only [hopen] at hcut
      obtain ⟨⟨body', rest⟩, hbody, heq⟩ := Option.map_eq_some_iff.1 hcut
      obtain ⟨rfl, rfl⟩ : body' = body ∧ rest = u ++ v := by simpa using heq
      rw [← List.append_assoc, afterStart_stop hv hquotes, Option.map_eq_none_iff] at hopen
      have hopen' : Text.afterStart [quote, quote] (body' ++ (u ++ v')) = none := by
        rw [← List.append_assoc, afterStart_stop hv' hquotes, hopen]
        rfl
      simp [hopen', splitShortBody_any hbody (u ++ v')]
  | some inner =>
      simp only [hopen] at hcut
      obtain ⟨⟨body', rest⟩, hbody, heq⟩ := Option.map_eq_some_iff.1 hcut
      cases heq
      simp [Text.afterStart, splitLongBody_any hbody (u ++ v')]

end Cleared

end Token

end TriviaTree
