import Mathlib
import TriviaTree.Proofs.Text.Literal
import TriviaTree.Text.Quoted
import TriviaTree.Tree.Dump

/-!
Texts that can be told apart when they stand in a list.

A list is written with a comma after each entry but the last. Where an entry ends can be seen when
its commas and closing brackets are all between quotes or between brackets of its own: such a text is
`Sealed`. Texts between quotes are, and so are lists of sealed texts between brackets. Sealed entries
can be read off the text of their list (`commaList_inj`), and a text can be read off the same text
between quotes (`quote_inj`).
-/

set_option autoImplicit false

namespace TriviaTree.Text

/-! ### Escapes -/

theorem mem_hexDigits {c : Char} (n : Nat) (h : c ∈ hexDigits n) : ∃ k < 16, c = Nat.digitChar k := by
  induction n using Nat.strongRecOn with
  | ind n ih =>
      rw [hexDigits, Nat.toDigits_eq_if (by decide)] at h
      split at h
      · next hsmall => exact ⟨n, hsmall, by simpa using h⟩
      · next hlarge =>
        rcases List.mem_append.1 h with h | h
        · exact ih (n / 16) (by omega) h
        · exact ⟨n % 16, Nat.mod_lt _ (by decide), by simpa using h⟩

theorem digitChar_inj {m n : Nat} (hm : m < 16) (hn : n < 16)
    (h : Nat.digitChar m = Nat.digitChar n) : m = n := by
  have := congrArg hexDigit? h
  rw [hexDigit?_digitChar m hm, hexDigit?_digitChar n hn] at this
  exact Option.some.inj this

theorem hexDigits_inj (m : Nat) : ∀ {n : Nat}, hexDigits m = hexDigits n → m = n := by
  induction m using Nat.strongRecOn with
  | ind m ih =>
      intro n h
      have hmod : ∀ k : Nat, k % 16 < 16 := fun k => Nat.mod_lt _ (by decide)
      rw [hexDigits, hexDigits, Nat.toDigits_eq_if (by decide),
        Nat.toDigits_eq_if (b := 16) (n := n) (by decide)] at h
      split at h <;> split at h
      · next hm hn => exact digitChar_inj hm hn (by simpa using h)
      · have hlength := congrArg List.length h
        simp at hlength
      · have hlength := congrArg List.length h
        simp at hlength
      · next hm hn =>
        obtain ⟨hfront, hlast⟩ := List.append_inj' h rfl
        have hdiv := ih (m / 16) (by omega) hfront
        have hmods := digitChar_inj (hmod m) (hmod n) (by simpa using hlast)
        omega

/-- The rule for texts between double quotes. -/
abbrev quoteRule : EscapeRule := ⟨['"'], true⟩

/-- The characters with an escape of their own. -/
def shortEscapes : List (Char × Char) :=
  [('\x00', '0'), ('\t', 't'), ('\r', 'r'), ('\n', 'n'), ('\\', '\\'), ('"', '"')]

/-- The three ways a character is written between quotes: after a backslash, as its code point, or
as it is. -/
inductive Escaped (c : Char) : List Char → Prop
  | short {d : Char} (hd : (c, d) ∈ shortEscapes) : Escaped c ['\\', d]
  | code : Escaped c (codePointEscape c)
  | plain (hbackslash : c ≠ '\\') (hquote : c ≠ '"') : Escaped c [c]

theorem escaped_apply (c : Char) : Escaped c (quoteRule.apply c) := by
  unfold EscapeRule.apply
  split
  · next hc => exact .short (by simp [hc, shortEscapes])
  split
  · next hc => exact .short (by simp [hc, shortEscapes])
  split
  · next hc => exact .short (by simp [hc, shortEscapes])
  split
  · next hc => exact .short (by simp [hc, shortEscapes])
  split
  · next hc =>
    refine .short ?_
    rcases (by simpa using hc : c = '\\' ∨ c = '"') with rfl | rfl <;> simp [shortEscapes]
  · next hc =>
    have hc : c ≠ '\\' ∧ c ≠ '"' := by simpa using hc
    split
    · exact .code
    · split
      · exact .plain hc.1 hc.2
      · exact .code

/-- Where a character comes for the first time is one place. -/
theorem split_unique {c : Char} {xs ys rest rest' : List Char} (hxs : c ∉ xs) (hys : c ∉ ys)
    (h : xs ++ c :: rest = ys ++ c :: rest') : xs = ys ∧ rest = rest' := by
  have htake : ∀ {zs : List Char} (tail : List Char), c ∉ zs →
      (zs ++ c :: tail).takeWhile (· ≠ c) = zs := by
    intro zs tail hzs
    have hne : ∀ d ∈ zs, decide (d ≠ c) = true := by
      intro d hd
      simpa using ne_of_mem_of_not_mem hd hzs
    rw [List.takeWhile_append_of_pos hne]
    simp
  have heq : xs = ys := by rw [← htake rest hxs, h, htake rest' hys]
  subst heq
  exact ⟨rfl, (List.cons.inj (List.append_cancel_left h)).2⟩

theorem brace_not_mem_hexDigits (n : Nat) : '}' ∉ hexDigits n := by
  intro h
  obtain ⟨k, hk, heq⟩ := mem_hexDigits n h
  have hne : ∀ k < 16, '}' ≠ Nat.digitChar k := by decide
  exact hne k hk heq

/-- What is written for a character tells it, and where it ends. -/
theorem Escaped.inj {c d : Char} {cs ds rest rest' : List Char} (hc : Escaped c cs)
    (hd : Escaped d ds) (h : cs ++ rest = ds ++ rest') : c = d ∧ rest = rest' := by
  cases hc with
  | @short e he =>
      cases hd with
      | @short f hf =>
          simp only [List.cons_append, List.nil_append, List.cons.injEq, true_and] at h
          obtain ⟨rfl, rfl⟩ := h
          have hpairs : ∀ p ∈ shortEscapes, ∀ q ∈ shortEscapes, p.2 = q.2 → p.1 = q.1 := by decide
          exact ⟨hpairs _ he _ hf rfl, rfl⟩
      | code =>
          have hcode : ∀ p ∈ shortEscapes, p.2 ≠ 'u' := by decide
          exact absurd (List.cons.inj (List.cons.inj h).2).1 (hcode _ he)
      | plain hbackslash => exact absurd (List.cons.inj h).1.symm hbackslash
  | code =>
      cases hd with
      | @short f hf =>
          have hcode : ∀ p ∈ shortEscapes, p.2 ≠ 'u' := by decide
          exact absurd (List.cons.inj (List.cons.inj h).2).1.symm (hcode _ hf)
      | code =>
          simp only [codePointEscape, List.append_assoc, List.cons_append, List.nil_append,
            List.cons.injEq, true_and] at h
          obtain ⟨hdigits, hrest⟩ :=
            split_unique (brace_not_mem_hexDigits _) (brace_not_mem_hexDigits _) h
          exact ⟨Char.toNat_inj.1 (hexDigits_inj _ hdigits), hrest⟩
      | plain hbackslash => exact absurd (List.cons.inj h).1.symm hbackslash
  | plain hbackslash =>
      cases hd with
      | short | code => exact absurd (List.cons.inj h).1 hbackslash
      | plain => exact List.cons.inj h

theorem toList_quote (text : String) : (quote text).toList =
    '"' :: (text.toList.flatMap quoteRule.apply ++ ['"']) := by
  simp [quote]

/-- A text can be read off its form between quotes. -/
theorem quote_inj {text text' : String} : quote text = quote text' ↔ text = text' := by
  refine ⟨fun h => String.toList_inj.1 ?_, congrArg quote⟩
  have h := congrArg String.toList h
  rw [toList_quote, toList_quote, List.cons.injEq, List.append_cancel_right_eq] at h
  replace h := h.2
  generalize text.toList = cs at h
  generalize text'.toList = ds at h
  induction cs generalizing ds with
  | nil =>
      cases ds with
      | nil => rfl
      | cons d ds => cases hd : quoteRule.apply d with
        | nil => have := escaped_apply d; rw [hd] at this; cases this
        | cons => simp [hd] at h
  | cons c cs ih =>
      cases ds with
      | nil => cases hc : quoteRule.apply c with
        | nil => have := escaped_apply c; rw [hc] at this; cases this
        | cons => simp [hc] at h
      | cons d ds =>
          obtain ⟨rfl, hrest⟩ := (escaped_apply c).inj (escaped_apply d) h
          rw [ih ds hrest]

/-! ### Entries that tell where they end -/

/-- Where a reader is: outside of quotes, between quotes, or there after a backslash. -/
inductive Quoting where
  | plain
  | quoted
  | escaped
deriving DecidableEq, Repr

/-- What is left of a text at the first comma or closing bracket that is neither between quotes nor
between brackets. -/
def afterItem : Nat → Quoting → List Char → List Char
  | _, _, [] => []
  | depth, .escaped, _ :: cs => afterItem depth .quoted cs
  | depth, .quoted, c :: cs =>
      afterItem depth (if c = '"' then .plain else if c = '\\' then .escaped else .quoted) cs
  | depth, .plain, c :: cs =>
      if c = '"' then afterItem depth .quoted cs
      else if c = '(' ∨ c = '[' then afterItem (depth + 1) .plain cs
      else if c = ')' ∨ c = ']' then
        match depth with
        | 0 => c :: cs
        | depth + 1 => afterItem depth .plain cs
      else if c = ',' ∧ depth = 0 then c :: cs
      else afterItem depth .plain cs

/-- A text whose commas and closing brackets are all between quotes or brackets of its own. -/
def Sealed (text : String) : Prop :=
  ∀ depth rest, afterItem depth .plain (text.toList ++ rest) = afterItem depth .plain rest

/-- A text of which that is true but for commas. -/
def Bracketable (text : String) : Prop :=
  ∀ depth rest, afterItem (depth + 1) .plain (text.toList ++ rest) = afterItem (depth + 1) .plain rest

/-- The rest of a text that can follow an entry. -/
def EndsItem (rest : List Char) : Prop :=
  ∃ c cs, rest = c :: cs ∧ (c = ',' ∨ c = ')' ∨ c = ']')

theorem EndsItem.afterItem_eq {rest : List Char} (h : EndsItem rest) :
    afterItem 0 .plain rest = rest := by
  obtain ⟨c, cs, rfl, rfl | rfl | rfl⟩ := h <;> rfl

namespace Sealed

variable {text text' : String}

theorem inj {rest rest' : List Char} (h : Sealed text) (h' : Sealed text') (hrest : EndsItem rest)
    (hrest' : EndsItem rest') (heq : text.toList ++ rest = text'.toList ++ rest') :
    text = text' ∧ rest = rest' := by
  have hsame : rest = rest' := by
    rw [← hrest.afterItem_eq, ← h, heq, h', hrest'.afterItem_eq]
  subst hsame
  exact ⟨String.toList_inj.1 (List.append_cancel_right heq), rfl⟩

theorem append (h : Sealed text) (h' : Sealed text') : Sealed (text ++ text') := by
  intro depth rest
  rw [String.toList_append, List.append_assoc, h, h']

theorem bracketable (h : Sealed text) : Bracketable text :=
  fun depth rest => h (depth + 1) rest

end Sealed

theorem Bracketable.append {text text' : String} (h : Bracketable text) (h' : Bracketable text') :
    Bracketable (text ++ text') := by
  intro depth rest
  rw [String.toList_append, List.append_assoc, h, h']

/-- A character that no reader stops at. -/
def isOrdinary (c : Char) : Bool :=
  c ∉ ['"', '(', '[', ')', ']', ',']

theorem afterItem_ordinary {c : Char} (h : isOrdinary c = true) (depth : Nat) (cs : List Char) :
    afterItem depth .plain (c :: cs) = afterItem depth .plain cs := by
  simp only [isOrdinary, List.mem_cons, List.not_mem_nil, or_false, not_or, decide_eq_true_eq] at h
  cases depth <;> simp [afterItem, h]

theorem afterItem_quote (depth : Nat) (cs : List Char) :
    afterItem depth .plain ('"' :: cs) = afterItem depth .quoted cs := by
  cases depth <;> rfl

theorem sealed_of_ordinary {text : String} (h : ∀ c ∈ text.toList, isOrdinary c = true) :
    Sealed text := by
  intro depth rest
  generalize text.toList = cs at h
  induction cs with
  | nil => rfl
  | cons c cs ih =>
      rw [List.cons_append, afterItem_ordinary (h c List.mem_cons_self)]
      exact ih fun d hd => h d (List.mem_cons_of_mem c hd)

theorem sealed_parens {text : String} (h : Bracketable text) : Sealed ("(" ++ text ++ ")") := by
  intro depth rest
  have hclose := h depth (')' :: rest)
  simpa [afterItem] using hclose

theorem sealed_brackets {text : String} (h : Bracketable text) : Sealed ("[" ++ text ++ "]") := by
  intro depth rest
  have hclose := h depth (']' :: rest)
  simpa [afterItem] using hclose

theorem Escaped.afterItem_eq {c : Char} {cs : List Char} (h : Escaped c cs) (depth : Nat)
    (rest : List Char) : afterItem depth .quoted (cs ++ rest) = afterItem depth .quoted rest := by
  cases h with
  | short => rfl
  | plain hbackslash hquote => simp [afterItem, hbackslash, hquote]
  | code =>
      have hdigits : ∀ ds : List Char, (∀ d ∈ ds, ∃ k < 16, d = Nat.digitChar k) →
          afterItem depth .quoted (ds ++ '}' :: rest) = afterItem depth .quoted rest := by
        intro ds hds
        induction ds with
        | nil => rfl
        | cons d ds ih =>
            obtain ⟨k, hk, rfl⟩ := hds d List.mem_cons_self
            have hne : ∀ k < 16, Nat.digitChar k ≠ '"' ∧ Nat.digitChar k ≠ '\\' := by decide
            rw [List.cons_append, afterItem, if_neg (hne k hk).1, if_neg (hne k hk).2]
            exact ih (List.forall_mem_cons.1 hds).2
      simp only [codePointEscape, List.append_assoc, List.cons_append, List.nil_append]
      exact hdigits _ fun d hd => mem_hexDigits _ hd

theorem sealed_quote (text : String) : Sealed (quote text) := by
  intro depth rest
  have hbody : ∀ cs : List Char,
      afterItem depth .quoted (cs.flatMap quoteRule.apply ++ '"' :: rest) =
        afterItem depth .plain rest := by
    intro cs
    induction cs with
    | nil => rfl
    | cons c cs ih =>
        rw [List.flatMap_cons, List.append_assoc, (escaped_apply c).afterItem_eq, ih]
  rw [toList_quote, List.cons_append, List.append_assoc, afterItem_quote]
  exact hbody _

end TriviaTree.Text

namespace TriviaTree

open Text

/-! ### Lists -/

theorem bracketable_commaList {items : List String} (h : ∀ x ∈ items, Sealed x) :
    Bracketable (commaList items) := by
  induction items with
  | nil => exact fun _ _ => rfl
  | cons x xs ih =>
      have hx := (h x List.mem_cons_self).bracketable
      have hxs := ih fun y hy => h y (List.mem_cons_of_mem x hy)
      cases xs with
      | nil => exact hx
      | cons y ys =>
          have hcomma : Bracketable ", " := fun _ _ => rfl
          rw [commaList, String.intercalate_cons_cons]
          exact (hx.append hcomma).append hxs

/-- What follows an entry, up to and with a closing bracket. -/
def afterEntry : List String → String
  | [] => ")"
  | x :: xs => ", " ++ commaList (x :: xs) ++ ")"

theorem commaList_cons (x : String) (xs : List String) :
    commaList (x :: xs) ++ ")" = x ++ afterEntry xs := by
  cases xs with
  | nil => rfl
  | cons y ys =>
      rw [commaList, String.intercalate_cons_cons, afterEntry, commaList]
      simp only [String.append_assoc]

theorem endsItem_afterEntry (xs : List String) : EndsItem (afterEntry xs).toList := by
  cases xs with
  | nil => exact ⟨')', [], rfl, .inr (.inl rfl)⟩
  | cons x xs =>
      exact ⟨',', (" " ++ commaList (x :: xs) ++ ")").toList, by simp [afterEntry], .inl rfl⟩

theorem commaList_cons_ne {x : String} (xs : List String) (hx : x ≠ "") :
    commaList (x :: xs) ≠ "" := by
  cases xs with
  | nil => exact hx
  | cons y ys =>
      rw [commaList, String.intercalate_cons_cons]
      simp [hx]

/-- Entries that tell where they end can be read off their list. -/
theorem commaList_inj {xs ys : List String} (hxs : ∀ x ∈ xs, Sealed x ∧ x ≠ "")
    (hys : ∀ y ∈ ys, Sealed y ∧ y ≠ "") (h : commaList xs = commaList ys) : xs = ys := by
  induction xs generalizing ys with
  | nil =>
      cases ys with
      | nil => rfl
      | cons y ys => exact absurd h.symm (commaList_cons_ne ys (hys y List.mem_cons_self).2)
  | cons x xs ih =>
      cases ys with
      | nil => exact absurd h (commaList_cons_ne xs (hxs x List.mem_cons_self).2)
      | cons y ys =>
          have htexts : x ++ afterEntry xs = y ++ afterEntry ys := by
            rw [← commaList_cons, h, commaList_cons]
          obtain ⟨rfl, hrest⟩ := (hxs x List.mem_cons_self).1.inj (hys y List.mem_cons_self).1
            (endsItem_afterEntry xs) (endsItem_afterEntry ys)
            (by rw [← String.toList_append, htexts, String.toList_append])
          have hrest := String.toList_inj.1 hrest
          refine congrArg (List.cons x) ?_
          cases xs with
          | nil =>
              cases ys with
              | nil => rfl
              | cons z zs => simp [afterEntry, String.ext_iff] at hrest
          | cons w ws =>
              cases ys with
              | nil => simp [afterEntry, String.ext_iff] at hrest
              | cons z zs =>
                  refine ih (fun y hy => hxs y (List.mem_cons_of_mem x hy))
                    (fun y hy => hys y (List.mem_cons_of_mem x hy)) ?_
                  simpa [afterEntry] using hrest

end TriviaTree
