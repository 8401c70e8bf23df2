import Mathlib
import TriviaTree.Proofs.Grammar.Identifiers
import TriviaTree.Proofs.Token.LineBreaks

/-!
A text means the same with either kind of line break, but for some strings.

A line feed that stands in a string belongs to its value, unless an escape takes it: a backslash
that joins two lines, or `\x`, which takes two characters even if they are no digits. Where the line
feed becomes two characters the escape only takes the first. The value of a string is therefore told
in pieces: characters, and line feeds that stand in the text (`literalPieces`, which has no answer
where an escape takes one). In the widened text the value has a carriage return more before each of
the latter, and both values are the same with all line breaks made line feeds, unless there was a
carriage return before (`unifyBreaks_spread`).

`lineBreaks_alike` is the result on texts.
-/

set_option autoImplicit false

namespace TriviaTree

namespace Text

/-! ### Values in pieces -/

/-- A value with all its line breaks as line feeds. -/
def unifyBreaks : List Char → List Char
  | '\r' :: '\n' :: cs => '\n' :: unifyBreaks cs
  | c :: cs => c :: unifyBreaks cs
  | [] => []

theorem unifyBreaks_cons {c : Char} (hc : c ≠ '\r') (cs : List Char) :
    unifyBreaks (c :: cs) = c :: unifyBreaks cs := by
  rw [unifyBreaks]
  exact fun _ h => absurd h hc

theorem unifyBreaks_return (cs : List Char) : unifyBreaks ('\r' :: cs) =
    if cs.head? = some '\n' then unifyBreaks cs else '\r' :: unifyBreaks cs := by
  cases cs with
  | nil => rfl
  | cons c cs =>
      by_cases hc : c = '\n'
      · subst hc
        rw [List.head?_cons, if_pos rfl, unifyBreaks, unifyBreaks_cons (by decide)]
      · rw [if_neg (by simpa using hc), unifyBreaks]
        exact fun _ _ h => hc (List.cons.inj h).1

/-- A piece of a value: a character, or a line feed that stands in the text. -/
abbrev Piece := Option Char

def Piece.value (piece : Piece) : Char :=
  piece.getD '\n'

/-- What a piece becomes in the widened text. -/
def Piece.spread : Piece → List Char
  | some c => [c]
  | none => ['\r', '\n']

/-- No carriage return stands right before a line feed of the text. -/
def FeedsApart (pieces : List Piece) : Prop :=
  pieces.IsChain fun piece next => next = none → piece ≠ some '\r'

instance : DecidablePred FeedsApart :=
  fun pieces => inferInstanceAs (Decidable (pieces.IsChain _))

theorem unifyBreaks_spread {pieces : List Piece} (h : FeedsApart pieces) :
    unifyBreaks (pieces.flatMap Piece.spread) = unifyBreaks (pieces.map Piece.value) := by
  induction pieces with
  | nil => rfl
  | cons piece pieces ih =>
      have ih := ih (List.isChain_cons.1 h).2
      cases piece with
      | none =>
          show unifyBreaks ('\r' :: '\n' :: pieces.flatMap Piece.spread) = unifyBreaks ('\n' :: _)
          rw [unifyBreaks, unifyBreaks_cons (by decide), ih]
      | some c =>
          show unifyBreaks (c :: pieces.flatMap Piece.spread) = unifyBreaks (c :: _)
          by_cases hc : c = '\r'
          · subst hc
            have hhead : (pieces.flatMap Piece.spread).head? =
                (pieces.map Piece.value).head? := by
              cases pieces with
              | nil => rfl
              | cons next pieces =>
                  cases next with
                  | none => exact absurd rfl ((List.isChain_cons_cons.1 h).1 rfl)
                  | some d => rfl
            rw [unifyBreaks_return, unifyBreaks_return, hhead, ih]
          · rw [unifyBreaks_cons hc, unifyBreaks_cons hc, ih]

/-! ### Bodies of literals -/

/-- Characters that stand for themselves. -/
def plainPieces (cs : List Char) : List Piece :=
  cs.map fun c => if c = '\n' then none else some c

theorem value_plainPieces (cs : List Char) : (plainPieces cs).map Piece.value = cs := by
  induction cs with
  | nil => rfl
  | cons c cs ih =>
      rw [plainPieces, List.map_cons, List.map_cons, ← plainPieces, ih]
      split
      · next hc => rw [hc]; rfl
      · rfl

theorem spread_plainPieces (cs : List Char) : (plainPieces cs).flatMap Piece.spread = widen cs := by
  induction cs with
  | nil => rfl
  | cons c cs ih =>
      rw [plainPieces, List.map_cons, List.flatMap_cons, ← plainPieces, ih]
      split
      · next hc => rw [hc]; rfl
      · next hc => rw [widen_cons hc]; rfl

theorem value_some (cs : List Char) : (cs.map some).map Piece.value = cs := by
  rw [List.map_map]
  exact List.map_id' cs

theorem spread_some (cs : List Char) : (cs.map some).flatMap Piece.spread = cs := by
  rw [List.flatMap_map]
  exact List.flatMap_pure_eq_map _ _ |>.trans (List.map_id' cs)

/-- What `\x` and the characters after it stand for. -/
def hexPieces (digits : List Char) : List Piece :=
  match hexEscape? digits with
  | some c => [some c]
  | none => plainPieces ('\\' :: 'x' :: digits)

/-- The pieces of a literal's body. There are none where an escape takes a line feed, or would take
it in the widened text and leave a backslash to start another escape. -/
def bodyPieces : List Char → Option (List Piece)
  | [] => some []
  | [c] => some (plainPieces [c])
  | c :: d :: cs =>
      if c = '\\' then
        if d = 'x' then
          match cs with
          | [] => some [some '\\', some 'x']
          | [e] => some (hexPieces [e])
          | e :: f :: cs =>
              if e = '\n' ∧ f = '\\' then none else (bodyPieces cs).map (hexPieces [e, f] ++ ·)
        else if d = '\n' then none
        else (bodyPieces cs).map ((decodeBody ['\\', d]).map some ++ ·)
      else (bodyPieces (d :: cs)).map (plainPieces [c] ++ ·)

theorem decodeBody_single (c : Char) : decodeBody [c] = [c] := by
  rw [decodeBody, decodeBody]
  all_goals simp

/-- A backslash that starts no escape. -/
theorem decodeBody_backslash {c : Char} (hx : c ≠ 'x')
    (hc : c ∉ ['n', 't', 'r', '0', '\\', '\'', '"', '\n']) (cs : List Char) :
    decodeBody ('\\' :: c :: cs) = '\\' :: c :: decodeBody cs := by
  simp only [List.mem_cons, List.not_mem_nil, or_false, not_or] at hc
  rw [decodeBody, decodeBody_plain hc.2.2.2.2.1]
  all_goals simp_all

/-- An escape of one character. -/
theorem decodeBody_escape {c : Char} (hx : c ≠ 'x') (cs : List Char) :
    decodeBody ('\\' :: c :: cs) = decodeBody ['\\', c] ++ decodeBody cs := by
  by_cases hc : c ∈ ['n', 't', 'r', '0', '\\', '\'', '"', '\n']
  · fin_cases hc <;> rfl
  · rw [decodeBody_backslash hx hc, decodeBody_backslash hx hc]
    rfl

theorem hexEscape?_break {d e : Char} (h : hexDigit? d = none ∨ hexDigit? e = none)
    (hplus : d = '+' → hexDigit? e = none) : hexEscape? [d, e] = none := by
  by_cases hd : d = '+'
  · rw [hd, hexEscape?, hplus hd]
    rfl
  · rw [hexEscape?]
    · rcases h with h | h
      · simp [h]
      · cases hexDigit? d <;> simp [h]
    · exact hd

/-- `\x` and the two characters after it. -/
theorem decodeBody_hex (d e : Char) (cs : List Char) :
    decodeBody ('\\' :: 'x' :: d :: e :: cs) =
      (hexPieces [d, e]).map Piece.value ++ decodeBody cs := by
  rw [decodeBody, hexPieces]
  cases hexEscape? [d, e] with
  | some c => rfl
  | none => simp [value_plainPieces]

theorem decodeBody_hex_widen {d e : Char} (h : d = '\n' → e ≠ '\\') (cs : List Char) :
    decodeBody (widen ('\\' :: 'x' :: d :: e :: cs)) =
      (hexPieces [d, e]).flatMap Piece.spread ++ decodeBody (widen cs) := by
  have hfeed : hexDigit? '\n' = none := rfl
  have hreturn : hexDigit? '\r' = none := rfl
  rw [widen_cons (by decide), widen_cons (by decide)]
  by_cases hd : d = '\n'
  · -- the escape takes both halves of the line break
    subst hd
    have hnone : hexEscape? ['\n', e] = none := hexEscape?_break (.inl hfeed) (by simp)
    rw [hexPieces, hnone, widen_feed, decodeBody_hex, hexPieces,
      hexEscape?_break (.inl hreturn) (by simp)]
    simp only [spread_plainPieces, value_plainPieces]
    by_cases he : e = '\n'
    · subst he
      simp [widen_cons, decodeBody_plain]
    · rw [widen_cons he, decodeBody_plain (h rfl)]
      simp [widen_cons, he]
  · rw [widen_cons hd]
    by_cases he : e = '\n'
    · -- the escape takes one half of the line break
      subst he
      rw [widen_feed, decodeBody_hex, hexPieces, hexEscape?_break (.inr hreturn) (fun _ => hreturn),
        hexPieces, hexEscape?_break (.inr hfeed) (fun _ => hfeed), decodeBody_plain (by decide)]
      simp [spread_plainPieces, value_plainPieces, widen_cons, hd]
    · rw [widen_cons he, decodeBody_hex, hexPieces]
      cases hexEscape? [d, e] with
      | some c => rfl
      | none => simp [spread_plainPieces, value_plainPieces, widen_cons, hd, he]

/-- `\x` and the last character of a body. -/
theorem decodeBody_hex_last (d : Char) :
    decodeBody ['\\', 'x', d] = (hexPieces [d]).map Piece.value := by
  rw [decodeBody, hexPieces]
  cases hexEscape? [d] with
  | some c => rfl
  | none => simp [value_plainPieces]

theorem decodeBody_hex_last_widen (d : Char) :
    decodeBody (widen ['\\', 'x', d]) = (hexPieces [d]).flatMap Piece.spread := by
  by_cases hd : d = '\n'
  · subst hd
    rfl
  · rw [widen_of_not_mem (by simp [Ne.symm hd]), decodeBody_hex_last, hexPieces]
    cases hexEscape? [d] with
    | some c => rfl
    | none => simp [spread_plainPieces, value_plainPieces, widen_cons, hd]

/-- The value of a literal with this body. -/
theorem value_bodyPieces {body : List Char} {pieces : List Piece}
    (h : bodyPieces body = some pieces) : pieces.map Piece.value = decodeBody body := by
  fun_induction bodyPieces body generalizing pieces with
  | case1 | case3 => cases h; rfl
  | case2 c =>
      cases h
      rw [value_plainPieces, decodeBody_single]
  | case4 e =>
      cases h
      rw [decodeBody_hex_last]
  | case5 | case7 => cases h
  | case6 e f cs _ ih =>
      obtain ⟨rest, hrest, rfl⟩ := Option.map_eq_some_iff.1 h
      rw [List.map_append, ih hrest, decodeBody_hex]
  | case8 d cs hx _ ih =>
      obtain ⟨rest, hrest, rfl⟩ := Option.map_eq_some_iff.1 h
      rw [List.map_append, ih hrest, decodeBody_escape hx cs, value_some]
  | case9 c d cs hc ih =>
      obtain ⟨rest, hrest, rfl⟩ := Option.map_eq_some_iff.1 h
      rw [List.map_append, ih hrest, value_plainPieces, decodeBody_plain hc]
      rfl

/-- The value of a literal with this body in the widened text. -/
theorem spread_bodyPieces {body : List Char} {pieces : List Piece}
    (h : bodyPieces body = some pieces) :
    pieces.flatMap Piece.spread = decodeBody (widen body) := by
  fun_induction bodyPieces body generalizing pieces with
  | case1 | case3 => cases h; rfl
  | case2 c =>
      cases h
      rw [spread_plainPieces]
      by_cases hc : c = '\n'
      · rw [hc]
        rfl
      · rw [widen_cons hc, widen_nil, decodeBody_single]
  | case4 e =>
      cases h
      rw [decodeBody_hex_last_widen]
  | case5 | case7 => cases h
  | case6 e f cs hbreak ih =>
      obtain ⟨rest, hrest, rfl⟩ := Option.map_eq_some_iff.1 h
      rw [List.flatMap_append, ih hrest, decodeBody_hex_widen fun he hf => hbreak ⟨he, hf⟩]
  | case8 d cs hx hd ih =>
      obtain ⟨rest, hrest, rfl⟩ := Option.map_eq_some_iff.1 h
      rw [List.flatMap_append, ih hrest, widen_cons (by decide), widen_cons hd,
        decodeBody_escape hx (widen cs), spread_some]
  | case9 c d cs hc ih =>
      obtain ⟨rest, hrest, rfl⟩ := Option.map_eq_some_iff.1 h
      rw [List.flatMap_append, ih hrest, spread_plainPieces]
      by_cases hfeed : c = '\n'
      · rw [hfeed, widen_feed, widen_feed, decodeBody_plain (by decide), decodeBody_plain (by decide)]
        rfl
      · rw [widen_cons hfeed, widen_cons hfeed, decodeBody_plain hc]
        rfl

/-! ### Literals -/

/-- The pieces of a literal. There are none for a short one with a line feed in it, which cannot be
read in the widened text. -/
def literalPieces (literal : List Char) : Option (List Piece) :=
  if isLong literal then bodyPieces ((sliceBytes 3 (byteSize literal - 3) literal).getD [])
  else if '\n' ∈ literal then none
  else some ((decodeString (.ofList literal)).toList.map some)

section Long

variable {quote : Char} (hquote : IsQuote quote) (body : List Char)

include hquote

theorem isLong_tripled : isLong (quote :: quote :: quote :: (body ++ [quote, quote, quote])) := by
  rcases hquote with rfl | rfl <;> simp [isLong, afterStart]

theorem sliceBytes_tripled :
    let literal := quote :: quote :: quote :: (body ++ [quote, quote, quote])
    sliceBytes 3 (byteSize literal - 3) literal = some body := by
  intro literal
  have hsingle : quote.utf8Size = 1 := by rcases hquote with rfl | rfl <;> rfl
  have hfront : byteSize [quote, quote, quote] = 3 := by simp [byteSize_eq_sum, hsingle]
  have hsize : byteSize literal - 3 = byteSize [quote, quote, quote] + byteSize body := by
    simp [literal, byteSize_eq_sum, hsingle]
    omega
  rw [hsize]
  exact hfront ▸ sliceBytes_append [quote, quote, quote] body [quote, quote, quote]

theorem literalPieces_tripled :
    literalPieces (quote :: quote :: quote :: (body ++ [quote, quote, quote])) = bodyPieces body := by
  rw [literalPieces, if_pos (isLong_tripled hquote body), sliceBytes_tripled hquote body]
  rfl

theorem decodeString_tripled :
    decodeString (.ofList (quote :: quote :: quote :: (body ++ [quote, quote, quote]))) =
      .ofList (decodeBody body) := by
  have hlong := isLong_tripled hquote body
  rw [isLong] at hlong
  rw [decodeString, String.toList_ofList]
  simp only [hlong, if_true, sliceBytes_tripled hquote body, Option.getD_some]

end Long

end Text

/-- The values of a literal in both texts. -/
theorem WidenedLiteral.values {text text' : String} {pieces : List Text.Piece}
    (h : WidenedLiteral text.toList text'.toList)
    (hpieces : Text.literalPieces text.toList = some pieces) :
    (Text.decodeString text).toList = pieces.map Text.Piece.value ∧
      (Text.decodeString text').toList = pieces.flatMap Text.Piece.spread := by
  rw [← String.ofList_toList (s := text), ← String.ofList_toList (s := text')]
  generalize text.toList = literal at *
  generalize text'.toList = literal' at *
  cases h with
  | long hquote body =>
      rw [Text.literalPieces_tripled hquote] at hpieces
      rw [Text.decodeString_tripled hquote, Text.decodeString_tripled hquote]
      simp [Text.value_bodyPieces hpieces, Text.spread_bodyPieces hpieces]
  | short hfeed hshort =>
      rw [Text.literalPieces, if_neg (by simp [hshort]), if_neg hfeed] at hpieces
      cases hpieces
      rw [Text.value_some, Text.spread_some]
      exact ⟨rfl, rfl⟩

/-! ### Trees -/

/-- A layer with the line breaks of a string as line feeds. -/
def Kind.unifyBreaks {α : Type} : Kind α → Kind α
  | .constant (.str value) => .constant (.str (.ofList (Text.unifyBreaks value.toList)))
  | kind => kind

/-- A tree with all line breaks in its strings as line feeds. -/
def Node.unifyBreaks (n : Node) : Node :=
  ⟨(n.kind.withContents
      (n.kind.contents.attach.map fun ⟨cs, _⟩ => cs.attach.map fun ⟨c, _⟩ => c.unifyBreaks)).unifyBreaks,
    n.span⟩
termination_by sizeOf n
decreasing_by exact sizeOf_lt_of_mem_contents ‹_› ‹_›

theorem Node.unifyBreaks_mk (kind : Kind Node) (span : Option Span) :
    (Node.mk kind span).unifyBreaks = ⟨(kind.map Node.unifyBreaks).unifyBreaks, span⟩ := by
  rw [unifyBreaks]
  simp [Kind.map_eq_withContents]

theorem Kind.map_map {α : Type} (g f : α → α) (kind : Kind α) :
    (kind.map f).map g = kind.map fun a => g (f a) := by
  cases kind <;> simp [map, Function.comp_def]

/-- The view in which line breaks and places do not matter. -/
theorem Node.unifyBreaks_eraseSpans_mk {kind : Kind Node} {span : Option Span}
    (h : kind.isTrivia = false) : (Node.mk kind span).eraseSpans.unifyBreaks =
      ⟨(kind.map fun n => n.eraseSpans.unifyBreaks).unifyBreaks, none⟩ := by
  rw [Node.eraseSpans_mk h, Node.unifyBreaks_mk, Kind.map_map]

/-! ### Words -/

/-- The pieces of the strings of a text; for every other word there is a blank between them. -/
def stringPieces : List Word → Option (List Text.Piece)
  | [] => some []
  | w :: ws =>
      (if w.1 = .str then Text.literalPieces w.2.toList else some [some ' ']).bind fun first =>
        (stringPieces ws).map (first ++ ·)

theorem stringPieces_cons {w : Word} {ws : List Word} {pieces : List Text.Piece}
    (h : stringPieces (w :: ws) = some pieces) : ∃ first rest, pieces = first ++ rest ∧
      stringPieces ws = some rest ∧ (w.1 = .str → Text.literalPieces w.2.toList = some first) := by
  rw [stringPieces] at h
  obtain ⟨first, hfirst, hmap⟩ := Option.bind_eq_some_iff.1 h
  obtain ⟨rest, hrest, rfl⟩ := Option.map_eq_some_iff.1 hmap
  refine ⟨first, rest, rfl, hrest, fun hstr => ?_⟩
  rwa [if_pos hstr] at hfirst

/-- No escape takes a line feed, no short string has one in it, and none comes right after a
carriage return of a string's value. -/
def breaksKept (ws : List Word) : Bool :=
  (stringPieces ws).any fun pieces => decide (Text.FeedsApart pieces)

theorem breaksKept_iff {ws : List Word} : breaksKept ws = true ↔
    ∃ pieces, stringPieces ws = some pieces ∧ Text.FeedsApart pieces := by
  simp [breaksKept, Option.any_eq_true]

theorem breaksKept_of_cons {w : Word} {ws : List Word} (h : breaksKept (w :: ws) = true) :
    breaksKept ws = true := by
  obtain ⟨pieces, hpieces, hapart⟩ := breaksKept_iff.1 h
  obtain ⟨first, rest, rfl, hrest, _⟩ := stringPieces_cons hpieces
  exact breaksKept_iff.2 ⟨rest, hrest, hapart.right_of_append⟩

/-- Where all line breaks are kept, every string can be read in the widened text. -/
theorem joined_of_breaksKept {tokens : List Token} (h : breaksKept (codeWords tokens) = true) :
    ∀ t ∈ tokens, t.Joined := by
  intro t ht hstr
  have hmem : t.word ∈ codeWords tokens :=
    List.mem_map_of_mem (List.mem_filter.2 ⟨ht, by simp [hstr]⟩)
  generalize codeWords tokens = ws at *
  induction ws with
  | nil => cases hmem
  | cons w ws ih =>
      rcases List.mem_cons.1 hmem with rfl | hmem
      · obtain ⟨pieces, hpieces, _⟩ := breaksKept_iff.1 h
        obtain ⟨first, _, _, _, hliteral⟩ := stringPieces_cons hpieces
        have hliteral : Text.literalPieces t.text.toList = some first := hliteral hstr
        rw [Text.literalPieces] at hliteral
        by_cases hlong : Text.isLong t.text.toList = true
        · exact .inl hlong
        · rw [if_neg hlong] at hliteral
          split at hliteral
          · cases hliteral
          · next hfeed => exact .inr hfeed
      · exact ih (breaksKept_of_cons h) hmem

namespace Grammar

theorem Cursor.words_advance_or (c : Cursor) :
    c.advance.words = c.words ∨ c.words = c.current.word :: c.advance.words := by
  obtain ⟨current, ahead, lastEnd⟩ := c
  cases ahead with
  | nil => exact .inl rfl
  | cons l ahead => exact .inr rfl

/-- The second cursor stands at the same word of the widened text. -/
structure WidenedCursor (c d : Cursor) : Prop where
  ended : c.Ended
  words : List.Forall₂ WidenedWord c.words d.words
  kept : breaksKept c.words = true

namespace WidenedCursor

variable {c d : Cursor} (h : WidenedCursor c d)

include h

theorem current : WidenedWord c.current.word d.current.word :=
  (List.forall₂_cons.1 h.words).1

theorem words_advance : List.Forall₂ WidenedWord c.advance.words d.advance.words := by
  obtain ⟨current, ahead, _⟩ := c
  obtain ⟨current', ahead', _⟩ := d
  have hwords := h.words
  cases ahead with
  | nil =>
      cases ahead' with
      | nil => exact hwords
      | cons l' ahead' => simp [Cursor.words] at hwords
  | cons l ahead =>
      cases ahead' with
      | nil => simp [Cursor.words] at hwords
      | cons l' ahead' => exact (List.forall₂_cons.1 hwords).2

theorem advance : WidenedCursor c.advance d.advance := by
  rcases c.words_advance_or with hsame | hmore
  · have hend : c.words = [] ++ c.advance.words := hsame.symm
    exact ⟨h.ended.of_words hend, h.words_advance, by rw [hsame, h.kept]⟩
  · have hend : c.words = [c.current.word] ++ c.advance.words := hmore
    have hkept : breaksKept (c.current.word :: c.advance.words) = true := hmore ▸ h.kept
    exact ⟨h.ended.of_words hend, h.words_advance, breaksKept_of_cons hkept⟩

theorem next : WidenedWord c.next.word d.next.word := by
  rw [← Cursor.current_advance, ← Cursor.current_advance]
  exact h.advance.current

theorem remaining : c.remaining = d.remaining := by
  rw [Cursor.remaining_eq_length, Cursor.remaining_eq_length, h.words.length_eq]

end WidenedCursor

/-- The adjacent strings at two cursors, piece by piece. -/
theorem stringTail_widened (n : Nat) {c d : Cursor} (h : WidenedCursor c d)
    {pieces : List Text.Piece} (hpieces : stringPieces c.words = some pieces) :
    ∃ parts parts' c' d' taken rest, stringTail n c = .ok (parts, c') ∧
      stringTail n d = .ok (parts', d') ∧ WidenedCursor c' d' ∧ pieces = taken ++ rest ∧
      (String.join parts).toList = taken.map Text.Piece.value ∧
      (String.join parts').toList = taken.flatMap Text.Piece.spread := by
  induction n generalizing c d pieces with
  | zero => exact ⟨[], [], c, d, [], pieces, rfl, rfl, h, rfl, rfl, rfl⟩
  | succ n ih =>
      have hkind : d.current.kind = c.current.kind := h.current.alike.kind.symm
      rw [stringTail_succ, stringTail_succ, hkind]
      by_cases hstr : c.current.kind = .str
      · rw [h.ended.words_advance (by simp [hstr])] at hpieces
        obtain ⟨first, later, rfl, hlater, hfirst⟩ := stringPieces_cons hpieces
        obtain ⟨hvalue, hspread⟩ : (Text.decodeString c.current.text).toList = _ ∧
            (Text.decodeString d.current.text).toList = _ :=
          (h.current.literal hstr).values (hfirst hstr)
        obtain ⟨parts, parts', c', d', taken, rest, hrun, hrun', hnear, rfl, hparts, hparts'⟩ :=
          ih h.advance hlater
        rw [if_pos hstr, if_pos hstr, hrun, hrun']
        refine ⟨_, _, c', d', first ++ taken, rest, rfl, rfl, hnear, by simp, ?_, ?_⟩
        · rw [String.join_cons, String.toList_append, hvalue, hparts, List.map_append]
        · rw [String.join_cons, String.toList_append, hspread, hparts', List.flatMap_append]
      · rw [if_neg hstr, if_neg hstr]
        exact ⟨[], [], c, d, [], pieces, rfl, rfl, h, rfl, rfl, rfl⟩

/-- Cursors at the same word of a text and of the widened one are alike, and the trees read from them
are the same but for places and kinds of line breaks. -/
def sameBreaks : Likeness where
  near := WidenedCursor
  view n := n.eraseSpans.unifyBreaks
  current h := h.current.alike
  next h := h.next.alike
  advance h := h.advance
  remaining h := h.remaining
  strings n c d h := by
    obtain ⟨pieces, hpieces, hapart⟩ := breaksKept_iff.1 h.kept
    obtain ⟨parts, parts', c', d', taken, rest, hrun, hrun', hnear, rfl, hparts, hparts'⟩ :=
      stringTail_widened n h hpieces
    rw [hrun, hrun']
    refine .ok ?_ hnear
    have hvalues := Text.unifyBreaks_spread hapart.left_of_append
    rw [← hparts, ← hparts'] at hvalues
    rw [Node.unifyBreaks_eraseSpans_mk rfl, Node.unifyBreaks_eraseSpans_mk rfl]
    simp only [Kind.map, Kind.unifyBreaks, hvalues]
  view_mk h h' hkind := by
    rw [Node.unifyBreaks_eraseSpans_mk h, Node.unifyBreaks_eraseSpans_mk h', hkind]

end Grammar

open Grammar in
theorem parseModule_of_tokenize_error {source : String} {e : SyntaxError}
    (h : tokenize source = .error e) (keep : Retention) : parseModule source keep = .error e := by
  rw [parseModule, lexemes, h]
  rfl

open Grammar in
/-- Where strings keep their line breaks, a text and the widened one are both refused, or read as
trees that are the same but for places and kinds of line breaks in strings. -/
theorem lineBreaks_alike {source : String} (hplain : '\r' ∉ source.toList)
    (hkept : ∀ tokens, tokenize source = .ok tokens → breaksKept (codeWords tokens) = true)
    (keep : Retention) :
    (∃ e e', parseModule source keep = .error e ∧ parseModule (widened source) keep = .error e') ∨
    ∃ tree tree', parseModule source keep = .ok tree ∧
      parseModule (widened source) keep = .ok tree' ∧
      tree.eraseSpans.unifyBreaks = tree'.eraseSpans.unifyBreaks := by
  cases htokens : tokenize source with
  | error e =>
      obtain ⟨e', htokens'⟩ := tokenize_widened_error hplain htokens
      exact .inl ⟨_, _, parseModule_of_tokenize_error htokens keep,
        parseModule_of_tokenize_error htokens' keep⟩
  | ok tokens =>
      have hkept := hkept tokens htokens
      obtain ⟨tokens', htokens', hwords⟩ :=
        tokenize_widened hplain htokens (joined_of_breaksKept hkept)
      obtain ⟨hcode, ended⟩ := ended_of_tokenize htokens (.ofText source) rfl
      obtain ⟨hcode', _⟩ := ended_of_tokenize htokens' (.ofText (widened source)) rfl
      exact parseModule_alike sameBreaks htokens htokens'
        ⟨ended, by rwa [hcode, hcode'], by rwa [hcode]⟩ keep

theorem lineBreaks_alike_long_strings :
    let source := "if a: # b\n\n  c = \"\"\"d\n\\n\"\"\" \\\n    '''\\x41\n'''\n  e(f,\n    g)\n"
    '\r' ∉ source.toList ∧
    (∀ tokens, tokenize source = .ok tokens → breaksKept (codeWords tokens) = true) ∧
    ∃ tree tree', parseModule source .native = .ok tree ∧
      parseModule (widened source) .native = .ok tree' ∧
      tree.eraseSpans.unifyBreaks = tree'.eraseSpans.unifyBreaks := by
  intro source
  have hplain : '\r' ∉ source.toList := by decide +kernel
  have hkept : ∀ tokens, tokenize source = .ok tokens → breaksKept (codeWords tokens) = true := by
    have hscan : (tokenize source).map (fun tokens => breaksKept (codeWords tokens)) = .ok true := by
      decide +kernel
    intro tokens htokens
    rwa [htokens, Except.map, Except.ok.injEq] at hscan
  have hread : (parseModule source .native).isOk = true := by decide +kernel
  refine ⟨hplain, hkept, (lineBreaks_alike hplain hkept .native).resolve_left ?_⟩
  rintro ⟨e, _, herror, _⟩
  rw [herror] at hread
  cases hread

/-- After a backslash, a carriage return and a line feed do not join two lines of a string. -/
theorem joined_string_with_return :
    let source := "x = 'a\\\nb'"
    (parseModule source .native).isOk = true ∧
      (parseModule (widened source) .native).isOk = false := by
  decide +kernel

end TriviaTree
