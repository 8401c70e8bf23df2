import Mathlib
import TriviaTree.Proofs.Printing.Writing
import TriviaTree.Proofs.Token.Endings
import TriviaTree.Proofs.Token.Stops

/-!
Printed pieces can be told apart.

Pieces are sound when every word ends where the next piece begins, brackets are closed, remarks
stand inside brackets, and no line break is in a word and no blank around it (`Sound`). Sound pieces
are neat when it is known what they may begin with and what may follow them (`Neat`). The pieces of
every dressed expression are neat (`neat_pieces`), and so is every line of a dressed statement
(`neat_rows`): words are kept apart by spaces or by delimiters, and an integer is put in parentheses
before a point.
-/

set_option autoImplicit false

namespace TriviaTree

variable {c next : Char} {cs : List Char}

/-- A text that neither begins nor ends with a blank, and is not empty. -/
structure Text.IsTight (cs : List Char) : Prop where
  head : ∃ c ∈ cs.head?, Text.isBlank c = false
  last : ∃ c ∈ cs.getLast?, Text.isBlank c = false

theorem Text.isTight_of_forall (hne : cs ≠ []) (h : ∀ c ∈ cs, Text.isBlank c = false) :
    Text.IsTight cs :=
  ⟨⟨cs.head hne, List.head?_eq_some_head hne, h _ (List.head_mem hne)⟩,
    cs.getLast hne, List.getLast?_eq_some_getLast hne, h _ (List.getLast_mem hne)⟩

namespace Piece

/-- The characters that the text of a piece may begin with, after another piece. -/
def firsts : Piece → List Char
  | .word _ text => text.toList.head?.toList
  | .space => [' ']
  | .remark _ _ => [' ', '\n', '#']

/-- The piece ends where the character begins. A remark would take back a space before it. -/
def EndsBefore : Piece → Char → Prop
  | .word kind text, c => Ends kind text c
  | .space, c => c ≠ '#'
  | .remark _ _, _ => True

/-- The first piece ends where the second one begins. -/
def Adjacent (p q : Piece) : Prop :=
  ∀ c ∈ q.firsts, p.EndsBefore c

/-- A word has no line break in it and no blanks around it; a remark is one line. -/
def Spelled : Piece → Prop
  | .word kind text => kind ≠ .comment ∧ (∀ c ∈ text.toList, Token.isBreak c = false) ∧
      Text.IsTight text.toList
  | .space => True
  | .remark _ text => text.toList.head? = some '#' ∧ ∀ c ∈ text.toList, Token.isBreak c = false

def isRemark : Piece → Bool
  | .remark _ _ => true
  | _ => false

/-- The number of open brackets after a piece. -/
def depth : Piece → Nat → Nat
  | .word kind text, depth => Word.depth (kind, text) depth
  | _, depth => depth

/-- The number of open brackets after pieces. -/
def depthAfter (ps : List Piece) (depth : Nat) : Nat :=
  ps.foldl (fun depth p => p.depth depth) depth

theorem depthAfter_append (ps qs : List Piece) (depth : Nat) :
    depthAfter (ps ++ qs) depth = depthAfter qs (depthAfter ps depth) :=
  List.foldl_append

/-- Remarks stand inside brackets. -/
def Sheltered : Nat → List Piece → Prop
  | _, [] => True
  | depth, p :: ps => (p.isRemark = true → 0 < depth) ∧ Sheltered (p.depth depth) ps

theorem sheltered_append {ps qs : List Piece} {depth : Nat} :
    Sheltered depth (ps ++ qs) ↔ Sheltered depth ps ∧ Sheltered (depthAfter ps depth) qs := by
  induction ps generalizing depth with
  | nil => simp [Sheltered, depthAfter]
  | cons p ps ih => simp [Sheltered, ih, depthAfter, and_assoc]

end Piece

open Piece

/-- Pieces that come out of the scanner as their words, inside at least `least` brackets. -/
structure Sound (least : Nat) (ps : List Piece) : Prop where
  spelled : ∀ p ∈ ps, p.Spelled
  linked : ps.IsChain Adjacent
  balanced : ∀ depth, depthAfter ps depth = depth
  sheltered : ∀ depth, least ≤ depth → Sheltered depth ps

/-- Sound pieces that begin with a character in `first`, before any character in `follow`. -/
structure Neat (least : Nat) (ps : List Piece) (first follow : Char → Prop) : Prop
    extends Sound least ps where
  starts : ∀ p ∈ ps.head?, ∀ c ∈ p.firsts, first c
  ends : ∀ p ∈ ps.getLast?, ∀ c, follow c → p.EndsBefore c

/-- Neat pieces, one at least. -/
abbrev Firm (least : Nat) (ps : List Piece) (first follow : Char → Prop) : Prop :=
  Neat least ps first follow ∧ ps ≠ []

namespace Neat

variable {least : Nat} {ps qs : List Piece} {first first' follow follow' : Char → Prop}

theorem mono (h : Neat least ps first follow) (hfirst : ∀ c, first c → first' c)
    (hfollow : ∀ c, follow' c → follow c) : Neat least ps first' follow' :=
  ⟨h.toSound, fun p hp c hc => hfirst c (h.starts p hp c hc),
    fun p hp c hc => h.ends p hp c (hfollow c hc)⟩

theorem deeper {least' : Nat} (h : Neat least ps first follow) (hle : least ≤ least') :
    Neat least' ps first follow :=
  ⟨⟨h.spelled, h.linked, h.balanced, fun depth hdepth => h.sheltered depth (hle.trans hdepth)⟩,
    h.starts, h.ends⟩

theorem nil : Neat least [] first follow :=
  ⟨⟨by simp, .nil, fun _ => rfl, fun _ _ => trivial⟩, by simp, by simp⟩

/-- One after the other. What follows the back follows the front, should there be no back. -/
theorem append (front : Neat least ps first follow) (back : Neat least qs first' follow')
    (hlink : ∀ c, first' c → follow c) (hfront : ps = [] → ∀ c, first' c → first c)
    (hback : qs = [] → ∀ c, follow' c → follow c) : Neat least (ps ++ qs) first follow' where
  spelled p hp := (List.mem_append.1 hp).elim (front.spelled p) (back.spelled p)
  linked := front.linked.append back.linked fun p hp q hq c hc =>
    front.ends p hp c (hlink c (back.starts q hq c hc))
  balanced depth := by rw [depthAfter_append, front.balanced, back.balanced]
  sheltered depth hdepth := by
    rw [sheltered_append, front.balanced]
    exact ⟨front.sheltered depth hdepth, back.sheltered depth hdepth⟩
  starts p hp c hc := by
    cases ps with
    | nil => exact hfront rfl c (back.starts p hp c hc)
    | cons _ _ => exact front.starts p hp c hc
  ends p hp c hc := by
    cases qs with
    | nil =>
        rw [List.append_nil] at hp
        exact front.ends p hp c (hback rfl c hc)
    | cons q qs =>
        rw [List.getLast?_append_of_ne_nil _ (by simp)] at hp
        exact back.ends p hp c hc

end Neat

namespace Firm

variable {least : Nat} {ps qs : List Piece} {first first' follow follow' : Char → Prop}

theorem mono (h : Firm least ps first follow) (hfirst : ∀ c, first c → first' c)
    (hfollow : ∀ c, follow' c → follow c) : Firm least ps first' follow' :=
  ⟨h.1.mono hfirst hfollow, h.2⟩

theorem deeper {least' : Nat} (h : Firm least ps first follow) (hle : least ≤ least') :
    Firm least' ps first follow :=
  ⟨h.1.deeper hle, h.2⟩

theorem append (front : Firm least ps first follow) (back : Neat least qs first' follow')
    (hlink : ∀ c, first' c → follow c) (hback : qs = [] → ∀ c, follow' c → follow c) :
    Firm least (ps ++ qs) first follow' :=
  ⟨front.1.append back hlink (fun hnil => absurd hnil front.2) hback,
    List.append_ne_nil_of_left_ne_nil front.2 _⟩

theorem join (front : Firm least ps first follow) (back : Firm least qs first' follow')
    (hlink : ∀ c, first' c → follow c) : Firm least (ps ++ qs) first follow' :=
  front.append back.1 hlink fun hnil => absurd hnil back.2

theorem space : Firm least [.space] (· = ' ') fun c => c ≠ '#' :=
  ⟨⟨⟨by simp [Spelled], .singleton _, fun _ => rfl, fun _ _ => ⟨by simp [isRemark], trivial⟩⟩,
    by simp [firsts], by simp [EndsBefore]⟩, by simp⟩

/-- A remark inside brackets. -/
theorem remark {endOfLine : Bool} {text : String} (h : (Piece.remark endOfLine text).Spelled)
    (hleast : 0 < least) :
    Firm least [.remark endOfLine text] (· ∈ [' ', '\n', '#']) follow :=
  ⟨⟨⟨by simpa using h, .singleton _, fun _ => rfl,
    fun depth hdepth => ⟨fun _ => hleast.trans_le hdepth, trivial⟩⟩,
    by simp [firsts], by simp [EndsBefore]⟩, by simp⟩

/-- A word that is no bracket. -/
theorem word {kind : TokenKind} {text : String} (hspelled : (Piece.word kind text).Spelled)
    (hdepth : ∀ depth, (Piece.word kind text).depth depth = depth)
    (hfirst : ∀ c ∈ text.toList.head?, first c) (hends : ∀ c, follow c → Ends kind text c) :
    Firm least [.word kind text] first follow :=
  ⟨⟨⟨by simpa using hspelled, .singleton _, hdepth, fun _ _ => ⟨by simp [isRemark], trivial⟩⟩,
    by simpa [firsts] using hfirst, by simpa [EndsBefore] using hends⟩, by simp⟩

end Firm

theorem spelled_sign {symbol : String} (hmem : symbol ∈ Token.operators) :
    (sign symbol).Spelled := by
  refine ⟨by decide, fun c hc => ?_, Text.isTight_of_forall (Token.operator_ne_nil symbol hmem)
    (Token.isBlank_of_mem_operators symbol hmem)⟩
  have hstop := Token.isStop_of_mem_operators symbol hmem c hc
  rw [Token.isStop, Bool.or_eq_false_iff] at hstop
  exact hstop.1

/-- The signs that count as brackets. -/
def brackets : List String := ["(", ")", "[", "]", "\x7b", "\x7d"]

section Signs

variable {least : Nat} {first follow : Char → Prop} {symbol : String}

/-- An operator that is no bracket. -/
theorem neat_sign (hfirst : ∀ c ∈ symbol.toList.head?, first c)
    (h : symbol ∈ Token.operators ∧ symbol ∉ brackets ∧ symbol ≠ ".") :
    Firm least [sign symbol] first (· ∉ operatorTails) := by
  obtain ⟨hmem, hbracket, hpoint⟩ := h
  refine .word (spelled_sign hmem) (fun depth => ?_) hfirst fun c hc =>
    ends_op hmem (not_joins hmem hpoint hc) fun heq => absurd heq hpoint
  simp only [brackets, List.mem_cons, not_or] at hbracket
  simp [Piece.depth, Word.depth, ScanState.depthAfter, hbracket]

/-- Brackets around what may stand before a closing bracket. -/
theorem neat_bracketed {opener closer : String} {ps : List Piece} {o : Char}
    {inner inner' : Char → Prop}
    (hpair : (opener, closer) ∈ [("(", ")"), ("[", "]"), ("\x7b", "\x7d")])
    (hopener : opener.toList = [o]) (hcloser : closer.toList = [c]) (h : Neat 1 ps inner inner')
    (hc : inner' c) (hfirst : first o) :
    Firm least ([sign opener] ++ ps ++ [sign closer]) first follow := by
  have hopens : opener ∈ ["(", "[", "\x7b"] ∧ closer ∈ [")", "]", "\x7d"] := by
    simp only [List.mem_cons, Prod.mk.injEq, List.not_mem_nil, or_false] at hpair ⊢
    tauto
  have hmem : opener ∈ Token.operators ∧ closer ∈ Token.operators ∧
      opener ∈ ["(", ")", "[", "]", "\x7b", "\x7d", ",", "~"] ∧
      closer ∈ ["(", ")", "[", "]", "\x7b", "\x7d", ",", "~"] ∧ opener ≠ "." ∧ closer ≠ "." := by
    simp only [List.mem_cons, List.not_mem_nil, or_false] at hopens
    obtain ⟨rfl | rfl | rfl, rfl | rfl | rfl⟩ := hopens <;> decide
  obtain ⟨hopener', hcloser', hdelimiter, hdelimiter', hpoint, hpoint'⟩ := hmem
  have hopened : ∀ depth, (sign opener).depth depth = depth + 1 := fun depth => by
    simp [sign, Piece.depth, Word.depth, ScanState.depthAfter, hopens.1]
  have hclosed : ∀ depth, (sign closer).depth (depth + 1) = depth := fun depth => by
    simp only [List.mem_cons, List.not_mem_nil, or_false] at hopens
    obtain ⟨_, rfl | rfl | rfl⟩ := hopens <;>
      simp [sign, Piece.depth, Word.depth, ScanState.depthAfter]
  have hendsOpener : ∀ d, (sign opener).EndsBefore d := fun d =>
    ends_op hopener' (not_joins_delimiter hdelimiter) fun heq => absurd heq hpoint
  have hendsCloser : ∀ d, (sign closer).EndsBefore d := fun d =>
    ends_op hcloser' (not_joins_delimiter hdelimiter') fun heq => absurd heq hpoint'
  have hinside : (ps ++ [sign closer]).IsChain Adjacent := by
    refine h.linked.append (.singleton _) fun p hp q hq d hd => ?_
    obtain rfl : sign closer = q := by simpa using hq
    obtain rfl : d = c := by simpa [sign, firsts, hcloser] using hd
    exact h.ends p hp _ hc
  refine ⟨⟨⟨?_, ?_, ?_, ?_⟩, ?_, ?_⟩, by simp⟩
  · intro p hp
    simp only [List.cons_append, List.nil_append, List.mem_cons, List.mem_append,
      List.not_mem_nil, or_false] at hp
    rcases hp with rfl | hp | rfl
    · exact spelled_sign hopener'
    · exact h.spelled p hp
    · exact spelled_sign hcloser'
  · rw [List.append_assoc, List.singleton_append]
    exact hinside.cons fun q _ d _ => hendsOpener d
  · intro depth
    have hinner := h.balanced (depth + 1)
    simp only [depthAfter] at hinner ⊢
    simp [hopened, hinner, hclosed]
  · intro depth _
    rw [sheltered_append, sheltered_append]
    refine ⟨⟨⟨by simp [isRemark, sign], trivial⟩, ?_⟩, by simp [isRemark, sign], trivial⟩
    have : depthAfter [sign opener] depth = depth + 1 := hopened depth
    rw [this]
    exact h.sheltered _ (by omega)
  · simpa [sign, firsts, hopener] using hfirst
  · intro p hp d _
    rw [List.getLast?_append_of_ne_nil _ (by simp)] at hp
    obtain rfl : sign closer = p := by simpa using hp
    exact hendsCloser d

end Signs

/-! ### What stands next to an expression -/

/-- The characters that may follow an expression. -/
def closers : List Char := [' ', '\n', '#', ')', ']', '\x7d', ',', ':', '(', '[']

def Closes (next : Char) : Prop := next ∈ closers

/-- A point may only follow an expression with brackets of its own, or a name. -/
def MayFollow (n : Node) (strength : Precedence) (next : Char) : Prop :=
  Closes next ∨ next = '.' ∧ strength = .atom ∧ isIntLiteral n = false

/-- A line may start with the character. -/
def Starts (c : Char) : Prop :=
  Token.isIndentation c = false ∧ Token.isBreak c = false ∧ c ≠ '#'

/-- An expression may start with the character: it carries no operator on. -/
def Opens (c : Char) : Prop :=
  Starts c ∧ c ∉ operatorTails

/-- No name, number or string goes on with the character. -/
structure EndsWord (next : Char) : Prop where
  name : Text.isNamePart next = false
  number : AfterNumber next
  string : ¬ Text.IsQuote next
  operator : next ∉ operatorTails

theorem endsWord_of_mem (h : next ∈ '.' :: closers) : EndsWord next := by
  simp only [closers, List.mem_cons, List.not_mem_nil, or_false] at h
  rcases h with rfl | rfl | rfl | rfl | rfl | rfl | rfl | rfl | rfl | rfl | rfl <;>
    exact ⟨by decide, ⟨by decide, by decide, by decide, by decide⟩, by simp [Text.IsQuote],
      by decide⟩

theorem Closes.endsWord (h : Closes next) : EndsWord next :=
  endsWord_of_mem (List.mem_cons_of_mem _ h)

theorem MayFollow.endsWord {n : Node} {strength : Precedence} (h : MayFollow n strength next) :
    EndsWord next := by
  rcases h with h | ⟨rfl, _⟩
  · exact h.endsWord
  · exact endsWord_of_mem List.mem_cons_self

instance : Decidable (Closes c) := inferInstanceAs (Decidable (c ∈ closers))

instance : Decidable (Opens c) := decidable_of_iff ((_ ∧ _ ∧ _) ∧ c ∉ operatorTails) Iff.rfl

theorem opens_of_not_mem (h : c ∉ [' ', '\t', '\x0c', '\r', '\n', '#', '*', '=', '/', '<', '>']) :
    Opens c := by
  simp only [List.mem_cons, List.not_mem_nil, or_false, not_or] at h
  refine ⟨⟨?_, ?_, ?_⟩, ?_⟩ <;> simp [Token.isIndentation, Token.isBreak, operatorTails, h]

theorem opens_of_isNameStart (h : Text.isNameStart c = true) : Opens c := by
  refine opens_of_not_mem fun hc => ?_
  simp only [List.mem_cons, List.not_mem_nil, or_false] at hc
  rcases hc with rfl | rfl | rfl | rfl | rfl | rfl | rfl | rfl | rfl | rfl | rfl <;>
    exact absurd h (by decide)

theorem opens_of_isDigit (h : c.isDigit = true) : Opens c := by
  refine opens_of_not_mem fun hc => ?_
  simp only [List.mem_cons, List.not_mem_nil, or_false] at hc
  rcases hc with rfl | rfl | rfl | rfl | rfl | rfl | rfl | rfl | rfl | rfl | rfl <;>
    exact absurd h (by decide)

/-! ### Words -/

theorem isNamePart_of_mem (h : Text.isIdentifier cs = true) :
    ∀ c ∈ cs, Text.isNamePart c = true := by
  cases cs with
  | nil => simp
  | cons c cs =>
      simp only [Text.isIdentifier, Bool.and_eq_true, List.all_eq_true] at h
      intro d hd
      rcases List.mem_cons.1 hd with rfl | hd
      · exact Text.isNamePart_of_isNameStart h.1
      · exact h.2 d hd

theorem head_isIdentifier (h : Text.isIdentifier cs = true) :
    ∃ c ds, cs = c :: ds ∧ Text.isNameStart c = true := by
  cases cs with
  | nil => simp [Text.isIdentifier] at h
  | cons c ds =>
      simp only [Text.isIdentifier, Bool.and_eq_true] at h
      exact ⟨c, ds, rfl, h.1⟩

theorem neat_term {least : Nat} {id : String} (h : Text.isIdentifier id.toList = true) :
    Firm least [term id] Opens fun next => Text.isNamePart next = false := by
  obtain ⟨c, cs, hid, hc⟩ := head_isIdentifier h
  have hpart := isNamePart_of_mem h
  have htight : Text.IsTight id.toList :=
    Text.isTight_of_forall (by simp [hid]) fun c hc => Text.isBlank_of_isNamePart (hpart c hc)
  refine .word ⟨by decide, fun c hc => ?_, htight⟩ (fun _ => rfl) ?_ fun next => ends_name h
  · exact Token.isBreak_eq_false (hpart c hc) (by decide) (by decide)
  · rw [hid]
    simpa using opens_of_isNameStart hc

/-- A name after a point. -/
theorem neat_point {least : Nat} {attr : String} (h : Text.isIdentifier attr.toList = true) :
    Firm least [sign ".", term attr] (· = '.') fun next => Text.isNamePart next = false := by
  obtain ⟨c, cs, hattr, hc⟩ := head_isIdentifier h
  have hjoins : ¬ joins "." c := by
    have hsecond : Token.operators.all (fun o => o.toList.head? != some '.' ||
        o.toList.tail.head?.all (· = '.')) = true := by decide
    rintro ⟨longer, hlonger, rest, hrest⟩
    have hpoint := List.all_eq_true.1 hsecond longer hlonger
    rw [← hrest] at hpoint
    obtain rfl : c = '.' := by simpa using hpoint
    exact absurd hc (by decide)
  have hpoint : Firm least [sign "."] (· = '.') (· = c) :=
    .word (spelled_sign (by decide)) (fun _ => rfl) (by simp) fun _ hnext =>
      hnext ▸ ends_op (by decide) hjoins fun _ => isDigit_of_isNameStart hc
  have hname : Firm least [term attr] (· = c) fun next => Text.isNamePart next = false := by
    have hterm : Firm least [term attr] Opens _ := neat_term h
    exact ⟨⟨hterm.1.toSound, by simp [term, firsts, hattr], hterm.1.ends⟩, by simp⟩
  exact hpoint.join hname fun _ => id

theorem neat_number {least : Nat} {kind : TokenKind} {text : String} (h : IsNumber kind text)
    (hkind : kind ≠ .op) (hcomment : kind ≠ .comment) :
    Firm least [.word kind text] Opens fun next => AfterNumber next ∧ (kind = .int → next ≠ '.') := by
  obtain ⟨c, cs, hcs, hc⟩ := h.starts
  have hnumeral := h.numeral
  have htight : Text.IsTight text.toList :=
    Text.isTight_of_forall (by simp [hcs]) fun c hc => Text.isBlank_of_isNumeral (hnumeral c hc)
  have hdepth : ∀ depth, (Piece.word kind text).depth depth = depth := by
    cases kind <;> first | exact fun _ => rfl | exact absurd rfl hkind
  refine .word ⟨hcomment, fun c hc => ?_, htight⟩ hdepth ?_
    fun next hnext => ends_number h hkind hnext.1 hnext.2
  · exact Token.isBreak_eq_false (hnumeral c hc) (by decide) (by decide)
  · rw [hcs]
    rcases hc with hdigit | ⟨rfl, _⟩
    · simpa using opens_of_isDigit hdigit
    · simpa using show Opens '.' by decide

theorem neat_string {least : Nat} (value : String) :
    Firm least [.word .str (Text.quoteString value)] Opens fun next => ¬ Text.IsQuote next := by
  have hquote := Text.isQuote_quoteFor value.toList
  have hvisible : Text.isBlank (Text.quoteFor value.toList) = false := by
    rcases hquote with hquote | hquote <;> rw [hquote] <;> decide
  have htight : Text.IsTight (Text.quoteString value).toList := by
    refine ⟨⟨_, ?_, hvisible⟩, _, ?_, hvisible⟩
    · simp [Text.quoteString]
    · rw [Text.quoteString, String.toList_ofList, ← List.cons_append, List.getLast?_concat]
      rfl
  refine .word ⟨by decide, Token.unbroken_quoteString value, htight⟩ (fun _ => rfl) ?_
    fun next => ends_string
  · have hopens : Opens (Text.quoteFor value.toList) := by
      rcases hquote with hquote | hquote <;> rw [hquote] <;> decide
    simpa [Text.quoteString] using hopens

theorem neat_constant {least : Nat} {value : Constant} (h : value.IsSpelled) (span : Option Span)
    (strength : Precedence) :
    Firm least [value.piece] Opens (MayFollow ⟨.constant value, span⟩ strength) := by
  have keyword : ∀ {id : String}, Text.isIdentifier id.toList = true →
      Firm least [term id] Opens (MayFollow ⟨.constant value, span⟩ strength) := fun hid =>
    (neat_term hid).mono (fun _ => id) fun _ hnext => hnext.endsWord.name
  cases value with
  | int s =>
      refine (neat_number h (by decide) (by decide)).mono (fun _ => id)
        fun next hnext => ⟨hnext.endsWord.number, fun _ hpoint => ?_⟩
      rcases hnext with hnext | ⟨_, _, hint⟩
      · subst hpoint
        exact absurd hnext (by simp [Closes, closers])
      · cases hint
  | float s =>
      exact (neat_number h (by decide) (by decide)).mono (fun _ => id)
        fun next hnext => ⟨hnext.endsWord.number, by simp⟩
  | str v => exact (neat_string v).mono (fun _ => id) fun _ hnext => hnext.endsWord.string
  | bool b => cases b <;> exact keyword (by decide)
  | nothing => exact keyword (by decide)

/-! ### Lists -/

section Spaced

variable {least : Nat} {first : Char → Prop} {p : Piece} {follow : Char → Prop}

/-- A word between spaces. -/
theorem neat_spaced (h : Firm least [p] Starts follow) (hspace : follow ' ') :
    Firm least [.space, p, .space] (· = ' ') fun c => c ≠ '#' :=
  (Firm.space.join h fun _ hc => hc.2.2).join Firm.space fun _ hc => hc ▸ hspace

theorem neat_spacedSign {symbol : String}
    (h : symbol ∈ Token.operators ∧ symbol ∉ brackets ∧ symbol ≠ ".") :
    Firm least [.space, sign symbol, .space] (· = ' ') fun c => c ≠ '#' := by
  refine neat_spaced (neat_sign (fun c hc => ?_) h) (by decide)
  obtain ⟨d, ds, hd, hindentation, hbreak, -, hhash, -⟩ := operator_head symbol h.1
  obtain rfl : d = c := by simpa [hd] using hc
  exact ⟨hindentation, hbreak, hhash⟩

theorem neat_spacedTerm (id : String) (h : Text.isIdentifier id.toList = true) :
    Firm least [.space, term id, .space] (· = ' ') fun c => c ≠ '#' :=
  neat_spaced ((neat_term h).mono (fun _ => And.left) fun _ hc => hc) (by decide)

end Spaced

theorem closes_space (h : c = ' ') : Closes c :=
  h ▸ by decide

/-- Two parts with a word between spaces between them. -/
theorem Firm.between {least : Nat} {left middle right : List Piece} {first follow : Char → Prop}
    (hleft : Firm least left first Closes)
    (hmiddle : Firm least middle (· = ' ') fun c => c ≠ '#')
    (hright : Firm least right Starts follow) :
    Firm least (left ++ middle ++ right) first follow :=
  (hleft.join hmiddle fun _ => closes_space).join hright fun _ hc => hc.2.2

/-- Parts with a word between spaces between each two. -/
theorem neat_joined {least : Nat} {separator : List Piece} {parts : List (List Piece)}
    (hseparator : Firm least separator (· = ' ') fun c => c ≠ '#')
    (hparts : parts ≠ []) (h : ∀ ps ∈ parts, Firm least ps Opens Closes) :
    Firm least (joined separator parts) Opens Closes := by
  induction parts with
  | nil => exact absurd rfl hparts
  | cons ps parts ih =>
      have hps := h ps List.mem_cons_self
      cases parts with
      | nil => exact hps
      | cons ps' parts =>
          have hrest := ih (by simp) (List.forall_mem_cons.1 h).2
          exact hps.between hseparator (hrest.mono (fun _ => And.left) fun _ => id)

/-- The entry of a list: one remark, or pieces that a comma may follow. -/
structure Chunk.Tidy (c : Chunk) : Prop where
  trivia : c.isTrivia = true → ∃ endOfLine text, c.pieces = [.remark endOfLine text] ∧
    (Piece.remark endOfLine text).Spelled
  solid : c.isTrivia = false → Neat 1 c.pieces Starts Closes ∧ c.pieces ≠ []

/-- What an entry may begin with. -/
def Chunk.First (c : Chunk) (next : Char) : Prop :=
  if c.isTrivia then next ∈ [' ', '\n', '#'] else Starts next

theorem Chunk.Tidy.remark {c : Chunk} (h : c.Tidy) (htrivia : c.isTrivia = true) :
    Firm 1 c.pieces (· ∈ [' ', '\n', '#']) fun _ => True := by
  obtain ⟨endOfLine, text, hpieces, hspelled⟩ := h.trivia htrivia
  rw [hpieces]
  exact .remark hspelled (by decide)

theorem Chunk.Tidy.neat {c : Chunk} (h : c.Tidy) : Firm 1 c.pieces c.First Closes := by
  cases htrivia : c.isTrivia with
  | true => exact (h.remark htrivia).mono (by simp [Chunk.First, htrivia]) fun _ _ => trivial
  | false => exact Firm.mono (h.solid htrivia) (by simp [Chunk.First, htrivia]) fun _ => id

theorem neat_comma {least : Nat} : Firm least [sign ","] (· = ',') (· ∉ operatorTails) :=
  neat_sign (by simp) (by decide)

/-- A space or a remark carries no operator on. -/
theorem not_tail_of_mem (h : c ∈ [' ', '\n', '#']) : c ∉ operatorTails := by
  simp only [List.mem_cons, List.not_mem_nil, or_false] at h
  rcases h with rfl | rfl | rfl <;> decide

/-- What stands between two entries may be followed by the second. -/
theorem neat_comma_between (front back : Chunk) (hfront : front.isTrivia = false) :
    Firm 1 (comma front back) (· = ',') back.First := by
  cases hback : back.isTrivia with
  | true =>
      rw [comma, if_neg (by simp [hfront]), if_pos hback]
      refine neat_comma.mono (fun _ => id) fun c hc => not_tail_of_mem ?_
      simpa only [Chunk.First, hback, if_true] using hc
  | false =>
      rw [comma, if_neg (by simp [hfront]), if_neg (by simp [hback])]
      refine (neat_comma.join Firm.space fun c hc => ?_).mono (fun _ => id) fun c hc => ?_
      · exact not_tail_of_mem (by simp [hc])
      · simp only [Chunk.First, hback, Bool.false_eq_true, if_false] at hc
        exact hc.2.2

theorem neat_listed_cons {chunk : Chunk} {rest : List Chunk} (h : ∀ c ∈ chunk :: rest, c.Tidy) :
    Firm 1 (listed (chunk :: rest)) chunk.First Closes := by
  induction rest generalizing chunk with
  | nil => exact (h chunk List.mem_cons_self).neat
  | cons next rest ih =>
      have hchunk := h chunk List.mem_cons_self
      have hback := ih (List.forall_mem_cons.1 h).2
      rw [listed]
      cases htrivia : chunk.isTrivia with
      | true =>
          rw [comma, if_pos htrivia, List.append_nil]
          exact ((hchunk.remark htrivia).mono (by simp [Chunk.First, htrivia]) fun _ => id).join
            hback fun _ _ => trivial
      | false =>
          exact (hchunk.neat.join (neat_comma_between chunk next htrivia)
            fun c hc => hc ▸ by decide).join hback fun _ => id

/-- Entries with commas between them, inside brackets. -/
theorem neat_listed {chunks : List Chunk} (h : ∀ c ∈ chunks, c.Tidy) :
    Neat 1 (listed chunks) (fun _ => True) Closes := by
  cases chunks with
  | nil => exact Neat.nil
  | cons chunk rest => exact (neat_listed_cons h).1.mono (fun _ _ => trivial) fun _ => id

theorem neat_tupled {chunks : List Chunk} (h : ∀ c ∈ chunks, c.Tidy) :
    Neat 1 (tupled chunks) (fun _ => True) Closes := by
  rw [tupled]
  split
  · exact (neat_listed h).append (neat_comma.mono (fun _ => id) fun _ hc => hc.endsWord.operator).1
      (fun c hc => hc ▸ by decide) (fun _ _ _ => trivial) (by simp)
  · rw [List.append_nil]
    exact neat_listed h

theorem neat_remarks {trivia : List Chunk} (h : ∀ t ∈ trivia, t.isTrivia = true ∧ t.Tidy) :
    Neat 1 (trivia.flatMap (·.pieces)) (· ∈ [' ', '\n', '#']) fun _ => True := by
  induction trivia with
  | nil => exact Neat.nil
  | cons t trivia ih =>
      obtain ⟨htrivia, htidy⟩ := h t List.mem_cons_self
      rw [List.flatMap_cons]
      exact ((htidy.remark htrivia).append (ih (List.forall_mem_cons.1 h).2)
        (fun _ _ => trivial) fun _ _ => id).1

theorem neat_colon {least : Nat} : Firm least [sign ":"] (· = ':') (· ∉ operatorTails) :=
  neat_sign (by simp) (by decide)

theorem tidy_pair {key value : Chunk} {trivia : List Chunk} (hkey : key.Tidy)
    (hkeySolid : key.isTrivia = false) (htrivia : ∀ t ∈ trivia, t.isTrivia = true ∧ t.Tidy)
    (hvalue : value.Tidy) (hvalueSolid : value.isTrivia = false) :
    (pair key trivia value).Tidy := by
  have hvalue := hvalue.solid hvalueSolid
  have hfront : Firm 1 (key.pieces ++ [sign ":"]) Starts (· ∉ operatorTails) :=
    Firm.join (hkey.solid hkeySolid) neat_colon fun c hc => hc ▸ by decide
  refine ⟨nofun, fun _ => ?_⟩
  cases trivia with
  | nil =>
      have hspace := hfront.join Firm.space fun c hc => not_tail_of_mem (by simp [hc])
      simpa [pair, Firm] using hspace.join hvalue fun _ hc => hc.2.2
  | cons t trivia =>
      obtain ⟨ht, htidy⟩ := htrivia t List.mem_cons_self
      have hremarks := (htidy.remark ht).append
        (neat_remarks (List.forall_mem_cons.1 htrivia).2) (fun _ _ => trivial)
        fun _ _ => id
      have htrail := hfront.join hremarks fun c => not_tail_of_mem
      simpa [pair, Firm] using htrail.join hvalue fun _ _ => trivial

/-- The entries of a dictionary. -/
theorem tidy_paired {keys values : List Chunk} (hkeys : ∀ c ∈ keys, c.Tidy)
    (hvalues : ∀ c ∈ values, c.Tidy) : ∀ c ∈ paired keys values, c.Tidy := by
  intro c hc
  rcases mem_paired hc with hc | hc | ⟨key, hkey, value, hvalue, trivia, hkeySolid, hvalueSolid,
    htrivia, rfl⟩
  · exact hkeys c hc
  · exact hvalues c hc
  · exact tidy_pair (hkeys key hkey) hkeySolid
      (fun t ht => ⟨(htrivia t ht).1, hvalues t (htrivia t ht).2⟩) (hvalues value hvalue) hvalueSolid

theorem Node.IsRemark.spelled {n : Node} (h : n.IsRemark) (endOfLine : Bool) :
    (Piece.remark endOfLine n.remark).Spelled := by
  obtain ⟨text, htext, hhead, hunbroken⟩ := h
  have hremark : n.remark = text := by simp [Node.remark, htext, Page.write, Page.blank]
  rw [hremark]
  exact ⟨hhead, hunbroken⟩

/-- An expression where a comma may follow it. -/
abbrev NeatEntry (detail : Detail) (n : Node) : Prop :=
  ∀ strength, Neat 0 (n.pieces detail strength) Starts Closes ∧ n.pieces detail strength ≠ []

theorem tidy_chunk {detail : Detail} {n : Node} (hcode : n.isTrivia = false → NeatEntry detail n)
    (hremark : n.isTrivia = true → n.IsRemark) : (n.chunk detail).Tidy where
  trivia htrivia := by
    have hspelled := (hremark htrivia).spelled
    obtain ⟨kind, span⟩ := n
    cases kind <;> cases htrivia <;> exact ⟨_, _, rfl, hspelled _⟩
  solid hsolid := Firm.deeper (hcode hsolid .test) (by decide)

theorem tidy_chunksAll {detail : Detail} {ns : List Node}
    (hcode : ∀ n ∈ Node.code ns, NeatEntry detail n)
    (hremarks : ∀ r ∈ ns, r.isTrivia = true → r.IsRemark) : ∀ c ∈ chunksAll detail ns, c.Tidy := by
  intro c hc
  rw [chunksAll_eq] at hc
  obtain ⟨n, hn, rfl⟩ := List.mem_map.1 hc
  exact tidy_chunk (fun hsolid => hcode n (Node.mem_code.2 ⟨hn, hsolid⟩)) (hremarks n hn)

theorem tidy_shown {detail : Detail} {ns : List Node} (hcode : ∀ n ∈ Node.code ns, NeatEntry detail n)
    (hremarks : ∀ r ∈ ns, r.isTrivia = true → r.IsRemark) :
    ∀ c ∈ detail.shown (chunksAll detail ns), c.Tidy :=
  fun c hc => tidy_chunksAll hcode hremarks c (Detail.mem_of_mem_shown hc)

/-! ### Expressions -/

/-- The pieces of an expression in its part are neat. -/
def NeatPart (detail : Detail) : Part → Node → Prop
  | .whole, n => ∀ strength, Neat 0 (n.pieces detail strength) Opens (MayFollow n strength) ∧
      n.pieces detail strength ≠ []
  | .subscript, n => Neat 1 (n.subscriptPieces detail) (fun _ => True) Closes
  | _, n => NeatEntry detail n

namespace NeatPart

variable {detail : Detail} {n : Node} (h : NeatPart detail .whole n)

include h

theorem closed (strength : Precedence) : Firm 0 (n.pieces detail strength) Opens Closes :=
  Firm.mono (h strength) (fun _ => id) fun _ => .inl

theorem entry : NeatEntry detail n := fun strength =>
  Firm.mono (h strength) (fun _ => And.left) fun _ => .inl

end NeatPart

/-- What an operator of strength `p` joins is put in parentheses where a point may follow. -/
theorem MayFollow.weaker {n : Node} {p strength : Precedence} (h : MayFollow n strength next)
    (hp : p < .atom) : decide (p < strength) = true ∨ Closes next := by
  rcases h with h | ⟨_, rfl, _⟩
  · exact .inr h
  · exact .inl (decide_eq_true hp)

section Brackets

variable {ps : List Piece} {first follow : Char → Prop} (h : Neat 1 ps first Closes)
include h

theorem neat_parenthesized : Firm 0 (enclosed true ps) Opens follow :=
  neat_bracketed (by simp) rfl rfl h (by decide) (by decide)

theorem neat_parens : Firm 0 ([sign "("] ++ ps ++ [sign ")"]) (· = '(') follow :=
  neat_bracketed (by simp) rfl rfl h (by decide) rfl

theorem neat_square : Firm 0 ([sign "["] ++ ps ++ [sign "]"]) (· = '[') follow :=
  neat_bracketed (by simp) rfl rfl h (by decide) rfl

theorem neat_curly : Firm 0 ([sign "\x7b"] ++ ps ++ [sign "\x7d"]) (· = '\x7b') follow :=
  neat_bracketed (by simp) rfl rfl h (by decide) rfl

end Brackets

/-- What an operator builds is put in parentheses at a stronger place. -/
theorem Firm.operation {n : Node} {ps : List Piece} {p : Precedence} (hp : p < .atom)
    (h : Firm 0 ps Opens Closes) (strength : Precedence) :
    Firm 0 (enclosed (decide (p < strength)) ps) Opens (MayFollow n strength) := by
  by_cases hlt : p < strength
  · rw [decide_eq_true hlt]
    exact neat_parenthesized (h.1.deeper (by decide))
  · rw [decide_eq_false hlt]
    refine h.mono (fun _ => id) fun next hnext => ?_
    exact (hnext.weaker hp).resolve_left (by simpa using hlt)

theorem BinaryOp.precedence_lt_atom (op : BinaryOp) : op.precedence < .atom := by
  cases op <;> decide

theorem BoolOp.precedence_lt_atom (op : BoolOp) : op.precedence < .atom := by
  cases op <;> decide

theorem UnaryOp.precedence_lt_atom (op : UnaryOp) : op.precedence < .atom := by
  cases op <;> decide

theorem UnaryOp.neat_pieces (op : UnaryOp) : Firm 0 op.pieces Opens Opens := by
  cases op
  case not =>
    exact ((neat_term (by decide)).join Firm.space fun c hc => hc ▸ by decide).mono (fun _ => id)
      fun _ hc => hc.1.2.2
  all_goals
    refine (neat_sign ?_ (by decide)).mono (fun _ => id) fun _ => And.right
    rintro c ⟨⟩
    decide

theorem CompareOp.neat_pieces (op : CompareOp) :
    Firm 0 (.space :: op.pieces ++ [.space]) (· = ' ') fun c => c ≠ '#' := by
  have two : ∀ {front back : String}, Text.isIdentifier front.toList = true →
      Text.isIdentifier back.toList = true →
      Firm 0 [.space, term front, .space, term back, .space] (· = ' ') fun c => c ≠ '#' :=
    fun hfront hback => (neat_spacedTerm _ hfront).join
      ((neat_term hback).join Firm.space fun c hc => hc ▸ by decide) fun _ hc => hc.1.2.2
  cases op
  case is => exact neat_spacedTerm _ (by decide)
  case isIn => exact neat_spacedTerm _ (by decide)
  case isNot => exact two (by decide) (by decide)
  case notIn => exact two (by decide) (by decide)
  all_goals exact neat_spacedSign (by decide)

/-- Comparisons after the first operand. -/
theorem neat_comparisons (pairs : List (CompareOp × List Piece))
    (h : ∀ pair ∈ pairs, Firm 0 pair.2 Opens Closes) :
    Neat 0 (pairs.flatMap fun pair => .space :: pair.1.pieces ++ .space :: pair.2)
      (· = ' ') Closes := by
  induction pairs with
  | nil => exact Neat.nil
  | cons pair pairs ih =>
      have hfirst := pair.1.neat_pieces.join (h pair List.mem_cons_self) fun _ hc => hc.1.2.2
      have hrest := ih (List.forall_mem_cons.1 h).2
      rw [List.flatMap_cons]
      simpa using (hfirst.append hrest (fun _ => closes_space) fun _ _ => id).1

/-- A value that may be absent after a mark. -/
theorem neat_piecesOption {detail : Detail} {n : Option Node} {before : List Piece}
    {first : Char → Prop} (h : ∀ m ∈ n, NeatPart detail .whole m)
    (hbefore : Firm 0 before first (· ∉ operatorTails)) :
    Neat 0 (piecesOption detail n before) first Closes := by
  cases n with
  | none => exact Neat.nil
  | some m => exact (hbefore.join ((h m rfl).closed .test) fun _ => And.right).1

theorem neat_bareOption {detail : Detail} {n : Option Node} (h : ∀ m ∈ n, NeatPart detail .whole m) :
    Neat 0 (piecesOption detail n []) Opens Closes := by
  cases n with
  | none => exact Neat.nil
  | some m => exact ((h m rfl).closed .test).1

theorem starts_colon (h : c = ':') : Opens c :=
  h ▸ by decide

theorem closes_colon (h : c = ':') : Closes c :=
  h ▸ by decide

theorem neat_slice {detail : Detail} {lower upper step : Option Node}
    (hlower : ∀ n ∈ lower, NeatPart detail .whole n) (hupper : ∀ n ∈ upper, NeatPart detail .whole n)
    (hstep : ∀ n ∈ step, NeatPart detail .whole n) :
    Firm 0 (piecesOption detail lower [] ++ [sign ":"] ++ piecesOption detail upper [] ++
      piecesOption detail step [sign ":"]) Opens Closes := by
  have hcolon : Firm 0 (piecesOption detail lower [] ++ [sign ":"]) Opens (· ∉ operatorTails) :=
    ⟨(neat_bareOption hlower).append neat_colon.1 (fun _ => closes_colon)
      (fun _ _ => starts_colon) (by simp), by simp⟩
  have hmiddle := hcolon.append (neat_bareOption hupper) (fun _ => And.right)
    fun _ _ hc => hc.endsWord.operator
  exact hmiddle.append (neat_piecesOption hstep neat_colon) (fun _ => closes_colon) fun _ _ => id

theorem neat_equals {least : Nat} : Firm least [sign "="] (· = '=') (· ∉ operatorTails) :=
  neat_sign (by simp) (by decide)

theorem neat_star {least : Nat} {star : String} (h : star ∈ ["*", "**"]) :
    Firm least [sign star] Starts (· ∉ operatorTails) := by
  have hstarts : Starts '*' := ⟨by decide, by decide, by decide⟩
  simp only [List.mem_cons, List.not_mem_nil, or_false] at h
  rcases h with rfl | rfl <;>
    exact neat_sign (by simpa using hstarts) (by decide)

/-- The pieces of every dressed expression are neat. -/
theorem neat_pieces (detail : Detail) {part : Part} {n : Node} (h : Dressed part n) :
    NeatPart detail part n := by
  have display : ∀ {ps : List Piece} {c : Char}, (∀ follow, Firm 0 ps (· = c) follow) → Opens c →
      ∀ follow, Firm 0 ps Opens follow := fun h hc follow =>
    (h follow).mono (fun _ hd => hd ▸ hc) fun _ => id
  induction h with
  | name hid =>
      exact fun _ => (neat_term hid.spelled).mono (fun _ => id) fun _ hnext => hnext.endsWord.name
  | constant hvalue => exact fun _ => neat_constant hvalue _ _
  | @boolOp op values _ htwo _ ih =>
      intro strength
      have hne : values.map (·.pieces detail op.precedence.next) ≠ [] := fun hnil => by
        rw [List.map_eq_nil_iff.1 hnil] at htwo
        exact absurd htwo (by simp)
      have hsymbol : Text.isIdentifier op.symbol.toList = true := by cases op <;> decide
      rw [Node.pieces, piecesAll_eq]
      refine (neat_joined (neat_spacedTerm _ hsymbol) hne fun ps hps => ?_).operation
        op.precedence_lt_atom strength
      obtain ⟨v, hv, rfl⟩ := List.mem_map.1 hps
      exact (ih v hv).closed _
  | @binOp left right op _ _ _ ihleft ihright =>
      intro strength
      have hop : Firm 0 [.space, sign op.symbol, .space] (· = ' ') fun c => c ≠ '#' :=
        neat_spacedSign (by cases op <;> decide)
      rw [Node.pieces]
      exact ((ihleft.closed _).between hop (ihright.entry _)).operation op.precedence_lt_atom strength
  | @unaryOp op operand _ _ ih =>
      intro strength
      rw [Node.pieces]
      exact (op.neat_pieces.join (ih.closed _) fun _ => id).operation op.precedence_lt_atom strength
  | @compare left ops comparators _ _ _ _ _ ihleft ihcomparators =>
      intro strength
      have hpairs := neat_comparisons (ops.zip (comparators.map (·.pieces detail .bitOr)))
        fun pair hpair => by
          obtain ⟨c, hc, heq⟩ := List.mem_map.1 (List.of_mem_zip hpair).2
          exact heq ▸ (ihcomparators c hc).closed .bitOr
      rw [Node.pieces, piecesAll_eq]
      exact ((ihleft.closed _).append hpairs (fun _ => closes_space) fun _ _ => id).operation
        (by decide) strength
  | @ifExp test body orelse _ _ _ _ ihtest ihbody ihorelse =>
      intro strength
      have hfront := (ihbody.closed .or).between (neat_spacedTerm "if" (by decide)) (ihtest.entry .or)
      rw [Node.pieces]
      exact (hfront.between (neat_spacedTerm "else" (by decide)) (ihorelse.entry .test)).operation
        (by decide) strength
  | @call func args keywords _ _ _ _ hremarks ihfunc ihargs ihkeywords =>
      intro strength
      have hargs := tidy_shown ihargs (List.forall_mem_append.1 hremarks).1
      have hkeywords := tidy_shown ihkeywords (List.forall_mem_append.1 hremarks).2
      have hchunks : ∀ c ∈ detail.shown (chunksAll detail args ++ chunksAll detail keywords),
          c.Tidy := by
        rw [Detail.shown_append]
        exact fun c hc => (List.mem_append.1 hc).elim (hargs c) (hkeywords c)
      rw [Node.pieces]
      simpa [Firm] using (ihfunc.closed .atom).join (neat_parens (neat_listed hchunks))
        fun c hc => hc ▸ by decide
  | @member value attr _ _ hattr ih =>
      intro strength
      have hvalue : Firm 0 (enclosed (isIntLiteral value) (value.pieces detail .atom)) Opens
          (· = '.') := by
        cases hint : isIntLiteral value with
        | true => exact neat_parenthesized ((ih.closed .atom).1.deeper (by decide))
        | false => exact Firm.mono (ih .atom) (fun _ => id) fun _ hnext => .inr ⟨hnext, rfl, hint⟩
      rw [Node.pieces]
      exact (hvalue.join (neat_point hattr.spelled) fun _ => id).mono (fun _ => id)
        fun _ hnext => hnext.endsWord.name
  | @subscript value index _ _ _ ihvalue ihindex =>
      intro strength
      have hindex : Neat 1 (index.subscriptPieces detail) (fun _ => True) Closes := ihindex
      rw [pieces_subscript]
      simpa [Firm] using (ihvalue.closed .atom).join (neat_square hindex)
        fun c hc => hc ▸ by decide
  | list _ hremarks ih =>
      intro strength
      rw [Node.pieces]
      exact display (fun _ => neat_square (neat_listed (tidy_shown ih hremarks))) (by decide) _
  | tuple _ hremarks ih =>
      intro strength
      rw [Node.pieces]
      exact display (fun _ => neat_parens (neat_tupled (tidy_shown ih hremarks))) (by decide) _
  | set _ _ hremarks ih =>
      intro strength
      rw [Node.pieces]
      exact display (fun _ => neat_curly (neat_listed (tidy_shown ih hremarks))) (by decide) _
  | dict _ _ _ hremarks ihkeys ihvalues =>
      intro strength
      have hkeys := tidy_shown (fun k hk => (ihkeys k hk).entry) (List.forall_mem_append.1 hremarks).1
      have hvalues := tidy_shown (fun v hv => (ihvalues v hv).entry)
        (List.forall_mem_append.1 hremarks).2
      rw [Node.pieces]
      exact display (fun _ => neat_curly (neat_listed (tidy_paired hkeys hvalues)))
        (by decide) _
  | item _ ih => exact ih.entry
  | starred _ ih =>
      intro strength
      rw [Node.pieces]
      exact (neat_star (by simp)).join (ih.closed .bitOr) fun _ => And.right
  | index _ ih => exact ih.entry
  | slice _ _ _ ihlower ihupper ihstep =>
      intro strength
      rw [Node.pieces]
      exact (neat_slice ihlower ihupper ihstep).mono (fun _ => And.left) fun _ => id
  | @single n _ hbare ih =>
      obtain ⟨kind, span⟩ := n
      have hplain : Neat 1 (Node.pieces detail ⟨kind, span⟩ .tuple) (fun _ => True) Closes :=
        ((ih .tuple).1.deeper (by decide)).mono (fun _ _ => trivial) fun _ => id
      cases kind with
      | tuple elts =>
          have hnone : elts.any (!·.isTrivia) = false := by
            have hcode := hbare elts rfl
            simpa [Node.code] using hcode
          rw [Node.pieces] at hplain
          simp only [NeatPart, Node.subscriptPieces, hnone]
          exact hplain
      | _ => exact hplain
  | @several elts span hne _ hremarks ih =>
      have hany : elts.any (!·.isTrivia) = true := by
        obtain ⟨e, he⟩ := List.exists_mem_of_ne_nil _ hne
        exact List.any_eq_true.2 ⟨e, (Node.mem_code.1 he).1, by simp [(Node.mem_code.1 he).2]⟩
      simp only [NeatPart, Node.subscriptPieces, hany]
      exact neat_tupled (tidy_shown ih hremarks)
  | @keyword arg value _ harg _ ih =>
      intro strength
      cases arg with
      | none =>
          rw [Node.pieces]
          exact (neat_star (by simp)).join (ih.closed .bitOr) fun _ => And.right
      | some name =>
          have hname : Firm 0 [term name] Starts (fun c => Text.isNamePart c = false) :=
            (neat_term (harg name rfl).spelled).mono (fun _ => And.left) fun _ => id
          rw [Node.pieces]
          exact (hname.join neat_equals fun c hc => hc ▸ by decide).join (ih.closed .test)
            fun _ => And.right

theorem Dressed.neat (detail : Detail) {n : Node} (h : Dressed .item n) : NeatEntry detail n :=
  neat_pieces detail h

/-! ### Statements -/

theorem neat_parameter {detail : Detail} {defaults : Bool} {n : Node}
    (h : DressedParameter defaults n) (strength : Precedence) :
    Firm 0 (n.pieces detail strength) Opens Closes := by
  cases h with
  | @arg name default _ hname hdefault =>
      have hvalue := neat_piecesOption (fun d hd => neat_pieces detail (hdefault d hd).2) neat_equals
      rw [Node.pieces]
      exact (neat_term hname.spelled).append hvalue (fun c hc => hc ▸ by decide)
        fun _ _ hc => hc.endsWord.name

theorem tidy_parameters {detail : Detail} {args kwonlyargs : List Node} {vararg kwarg : Option Node}
    {span : Option Span} (h : DressedParameters ⟨.arguments args vararg kwonlyargs kwarg, span⟩) :
    ∀ c ∈ detail.shown (parameterChunks detail args vararg kwonlyargs kwarg), c.Tidy := by
  obtain ⟨hargs, hvararg, hkwonlyargs, hkwarg, hremarks⟩ := h
  have hstarred : ∀ {star : String} {a : Node}, star ∈ ["*", "**"] → DressedParameter false a →
      Chunk.Tidy ⟨false, sign star :: a.pieces detail .test⟩ := fun hmem ha =>
    ⟨by simp, fun _ => (neat_star hmem).join ((neat_parameter ha .test).deeper (by decide))
      fun _ => And.right⟩
  have hentry : ∀ a, DressedParameter true a → NeatEntry detail a := fun a ha strength =>
    (neat_parameter ha strength).mono (fun _ => And.left) fun _ => id
  intro c hc
  rcases mem_parameterChunks (Detail.mem_of_mem_shown hc) with
    hc | hc | rfl | ⟨a, ha, rfl⟩ | ⟨a, ha, rfl⟩
  · exact tidy_chunksAll (fun a ha => hentry a (hargs a ha))
      (List.forall_mem_append.1 hremarks).1 c hc
  · exact tidy_chunksAll (fun a ha => hentry a (hkwonlyargs a ha))
      (List.forall_mem_append.1 hremarks).2 c hc
  · exact ⟨by simp, fun _ => (neat_star (by simp)).mono (fun _ => id) fun _ hc =>
      hc.endsWord.operator⟩
  · exact hstarred (by simp) (hvararg a ha)
  · exact hstarred (by simp) (hkwarg a ha)

theorem neat_parameters (detail : Detail) {n : Node} (h : DressedParameters n) :
    Neat 1 (n.parameterPieces detail) (fun _ => True) Closes := by
  have hform := h
  cases hform
  exact neat_listed (tidy_parameters h)

/-- What stands on a line of code. -/
abbrev NeatLine (ps : List Piece) : Prop :=
  Neat 0 ps Starts Closes ∧ ps ≠ []

theorem neatLine_term (id : String) (h : Text.isIdentifier id.toList = true) :
    NeatLine [term id] :=
  (neat_term h).mono (fun _ => And.left) fun _ hc => hc.endsWord.name

/-- A keyword and what it is about. -/
theorem neatLine_headed (id : String) {ps : List Piece} (hps : NeatLine ps)
    (h : Text.isIdentifier id.toList = true) : NeatLine ([term id, .space] ++ ps) :=
  (Firm.join (neatLine_term id h) Firm.space fun _ => closes_space).join hps fun _ hc => hc.2.2

theorem neatLine_colon {ps : List Piece} (h : NeatLine ps) : NeatLine (ps ++ [sign ":"]) :=
  Firm.join h (neat_colon.mono (fun _ => id) fun _ hc => hc.endsWord.operator) fun _ => closes_colon

theorem neatLine_assign {detail : Detail} {targets : List Node} {value : Node}
    (htargets : ∀ t ∈ targets, Dressed .item t) (hvalue : Dressed .item value) :
    NeatLine ((targets.flatMap fun t => t.pieces detail .tuple ++ [.space, sign "=", .space]) ++
      value.pieces detail .tuple) := by
  induction targets with
  | nil => exact hvalue.neat detail .tuple
  | cons t targets ih =>
      have hrest := ih (List.forall_mem_cons.1 htargets).2
      rw [List.flatMap_cons, List.append_assoc]
      exact Firm.between ((htargets t List.mem_cons_self).neat detail .tuple)
        (neat_spacedSign (by decide)) hrest

/-- The line that a dressed statement begins with. -/
theorem neat_header (detail : Detail) {n : Node} (h : DressedStatement n) (elif : Bool) :
    NeatLine (n.header detail elif) := by
  cases h with
  | @functionDef name args _ _ hname hargs =>
      have hname : NeatLine _ := Firm.join (neatLine_term name hname.spelled)
        (neat_parens (neat_parameters detail hargs)) fun c hc => hc ▸ by decide
      simpa [Node.header] using neatLine_colon (neatLine_headed "def" hname (by decide))
  | @returnStmt value _ hvalue =>
      cases value with
      | none => exact neatLine_term _ (by decide)
      | some v => exact neatLine_headed "return" ((hvalue v rfl).neat detail .tuple) (by decide)
  | assign _ htargets hvalue => exact neatLine_assign htargets hvalue
  | @augAssign target value op _ htarget hvalue =>
      have hop : Firm 0 [.space, sign (op.symbol ++ "="), .space] (· = ' ') fun c => c ≠ '#' :=
        neat_spacedSign (by cases op <;> decide)
      exact Firm.between (htarget.neat detail .tuple) hop (hvalue.neat detail .tuple)
  | forLoop htarget _ hiter =>
      simpa [Node.header] using neatLine_colon (neatLine_headed "for"
        (Firm.between (htarget.neat detail .tuple) (neat_spacedTerm "in" (by decide))
          (hiter.neat detail .tuple)) (by decide))
  | whileLoop htest =>
      exact neatLine_colon
        (neatLine_headed "while" ((Dressed.item htest).neat detail .test) (by decide))
  | ifStmt htest =>
      exact neatLine_colon (neatLine_headed _ ((Dressed.item htest).neat detail .test)
        (by cases elif <;> decide))
  | exprStmt hvalue => exact hvalue.neat detail .tuple
  | pass | breakStmt | continueStmt => exact neatLine_term _ (by decide)

/-- A line that is scanned as its words. -/
def Row.IsNeat : Row → Prop
  | .code _ ps => NeatLine ps
  | .comment _ text | .tail text => (Piece.remark false text).Spelled

/-- Every line that a node is printed as is neat. -/
abbrev NeatRows (detail : Detail) (n : Node) : Prop :=
  ∀ level elif, ∀ row ∈ n.rows detail level elif, row.IsNeat

theorem neatRows_remark {n : Node} (htrivia : n.isTrivia = true) (h : n.IsRemark) (detail : Detail) :
    NeatRows detail n := by
  have hspelled := h.spelled false
  obtain ⟨kind, span⟩ := n
  intro level elif row hrow
  cases kind <;> cases htrivia <;> cases detail
  case comment.refl.code | directive.refl.code => cases hrow
  case comment.refl.trivia c =>
    have hremark : Node.remark ⟨.comment c, span⟩ = c.line := by
      simp [Node.remark, Node.inscribe, Page.write, Page.blank]
    rw [hremark] at hspelled
    rw [Node.rows, Node.lay] at hrow
    cases hend : c.endOfLine <;> rw [hend] at hrow <;>
      · obtain rfl := List.mem_singleton.1 hrow
        exact hspelled
  case directive.refl.trivia d =>
    obtain rfl := List.mem_singleton.1 hrow
    exact hspelled

theorem mem_layOrelse {shape : Nat × Bool} {solid : Bool} {detail : Detail} {orelse : List Node}
    {level : Nat} {row : Row}
    (h : row ∈ layOrelse .rows shape solid (layAll .rows detail orelse) level) :
    row = .code level [term "else", sign ":"] ∨
      ∃ n ∈ orelse, ∃ level elif, row ∈ n.rows detail level elif := by
  have hpart : ∀ {parts : List (Nat → Bool → List Row)} {level elif},
      (∀ part ∈ parts, ∃ n ∈ orelse, part = n.rows detail) →
      row ∈ parts.flatMap (· level elif) → ∃ n ∈ orelse, ∃ level elif, row ∈ n.rows detail level elif := by
    intro parts level elif hparts hrow
    obtain ⟨part, hpart, hrow⟩ := List.mem_flatMap.1 hrow
    obtain ⟨n, hn, rfl⟩ := hparts part hpart
    exact ⟨n, hn, level, elif, hrow⟩
  have hall : ∀ part ∈ layAll .rows detail orelse, ∃ n ∈ orelse, part = n.rows detail := by
    intro part hpart
    rw [layAll_eq] at hpart
    obtain ⟨n, hn, rfl⟩ := List.mem_map.1 hpart
    exact ⟨n, hn, rfl⟩
  simp only [layOrelse, List.mem_append] at h
  rcases h with h | h
  · exact .inr (hpart (fun part hp => hall part (List.mem_of_mem_take hp)) h)
  · have hrest := fun part hp => hall part (List.mem_of_mem_drop (i := shape.1) hp)
    split at h
    · exact .inr (hpart hrest h)
    · split at h
      · rcases List.mem_append.1 h with h | h
        · exact .inl (List.mem_singleton.1 h)
        · exact .inr (hpart hrest h)
      · exact .inr (hpart hrest h)

section Blocks

variable {detail : Detail} {ns body orelse : List Node} {level : Nat} {row : Row}

theorem neatRows_nodes (hremarks : ∀ r ∈ ns, r.isTrivia = true → r.IsRemark)
    (hcode : ∀ s ∈ Node.code ns, NeatRows detail s) : ∀ n ∈ ns, NeatRows detail n := by
  intro n hn
  cases htrivia : n.isTrivia with
  | true => exact neatRows_remark htrivia (hremarks n hn htrivia) detail
  | false => exact hcode n (Node.mem_code.2 ⟨hn, htrivia⟩)

theorem neat_blockRows (h : ∀ n ∈ ns, NeatRows detail n)
    (hrow : row ∈ (layAll .rows detail ns).flatMap (· level false)) : row.IsNeat := by
  rw [layAll_rows] at hrow
  obtain ⟨n, hn, hrow⟩ := List.mem_flatMap.1 hrow
  exact h n hn level false row hrow

/-- The line of a statement, its block and what follows the block. -/
theorem neat_compoundRows {front : List Row} {shape : Nat × Bool} {solid : Bool} {level' : Nat}
    (hfront : ∀ row ∈ front, row.IsNeat)
    (hremarks : ∀ r ∈ body ++ orelse, r.isTrivia = true → r.IsRemark)
    (hbody : ∀ s ∈ Node.code body, NeatRows detail s)
    (horelse : ∀ s ∈ Node.code orelse, NeatRows detail s) :
    ∀ row ∈ front ++ (layAll .rows detail body).flatMap (· level false) ++
      layOrelse .rows shape solid (layAll .rows detail orelse) level', row.IsNeat := by
  obtain ⟨hbodyRemarks, horelseRemarks⟩ := List.forall_mem_append.1 hremarks
  intro row hrow
  rcases List.mem_append.1 hrow with hrow | hrow
  · rcases List.mem_append.1 hrow with hrow | hrow
    · exact hfront row hrow
    · exact neat_blockRows (neatRows_nodes hbodyRemarks hbody) hrow
  · rcases mem_layOrelse hrow with rfl | ⟨n, hn, level', elif', hrow⟩
    · exact neatLine_colon (neatLine_term "else" (by decide))
    · exact neatRows_nodes horelseRemarks horelse n hn level' elif' row hrow

end Blocks

/-- Every line of a dressed statement is neat. -/
theorem neat_rows (detail : Detail) {n : Node} (h : DressedStatement n) : NeatRows detail n := by
  have hline : ∀ {n : Node} {level : Nat} {elif : Bool}, DressedStatement n →
      ∀ row ∈ [Row.code level (n.header detail elif)], row.IsNeat := fun hn row hrow =>
    List.mem_singleton.1 hrow ▸ neat_header detail hn _
  induction h with
  | functionDef hname hargs hne hbody hremarks ih =>
      intro level elif row hrow
      rcases List.mem_append.1 hrow with hrow | hrow
      · exact hline (.functionDef hname hargs hne hbody hremarks) row hrow
      · exact neat_blockRows (neatRows_nodes hremarks ih) hrow
  | forLoop htarget hstrong hiter hne hbody horelse hremarks ihbody ihorelse =>
      exact fun _ _ => neat_compoundRows
        (hline (.forLoop htarget hstrong hiter hne hbody horelse hremarks)) hremarks ihbody ihorelse
  | whileLoop htest hne hbody horelse hremarks ihbody ihorelse =>
      exact fun _ _ => neat_compoundRows (hline (.whileLoop htest hne hbody horelse hremarks)) hremarks
        ihbody ihorelse
  | ifStmt htest hne hbody horelse hremarks ihbody ihorelse =>
      exact fun _ _ => neat_compoundRows (hline (.ifStmt htest hne hbody horelse hremarks)) hremarks
        ihbody ihorelse
  | returnStmt hvalue => exact fun _ _ => hline (.returnStmt hvalue)
  | assign hne htargets hvalue => exact fun _ _ => hline (.assign hne htargets hvalue)
  | augAssign htarget hvalue => exact fun _ _ => hline (.augAssign htarget hvalue)
  | exprStmt hvalue => exact fun _ _ => hline (.exprStmt hvalue)
  | pass => exact fun _ _ => hline .pass
  | breakStmt => exact fun _ _ => hline .breakStmt
  | continueStmt => exact fun _ _ => hline .continueStmt

end TriviaTree
