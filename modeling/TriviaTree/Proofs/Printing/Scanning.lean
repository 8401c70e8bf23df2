import Mathlib
import TriviaTree.Proofs.Grammar.Uncommented
import TriviaTree.Proofs.Printing.Neat

/-!
Printed lines are scanned as their words.

`Piece.text` is what neat pieces add to the page (`written_putAll`) and `Row.text` what a line adds
(`written_putRows`). `Scans s ws s'` says that the scanner gets from `s` to `s'` and finds the words
`ws` on its way. Neat pieces are scanned as their words (`scans_pieces`), and lines as their `layout`:
the end of each line of code after its words, and before them the blocks that it opens or closes
(`scan_rows`).

A comment at the end of a line goes on to the line break, over all that is written after it. So the
text that trails a line is gathered up to the next line before it is scanned.
-/

set_option autoImplicit false

namespace TriviaTree

open Piece

variable {trail : List Char} {ps : List Piece} {rows : List Row} {page : Page} {level : Nat}
  {indents : List Nat} (options : PageOptions)

/-! ### What is written -/

namespace Piece

/-- What a piece adds to a page; `fresh` when the line has only just begun. -/
def chars (options : PageOptions) (level : Nat) (fresh : Bool) : Piece → List Char
  | .word _ text => text.toList
  | .space => [' ']
  | .remark endOfLine text =>
      (if fresh then [] else if endOfLine then Page.spaces options.eolPadding
        else '\n' :: Page.spaces ((level + 1) * options.indentSize)) ++
      text.toList ++ '\n' :: Page.spaces ((level + 1) * options.indentSize)

/-- What pieces add to a page. -/
def text (options : PageOptions) (level : Nat) : Bool → List Piece → List Char
  | _, [] => []
  | fresh, p :: ps => p.chars options level fresh ++ text options level p.isRemark ps

end Piece

namespace Page

@[simp] theorem reverse_spaces (count : Nat) : (spaces count).reverse = spaces count :=
  List.reverse_replicate ..

theorem atLineStart_newline (page : Page) (level : Nat) : (page.newline level).atLineStart = true := by
  have hspaces : ∀ count, ((spaces count ++ '\n' :: page.written).takeWhile (· ≠ '\n')).all
      (· = ' ') = true := by
    intro count
    induction count with
    | zero => rfl
    | succ count _ => simp [spaces, List.replicate_succ]
  exact hspaces _

/-- A word that does not end in a space is on the line now. -/
theorem atLineStart_write (page : Page) {text : String} {c : Char}
    (hlast : text.toList.getLast? = some c) (hspace : c ≠ ' ') (hbreak : c ≠ '\n') :
    (page.write text).atLineStart = false ∧ (page.write text).written.head? = some c := by
  obtain ⟨cs, hcs⟩ := List.getLast?_eq_some_iff.1 hlast
  have hwritten : (page.write text).written = c :: (cs.reverse ++ page.written) := by
    simp [write, hcs]
  rw [atLineStart, hwritten]
  simp [hbreak, hspace]

/-- Nothing is taken back of a page that does not end in a space. -/
theorem trimTrailingSpaces_of_head (h : page.written.head? ≠ some ' ') :
    page.trimTrailingSpaces = page := by
  have hkept : page.written.dropWhile (· = ' ') = page.written := by
    cases hwritten : page.written with
    | nil => rfl
    | cons c cs =>
        rw [hwritten] at h
        have hc : c ≠ ' ' := by simpa using h
        simp [hc]
  rw [trimTrailingSpaces, hkept]

end Page

/-- The page is as a remark finds it: on a fresh line, or after something that is no space. -/
def Page.Ready (page : Page) (fresh : Bool) (p : Piece) : Prop :=
  p.isRemark = true → page.atLineStart = fresh ∧ (fresh = false → page.written.head? ≠ some ' ')

theorem written_put {fresh : Bool} {p : Piece} (hready : page.Ready fresh p) :
    (p.put page).written =
        (p.chars page.options page.indentLevel fresh).reverse ++ page.written ∧
      (p.put page).options = page.options ∧ (p.put page).indentLevel = page.indentLevel := by
  cases p with
  | word kind text => exact ⟨rfl, rfl, rfl⟩
  | space => exact ⟨rfl, rfl, rfl⟩
  | remark endOfLine text =>
      obtain ⟨hfresh, hhead⟩ := hready rfl
      cases fresh with
      | true =>
          simp [Piece.put, writeBracketed, hfresh, chars, Page.write, Page.continuation,
            Page.newline]
      | false =>
          have htrim := Page.trimTrailingSpaces_of_head (hhead rfl)
          cases endOfLine <;>
            simp [Piece.put, writeBracketed, hfresh, htrim, chars, Page.write, Page.continuation,
              Page.newline]

/-- After a piece the page is ready for one that may stand next to it. -/
theorem ready_put {p q : Piece} (hspelled : p.Spelled) (hadjacent : Adjacent p q) :
    (p.put page).Ready p.isRemark q := by
  intro hremark
  have hhash : '#' ∈ q.firsts := by
    cases q <;> cases hremark
    simp [firsts]
  cases p with
  | word kind text =>
      obtain ⟨-, hunbroken, -, c, hc, hblank⟩ := hspelled
      have hspace : c ≠ ' ' := by
        rintro rfl
        cases hblank
      have hbreak : c ≠ '\n' := by
        rintro rfl
        exact absurd (hunbroken '\n' (List.mem_of_getLast? hc)) (by decide)
      obtain ⟨hstart, hhead⟩ := page.atLineStart_write hc hspace hbreak
      exact ⟨hstart, fun _ => by
        rw [show (Piece.word kind text).put page = page.write text from rfl, hhead]
        simpa using hspace⟩
  | space => exact absurd rfl (hadjacent '#' hhash)
  | remark endOfLine text => exact ⟨Page.atLineStart_newline _ _, fun hfresh => by cases hfresh⟩

theorem written_putAll {fresh : Bool} (hspelled : ∀ p ∈ ps, p.Spelled)
    (hlinked : ps.IsChain Adjacent) (hready : ∀ p ∈ ps.head?, page.Ready fresh p) :
    (putAll ps page).written =
        (Piece.text page.options page.indentLevel fresh ps).reverse ++ page.written ∧
      (putAll ps page).options = page.options := by
  induction ps generalizing page fresh with
  | nil => exact ⟨rfl, rfl⟩
  | cons p ps ih =>
      obtain ⟨hwritten, hoptions, hlevel⟩ := written_put (hready p rfl)
      have hnext : ∀ q ∈ ps.head?, (p.put page).Ready p.isRemark q := fun q hq =>
        ready_put (hspelled p List.mem_cons_self) ((List.isChain_cons.1 hlinked).1 q hq)
      have hrest := ih (List.forall_mem_cons.1 hspelled).2 hlinked.tail hnext
      rw [hoptions, hlevel, hwritten] at hrest
      have hput : putAll (p :: ps) page = putAll ps (p.put page) := rfl
      rw [hput, hrest.1, hrest.2, Piece.text]
      simp

/-- What a line adds to a page. -/
def Row.text (options : PageOptions) : Row → List Char
  | .code level ps =>
      '\n' :: (Page.spaces (level * options.indentSize) ++ Piece.text options level true ps)
  | .comment level text => '\n' :: (Page.spaces (level * options.indentSize) ++ text.toList)
  | .tail text => Page.spaces options.eolPadding ++ text.toList

/-- What lines add to a page. -/
def rowsText (options : PageOptions) (rows : List Row) : List Char :=
  rows.flatMap (Row.text options)

theorem written_putRow (page : Page) {row : Row} (h : row.IsNeat) :
    (row.put page).written = (row.text page.options).reverse ++ page.written ∧
      (row.put page).options = page.options := by
  cases row with
  | code level ps =>
      obtain ⟨hwritten, hoptions⟩ := written_putAll h.1.spelled h.1.linked
        fun p _ _ => ⟨Page.atLineStart_newline { page with indentLevel := level } level, nofun⟩
      refine ⟨hwritten.trans ?_, hoptions⟩
      simp [Row.text, Page.newline]
  | comment level text => simp [Row.put, Row.text, Page.write, Page.newline]
  | tail text => simp [Row.put, Row.text, Page.write, Page.writePadded]

theorem written_putRows (h : ∀ row ∈ rows, row.IsNeat) (page : Page) :
    (putRows rows page).written = (rowsText page.options rows).reverse ++ page.written := by
  induction rows generalizing page with
  | nil => rfl
  | cons row rows ih =>
      obtain ⟨hwritten, hoptions⟩ := written_putRow page (h row List.mem_cons_self)
      rw [putRows_cons, ih (List.forall_mem_cons.1 h).2, hoptions, hwritten]
      simp [rowsText]

/-! ### Inside a line -/

/-- The scanner gets from one state to another and finds words on its way. -/
def Scans (s : ScanState) (ws : List Word) (s' : ScanState) : Prop :=
  ∃ tokens : List Token, tokens.map Token.word = ws ∧
    ∀ done, scan s done = scan s' (tokens.reverse ++ done)

namespace Scans

variable {s s' s'' : ScanState} {ws ws' : List Word}

theorem refl (s : ScanState) : Scans s [] s := ⟨[], rfl, fun _ => rfl⟩

theorem trans (first : Scans s ws s') (second : Scans s' ws' s'') : Scans s (ws ++ ws') s'' := by
  obtain ⟨tokens, rfl, hscan⟩ := first
  obtain ⟨tokens', rfl, hscan'⟩ := second
  exact ⟨tokens ++ tokens', by simp, fun done => by rw [hscan, hscan']; simp⟩

theorem of_step {tokens : List Token} (h : s.step = .ok (some (tokens, s'))) :
    Scans s (tokens.map Token.word) s' :=
  ⟨tokens, rfl, fun _ => scan_of_step_some h⟩

end Scans

/-- The scanner stands inside a line, before `rest`. -/
structure Inside (s : ScanState) (rest : List Char) (depth : Nat) (indents : List Nat) : Prop where
  rest : s.rest = rest
  lineStart : s.lineStart = false
  depth : s.depth = depth
  indents : s.indents = indents

/-- The scanner gets past the front of a line and finds words on its way. -/
def Passes (front : List Char) (ws : List Word) (rest : List Char) (depth depth' : Nat) : Prop :=
  ∀ s indents, Inside s (front ++ rest) depth indents →
    ∃ s', Scans s ws s' ∧ Inside s' rest depth' indents

namespace Passes

variable {front front' rest : List Char} {ws ws' : List Word} {depth depth' depth'' : Nat}

theorem nil : Passes [] [] rest depth depth :=
  fun s _ hs => ⟨s, .refl s, hs⟩

theorem append (first : Passes front ws (front' ++ rest) depth depth')
    (second : Passes front' ws' rest depth' depth'') :
    Passes (front ++ front') (ws ++ ws') rest depth depth'' := by
  intro s indents hs
  obtain ⟨s', hscans, hs'⟩ := first s indents (by rw [← List.append_assoc]; exact hs)
  obtain ⟨s'', hscans', hs''⟩ := second s' indents hs'
  exact ⟨s'', hscans.trans hscans', hs''⟩

theorem of_step (tokens : ScanState → List Token)
    (h : ∀ s indents, Inside s (front ++ rest) depth indents →
      ∃ s', s.step = .ok (some (tokens s, s')) ∧ (tokens s).map Token.word = ws ∧
        Inside s' rest depth' indents) : Passes front ws rest depth depth' := by
  intro s indents hs
  obtain ⟨s', hstep, hwords, hs'⟩ := h s indents hs
  exact ⟨s', hwords ▸ Scans.of_step hstep, hs'⟩

end Passes

theorem passes_space {rest : List Char} {depth : Nat} : Passes [' '] [] rest depth depth := by
  refine .of_step (fun _ => []) fun s indents hs => ⟨s.skip [' '] rest, ?_, rfl, ?_⟩
  · rw [ScanState.step_lexeme hs.rest hs.lineStart]
    simp [ScanState.lexeme, Token.isIndentation, Except.map]
  · exact ⟨rfl, hs.lineStart, hs.depth, hs.indents⟩

theorem passes_spaces {rest : List Char} {depth : Nat} (count : Nat) :
    Passes (Page.spaces count) [] rest depth depth := by
  induction count with
  | zero => exact Passes.nil
  | succ count ih => exact passes_space.append ih

/-- A line break between brackets does not count. -/
theorem passes_break {rest : List Char} {depth : Nat} (h : 0 < depth) :
    Passes ['\n'] [] rest depth depth := by
  refine .of_step (fun _ => []) fun s indents hs => ⟨s.skip ['\n'] rest, ?_, rfl, ?_⟩
  · have hsplit : Token.splitBreak ('\n' :: rest) = (['\n'], rest) := rfl
    have hdepth : s.depth ≠ 0 := by
      rw [hs.depth]
      omega
    rw [ScanState.step_lexeme hs.rest hs.lineStart]
    simp [ScanState.lexeme, Token.isIndentation, Token.isBreak, Except.map, hdepth,
      hsplit]
  · exact ⟨rfl, hs.lineStart, hs.depth, hs.indents⟩

/-- A word of its kind that ends before the next character. -/
theorem passes_word {kind : TokenKind} {text : String} {next : Char} {rest : List Char} {depth : Nat}
    (h : Ends kind text next) :
    Passes text.toList [(kind, text)] (next :: rest) depth (Word.depth (kind, text) depth) := by
  refine .of_step (fun s => [s.tokenHere kind text.toList]) fun s indents hs =>
    ⟨_, h s rest hs.rest hs.lineStart, ?_, rfl, hs.lineStart, ?_, hs.indents⟩
  · simp [Token.word, ScanState.tokenHere]
  · simp [hs.depth]

theorem splitComment_append {line rest : List Char} (h : ∀ c ∈ line, Token.isBreak c = false) :
    Token.splitComment (line ++ '\n' :: rest) = (line, '\n' :: rest) := by
  have hall : line.all (fun c => !Token.isBreak c) = true := by simpa using h
  rw [Token.splitComment, Token.splitWhile_append_cons (by decide), Token.splitWhile_of_all hall]
  rfl

/-- The word that a comment is scanned as: without the blanks at its end. -/
def commentWord (line : List Char) : Word :=
  (.comment, String.ofList (Text.trimEnd line))

/-- A comment, up to the line break. -/
theorem passes_comment {line rest : List Char} {depth : Nat} (hhead : line.head? = some '#')
    (h : ∀ c ∈ line, Token.isBreak c = false) :
    Passes line [commentWord line] ('\n' :: rest) depth depth := by
  refine .of_step (fun s => [s.tokenHere .comment (Text.trimEnd line)])
    fun s indents hs => ⟨s.skip line ('\n' :: rest), ?_, ?_, ?_⟩
  · obtain ⟨cs, rfl⟩ := List.head?_eq_some_iff.1 hhead
    have hsplit : Token.splitComment s.rest = ('#' :: cs, '\n' :: rest) := by
      rw [hs.rest]
      exact splitComment_append h
    rw [ScanState.step_lexeme hs.rest hs.lineStart]
    simp [ScanState.lexeme, Token.isIndentation, Token.isBreak, Except.map,
      ScanState.comment, hsplit]
  · simp [Token.word, ScanState.tokenHere, commentWord]
  · exact ⟨rfl, hs.lineStart, hs.depth, hs.indents⟩

namespace Piece

/-- The words that a piece is scanned as, comments among them. -/
def found : Piece → List Word
  | .word kind text => [(kind, text)]
  | .space => []
  | .remark _ text => [commentWord text.toList]

/-- After another piece, a piece begins with one of the characters it may begin with. -/
theorem head_text (level : Nat) {p : Piece} (ps : List Piece) (h : p.Spelled) :
    ∃ c cs, text options level false (p :: ps) = c :: cs ∧ c ∈ p.firsts := by
  cases p with
  | word kind s =>
      obtain ⟨-, -, -, c, hc, -⟩ := h
      cases hs : s.toList with
      | nil => simp [hs] at hc
      | cons d ds =>
          exact ⟨d, ds ++ text options level false ps, by simp [text, chars, isRemark, hs],
            by simp [firsts, hs]⟩
  | space => exact ⟨' ', text options level false ps, rfl, by simp [firsts]⟩
  | remark endOfLine s =>
      obtain ⟨hhead, -⟩ := h
      obtain ⟨cs, hcs⟩ : ∃ cs, s.toList = '#' :: cs := by
        cases hs : s.toList with
        | nil => simp [hs] at hhead
        | cons d ds => exact ⟨ds, by simpa [hs] using hhead⟩
      cases endOfLine with
      | false => exact ⟨'\n', _, rfl, by simp [firsts]⟩
      | true =>
          cases hpadding : options.eolPadding with
          | zero => exact ⟨'#', _, by simp [text, chars, hpadding, Page.spaces, hcs]; rfl,
              by simp [firsts]⟩
          | succ count => exact ⟨' ', _, by
              simp [text, chars, hpadding, Page.spaces, List.replicate_succ]; rfl, by simp [firsts]⟩

end Piece

/-- Trivia between brackets. -/
theorem passes_remark {options : PageOptions} {fresh endOfLine : Bool} {text : String}
    {rest : List Char} {depth : Nat} (h : (Piece.remark endOfLine text).Spelled)
    (hdepth : 0 < depth) :
    Passes ((Piece.remark endOfLine text).chars options level fresh) [commentWord text.toList] rest
      depth depth := by
  have hbefore : ∀ rest, Passes (if fresh then [] else if endOfLine then
      Page.spaces options.eolPadding else '\n' :: Page.spaces ((level + 1) * options.indentSize)) []
      rest depth depth := by
    intro rest
    split
    · exact Passes.nil
    · split
      · exact passes_spaces _
      · exact (passes_break hdepth).append (passes_spaces _)
  have hafter : Passes ('\n' :: Page.spaces ((level + 1) * options.indentSize)) [] rest depth
      depth := (passes_break hdepth).append (passes_spaces _)
  exact ((hbefore _).append (passes_comment h.1 h.2)).append hafter

/-- Pieces are scanned as their words. -/
theorem passes_pieces (level : Nat) {next : Char} {rest : List Char}
    (hspelled : ∀ p ∈ ps, p.Spelled) (hlinked : ps.IsChain Adjacent)
    (hlast : ∀ p ∈ ps.getLast?, p.EndsBefore next) {depth : Nat} (hsheltered : Sheltered depth ps)
    (fresh : Bool) :
    Passes (Piece.text options level fresh ps) (ps.flatMap found) (next :: rest) depth
      (depthAfter ps depth) := by
  induction ps generalizing depth fresh with
  | nil => exact Passes.nil
  | cons p ps ih =>
      have hrest := ih (List.forall_mem_cons.1 hspelled).2 hlinked.tail
        (fun q hq => hlast q (by cases ps with
          | nil => cases hq
          | cons _ _ => simpa using hq)) hsheltered.2 p.isRemark
      refine Passes.append ?_ hrest
      cases p with
      | space => exact passes_space
      | remark endOfLine s =>
          exact passes_remark (hspelled _ List.mem_cons_self) (hsheltered.1 rfl)
      | word kind s =>
          obtain ⟨c, cs, hcs, hends⟩ : ∃ c cs, Piece.text options level false ps ++ next :: rest =
              c :: cs ∧ Ends kind s c := by
            cases ps with
            | nil => exact ⟨next, rest, rfl, hlast _ rfl⟩
            | cons q qs =>
                obtain ⟨c, cs, hcs, hc⟩ := head_text options level qs (hspelled q (by simp))
                refine ⟨c, cs ++ next :: rest, by rw [hcs, List.cons_append], ?_⟩
                exact (List.isChain_cons.1 hlinked).1 q rfl c hc
          show Passes s.toList [(kind, s)] (Piece.text options level false ps ++ next :: rest) depth _
          rw [hcs]
          exact passes_word hends

/-! ### Indentation -/

/-- The scanner stands at the start of a line, before `rest`. -/
structure AtLine (s : ScanState) (rest : List Char) (indents : List Nat) : Prop where
  rest : s.rest = rest
  lineStart : s.lineStart = true
  lineOpen : s.lineOpen = false
  depth : s.depth = 0
  indents : s.indents = indents

/-- The widths of open blocks, when each is one level deeper than the one around it. -/
def blockWidths (size : Nat) : Nat → List Nat
  | 0 => []
  | level + 1 => (level + 1) * size :: blockWidths size level

theorem headD_blockWidths (size level : Nat) : (blockWidths size level).headD 0 = level * size := by
  cases level <;> simp [blockWidths]

theorem length_blockWidths (size level : Nat) : (blockWidths size level).length = level := by
  induction level with
  | zero => rfl
  | succ level ih => rw [blockWidths, List.length_cons, ih]

/-- Closing the blocks deeper than a level leaves the blocks up to it. -/
theorem blockWidths_split {size : Nat} (hsize : 1 ≤ size) (level closed : Nat) :
    (blockWidths size (level + closed)).dropWhile (decide <| level * size < ·) =
        blockWidths size level ∧
      ((blockWidths size (level + closed)).takeWhile (decide <| level * size < ·)).length =
        closed := by
  induction closed with
  | zero =>
      cases level with
      | zero => exact ⟨rfl, rfl⟩
      | succ level => simp [blockWidths]
  | succ closed ih =>
      have hdeeper : level * size < (level + closed + 1) * size :=
        Nat.mul_lt_mul_of_pos_right (by omega) hsize
      rw [← Nat.add_assoc, blockWidths, List.dropWhile_cons, List.takeWhile_cons,
        if_pos (decide_eq_true hdeeper), if_pos (decide_eq_true hdeeper), List.length_cons, ih.2]
      exact ⟨ih.1, rfl⟩

theorem indentWidth_spaces (width : Nat) : ScanState.indentWidth (Page.spaces width) = width := by
  have hfold : ∀ width start, (List.replicate width ' ').foldl
      (fun width c => if c = ' ' then width + 1 else if c = '\t' then (width / 8 + 1) * 8 else 0)
      start = start + width := by
    intro width
    induction width with
    | zero => simp
    | succ width ih =>
        intro start
        rw [List.replicate_succ, List.foldl_cons, if_pos rfl, ih]
        omega
  simpa [ScanState.indentWidth, Page.spaces] using hfold width 0

theorem splitWhile_spaces {width : Nat} {c : Char} {cs : List Char}
    (hc : Token.isIndentation c = false) :
    Token.splitWhile Token.isIndentation (Page.spaces width ++ c :: cs) =
      (Page.spaces width, c :: cs) := by
  have hall : (Page.spaces width).all Token.isIndentation = true := by
    simp [Page.spaces, Token.isIndentation]
  rw [Token.splitWhile_append_cons hc, Token.splitWhile_of_all hall]
  rfl

/-- The blocks that a line opens or closes: at most one is opened. -/
def blockWords (level : Nat) (next : Nat) : List Word :=
  if next = level + 1 then [(.indent, "")] else List.replicate (level - next) (.dedent, "")

theorem scans_indentation {s : ScanState} {size next : Nat} {c : Char} {cs : List Char}
    (hsize : 1 ≤ size) (hlevel : next ≤ level + 1) (hc : Starts c)
    (hs : AtLine s (Page.spaces (next * size) ++ c :: cs) (blockWidths size level)) :
    ∃ s', Scans s (blockWords level next) s' ∧
      Inside s' (c :: cs) 0 (blockWidths size next) := by
  obtain ⟨hindentation, hbreak, hhash⟩ := hc
  have hsplit : Token.splitWhile Token.isIndentation s.rest =
      (Page.spaces (next * size), c :: cs) := by
    rw [hs.rest]
    exact splitWhile_spaces hindentation
  have hblank := (ScanState.blankLine?_eq_none_iff hsplit).2 ⟨c, cs, rfl, hbreak, hhash⟩
  have hscans : ∀ {tokens s'}, s.indentation = .ok (tokens, s') →
      Scans s (tokens.map Token.word) s' := by
    intro tokens s' hindentation
    refine Scans.of_step ?_
    rw [ScanState.step_indentation hs.lineStart hblank, hindentation]
    rfl
  have hwidth : ScanState.indentWidth (Page.spaces (next * size)) = next * size :=
    indentWidth_spaces _
  let after : ScanState :=
    { s.skip (Page.spaces (next * size)) (c :: cs) with lineStart := false }
  by_cases hopens : next = level + 1
  · have hdeeper : level * size < next * size := by
      rw [hopens]
      exact Nat.mul_lt_mul_of_pos_right (Nat.lt_succ_self _) hsize
    have hindent : s.indentation = .ok ([after.tokenHere .indent []],
        { after with indents := next * size :: blockWidths size level }) := by
      unfold ScanState.indentation
      simp only [hsplit, hwidth, ScanState.skip, hs.indents, headD_blockWidths, hdeeper, if_true]
      rfl
    refine ⟨{ after with indents := next * size :: blockWidths size level }, ?_, rfl, rfl,
      hs.depth, ?_⟩
    · rw [blockWords, if_pos hopens]
      exact hscans hindent
    · rw [hopens]
      rfl
  · obtain ⟨closed, rfl⟩ : ∃ closed, level = next + closed := ⟨level - next, by omega⟩
    have hnot : ¬ (next + closed) * size < next * size :=
      not_lt.2 (Nat.mul_le_mul_right _ (Nat.le_add_right _ _))
    obtain ⟨hkept, hclosed⟩ := blockWidths_split hsize next closed
    have hindent : s.indentation = .ok (
        ((blockWidths size (next + closed)).takeWhile (decide <| next * size < ·)).map
          fun _ => after.tokenHere .dedent [], { after with indents := blockWidths size next }) := by
      unfold ScanState.indentation
      simp only [hsplit, hwidth, ScanState.skip, hs.indents, hnot, if_false, hkept,
        headD_blockWidths, if_true]
      rfl
    refine ⟨{ after with indents := blockWidths size next }, ?_, rfl, rfl, hs.depth, rfl⟩
    have hfound := hscans hindent
    have hdedent : (after.tokenHere .dedent []).word = (.dedent, "") := rfl
    rw [List.map_map, Function.comp_def, List.map_const', hclosed, hdedent] at hfound
    have hwords : blockWords (next + closed) next = List.replicate closed (.dedent, "") := by
      simp [blockWords, hopens]
    rw [hwords]
    exact hfound

/-! ### Between lines -/

/-- What trails a line: blanks, and perhaps comments. -/
structure Trail (trail : List Char) : Prop where
  unbroken : ∀ c ∈ trail, Token.isBreak c = false
  hash : ∀ c ∈ (trail.dropWhile (· = ' ')).head?, c = '#'

/-- The comment in what trails a line: it goes on to the end of the line. -/
def trailWords (trail : List Char) : List Word :=
  match trail.dropWhile (· = ' ') with
  | [] => []
  | line => [commentWord line]

/-- Blanks, and then nothing or a comment. -/
theorem Trail.cases (h : Trail trail) :
    ∃ count, trail = Page.spaces count ∧ trailWords trail = [] ∨
      ∃ line, trail = Page.spaces count ++ line ∧ line.head? = some '#' ∧
        (∀ c ∈ line, Token.isBreak c = false) ∧ trailWords trail = [commentWord line] := by
  have hsplit := List.takeWhile_append_dropWhile (p := (· = ' ')) (l := trail)
  have hspaces : trail.takeWhile (· = ' ') = Page.spaces (trail.takeWhile (· = ' ')).length :=
    List.eq_replicate_iff.2 ⟨rfl, fun c hc => by simpa using List.mem_takeWhile_imp hc⟩
  refine ⟨(trail.takeWhile (· = ' ')).length, ?_⟩
  rw [hspaces] at hsplit
  cases hline : trail.dropWhile (· = ' ') with
  | nil =>
      rw [hline, List.append_nil] at hsplit
      exact .inl ⟨hsplit.symm, by simp [trailWords, hline]⟩
  | cons c cs =>
      rw [hline] at hsplit
      obtain rfl : c = '#' := h.hash c (by simp [hline])
      refine .inr ⟨'#' :: cs, hsplit.symm, rfl, fun c hc => h.unbroken c ?_,
        by simp [trailWords, hline]⟩
      rw [← hsplit]
      exact List.mem_append_right _ hc

theorem passes_trail {rest : List Char} (h : Trail trail) :
    Passes trail (trailWords trail) ('\n' :: rest) 0 0 := by
  obtain ⟨count, ⟨rfl, hwords⟩ | ⟨line, rfl, hhead, hunbroken, hwords⟩⟩ := h.cases
  · rw [hwords]
    exact passes_spaces count
  · rw [hwords]
    exact (passes_spaces count).append (passes_comment hhead hunbroken)

/-- The end of a line of code. -/
theorem scans_newline {s : ScanState} {rest : List Char} (hs : Inside s ('\n' :: rest) 0 indents) :
    ∃ s', Scans s [(.newline, "\n")] s' ∧ AtLine s' rest indents := by
  have hsplit : Token.splitBreak ('\n' :: rest) = (['\n'], rest) := rfl
  have hstep : s.step = .ok (some ([s.tokenHere .newline ['\n']],
      { s.skip ['\n'] rest with lineStart := true, lineOpen := false })) := by
    rw [ScanState.step_lexeme hs.rest hs.lineStart]
    simp [ScanState.lexeme, Token.isIndentation, Token.isBreak, Except.map, hs.depth,
      hsplit]
  exact ⟨_, Scans.of_step hstep, rfl, rfl, rfl, hs.depth, hs.indents⟩

/-- A line without code. -/
theorem scans_blank {s : ScanState} {rest : List Char} (h : Trail trail)
    (hs : AtLine s (trail ++ '\n' :: rest) indents) :
    ∃ s', Scans s (trailWords trail) s' ∧ AtLine s' rest indents := by
  have hstep : ∀ {tokens s'}, s.blankLine? = some (tokens, s') →
      Scans s (tokens.map Token.word) s' := fun hblank =>
    .of_step (ScanState.step_blankLine (by simp [hs.rest]) hs.lineStart hblank)
  obtain ⟨count, ⟨rfl, hwords⟩ | ⟨line, rfl, hhead, hunbroken, hwords⟩⟩ := h.cases
  · have hsplit : Token.splitWhile Token.isIndentation s.rest = (Page.spaces count, '\n' :: rest) := by
      rw [hs.rest]
      exact splitWhile_spaces rfl
    have hblank : s.blankLine? = some ([], (s.skip (Page.spaces count) ('\n' :: rest)).skip ['\n'] rest) := by
      rw [ScanState.blankLine?_break hsplit (by simp [Token.isBreak])]
      simp [ScanState.skipBreak, ScanState.skip, Token.splitBreak]
    rw [hwords]
    exact ⟨_, hstep hblank, rfl, hs.lineStart, hs.lineOpen, hs.depth, hs.indents⟩
  · obtain ⟨cs, rfl⟩ := List.head?_eq_some_iff.1 hhead
    have hsplit : Token.splitWhile Token.isIndentation s.rest =
        (Page.spaces count, '#' :: (cs ++ '\n' :: rest)) := by
      rw [hs.rest, List.append_assoc]
      exact splitWhile_spaces rfl
    have hcomment : Token.splitComment ('#' :: (cs ++ '\n' :: rest)) = ('#' :: cs, '\n' :: rest) :=
      splitComment_append hunbroken
    have hblank : s.blankLine? = some (
        [(s.skip (Page.spaces count) ('#' :: (cs ++ '\n' :: rest))).tokenHere .comment
          (Text.trimEnd ('#' :: cs))],
        ((s.skip (Page.spaces count) ('#' :: (cs ++ '\n' :: rest))).skip ('#' :: cs)
          ('\n' :: rest)).skip ['\n'] rest) := by
      rw [ScanState.blankLine?_comment hsplit]
      simp [ScanState.skipBreak, ScanState.skip, Token.splitBreak, ScanState.comment, hcomment]
    rw [hwords]
    exact ⟨_, hstep hblank, rfl, hs.lineStart, hs.lineOpen, hs.depth, hs.indents⟩

/-! ### Lines -/

/-- The scanner stands before `rest`: inside a line of code, when one is pending, or at the start of
a line. -/
def Stands (s : ScanState) (pending : Bool) (rest : List Char) (indents : List Nat) : Prop :=
  if pending then Inside s rest 0 indents else AtLine s rest indents

/-- The end of a line of code that is pending. -/
def lineEnd (pending : Bool) : List Word :=
  if pending then [(.newline, "\n")] else []

/-- What trails a line, and the end of the line. -/
theorem scans_lineEnd {s : ScanState} {pending : Bool} {rest : List Char} (h : Trail trail)
    (hs : Stands s pending (trail ++ '\n' :: rest) indents) :
    ∃ s', Scans s (trailWords trail ++ lineEnd pending) s' ∧ AtLine s' rest indents := by
  cases pending with
  | false =>
      rw [lineEnd, if_neg (by simp), List.append_nil]
      exact scans_blank h hs
  | true =>
      obtain ⟨s', hscans, hs'⟩ := passes_trail h s indents hs
      obtain ⟨s'', hscans', hs''⟩ := scans_newline hs'
      exact ⟨s'', hscans.trans hscans', hs''⟩

/-- The words of lines from a level on. Before each line of code stand the end of the line before
it and the blocks that it opens or closes; after the last line the blocks still open are closed. -/
def layout (options : PageOptions) : Nat → Bool → List Char → List Row → List Word
  | level, pending, trail, [] =>
      trailWords trail ++ lineEnd pending ++ List.replicate level (.dedent, "") ++ [(.endMarker, "")]
  | level, pending, trail, .tail text :: rows =>
      layout options level pending (trail ++ (Page.spaces options.eolPadding ++ text.toList)) rows
  | level, pending, trail, .comment next text :: rows =>
      trailWords trail ++ lineEnd pending ++
        layout options level false (Page.spaces (next * options.indentSize) ++ text.toList) rows
  | level, pending, trail, .code next ps :: rows =>
      trailWords trail ++ lineEnd pending ++
        (blockWords level next ++ ps.flatMap found ++ layout options next true [] rows)

/-- Each line of code is at most one level deeper than the one before it. -/
def Nested : Nat → List Row → Prop
  | _, [] => True
  | level, .tail _ :: rows => Nested level rows
  | level, .comment _ _ :: rows => Nested level rows
  | level, .code next _ :: rows => next ≤ level + 1 ∧ Nested next rows

/-- The scanner finds words up to the end of the text. -/
def Scanned (s : ScanState) (ws : List Word) : Prop :=
  ∃ tokens : List Token, tokens.map Token.word = ws ∧
    ∀ done, scan s done = .ok (done.reverse ++ tokens)

theorem Scans.scanned {s s' : ScanState} {ws ws' : List Word} (first : Scans s ws s')
    (second : Scanned s' ws') : Scanned s (ws ++ ws') := by
  obtain ⟨tokens, rfl, hscan⟩ := first
  obtain ⟨tokens', rfl, hscan'⟩ := second
  exact ⟨tokens ++ tokens', by simp, fun done => by rw [hscan, hscan']; simp⟩

theorem scanned_end {s : ScanState} {size : Nat} (hs : AtLine s [] (blockWidths size level)) :
    Scanned s (List.replicate level (.dedent, "") ++ [(.endMarker, "")]) := by
  refine ⟨s.closing, ?_, fun done => scan_of_step_none (ScanState.step_end hs.rest)⟩
  simp [ScanState.closing, hs.lineOpen, hs.indents, length_blockWidths, Token.word,
    ScanState.tokenHere]

/-- Lines are scanned as their layout from wherever the scanner stands before them. -/
def ScansRows (options : PageOptions) (rows : List Row) : Prop :=
  ∀ (s : ScanState) (level : Nat) (pending : Bool) (trail : List Char), Trail trail →
    Nested level rows →
    Stands s pending (trail ++ (rowsText options rows ++ ['\n']))
      (blockWidths options.indentSize level) →
    Scanned s (layout options level pending trail rows)

/-- What follows a line begins with a character that may follow an expression. -/
theorem head_rowsText (h : ∀ row ∈ rows, row.IsNeat) :
    ∃ c cs, rowsText options rows ++ ['\n'] = c :: cs ∧ Closes c := by
  cases rows with
  | nil => exact ⟨'\n', [], rfl, by decide⟩
  | cons row rows =>
      have hrow := h row List.mem_cons_self
      cases row with
      | code level ps => exact ⟨'\n', _, rfl, by decide⟩
      | comment level text => exact ⟨'\n', _, rfl, by decide⟩
      | tail text =>
          obtain ⟨hhead, -⟩ := hrow
          obtain ⟨cs, hcs⟩ : ∃ cs, text.toList = '#' :: cs := by
            cases hs : text.toList with
            | nil => simp [hs] at hhead
            | cons d ds => exact ⟨ds, by simpa [hs] using hhead⟩
          cases hpadding : options.eolPadding with
          | zero =>
              exact ⟨'#', _, by simp [rowsText, Row.text, hpadding, Page.spaces, hcs]; rfl,
                by decide⟩
          | succ count =>
              exact ⟨' ', _, by
                simp [rowsText, Row.text, hpadding, Page.spaces, List.replicate_succ]; rfl,
                by decide⟩

/-- A neat line begins with a character that a line may start with. -/
theorem head_line (level : Nat) (fresh : Bool) (h : NeatLine ps) :
    ∃ c cs, Piece.text options level fresh ps = c :: cs ∧ Starts c ∧ Text.isBlank c = false := by
  obtain ⟨p, ps, rfl⟩ := List.exists_cons_of_ne_nil h.2
  have hstarts := h.1.starts p rfl
  cases p with
  | word kind s =>
      obtain ⟨-, -, ⟨c, hc, hblank⟩, -⟩ := h.1.spelled _ List.mem_cons_self
      obtain ⟨cs, hcs⟩ := List.head?_eq_some_iff.1 hc
      exact ⟨c, cs ++ Piece.text options level false ps, by simp [text, chars, isRemark, hcs],
        hstarts c (by simp [firsts, hcs]), hblank⟩
  | space => exact absurd (hstarts ' ' (by simp [firsts])).1 (by decide)
  | remark endOfLine s => exact absurd rfl (hstarts '#' (by simp [firsts])).2.2

/-- A line of code at the start of a line, and what follows it. -/
theorem scanned_code {options : PageOptions} {s : ScanState} {next : Nat}
    (hsize : 1 ≤ options.indentSize) (hnext : next ≤ level + 1) (hps : NeatLine ps)
    (hrows : ∀ row ∈ rows, row.IsNeat) (ih : ScansRows options rows) (hnested : Nested next rows)
    (hs : AtLine s (Page.spaces (next * options.indentSize) ++ Piece.text options next true ps ++
      (rowsText options rows ++ ['\n'])) (blockWidths options.indentSize level)) :
    Scanned s (blockWords level next ++ ps.flatMap found ++ layout options next true [] rows) := by
  obtain ⟨c, cs, htext, hc, -⟩ := head_line options next true hps
  obtain ⟨d, ds, hrest, hd⟩ := head_rowsText options hrows
  have hs' : AtLine s (Page.spaces (next * options.indentSize) ++
      c :: (cs ++ (rowsText options rows ++ ['\n']))) (blockWidths options.indentSize level) := by
    rw [htext, List.append_assoc, List.cons_append] at hs
    exact hs
  obtain ⟨s₁, hblocks, hs₁⟩ := scans_indentation hsize hnext hc hs'
  rw [← List.cons_append, ← htext, hrest] at hs₁
  obtain ⟨s₂, hwords, hs₂⟩ := passes_pieces options next hps.1.spelled hps.1.linked
    (fun p hp => hps.1.ends p hp d hd) (hps.1.sheltered 0 le_rfl) true s₁ _ hs₁
  rw [hps.1.balanced, ← hrest] at hs₂
  have hlater := ih s₂ next true [] ⟨by simp, by simp⟩ hnested hs₂
  rw [List.append_assoc]
  exact hblocks.scanned (hwords.scanned hlater)

theorem trail_comment {text : String} (h : (Piece.remark false text).Spelled) (count : Nat) :
    Trail (Page.spaces count ++ text.toList) := by
  obtain ⟨hhead, hunbroken⟩ := h
  refine ⟨fun c hc => ?_, fun c hc => ?_⟩
  · rcases List.mem_append.1 hc with hc | hc
    · rw [List.eq_of_mem_replicate hc]
      rfl
    · exact hunbroken c hc
  · have hdrop : (Page.spaces count ++ text.toList).dropWhile (· = ' ') =
        text.toList.dropWhile (· = ' ') :=
      List.dropWhile_append_of_pos fun c hc => by simp [List.eq_of_mem_replicate hc]
    cases hs : text.toList with
    | nil => simp [hs] at hhead
    | cons d ds =>
        obtain rfl : d = '#' := by simpa [hs] using hhead
        rw [hdrop, hs] at hc
        simpa using hc.symm

theorem Trail.append {text : String} {count : Nat} (h : Trail trail)
    (htext : (Piece.remark false text).Spelled) :
    Trail (trail ++ (Page.spaces count ++ text.toList)) := by
  have hback := trail_comment htext count
  refine ⟨fun c hc => (List.mem_append.1 hc).elim (h.unbroken c) (hback.unbroken c), ?_⟩
  obtain ⟨width, ⟨rfl, -⟩ | ⟨line, rfl, hhead, -, -⟩⟩ := h.cases
  · rw [List.dropWhile_append_of_pos fun c hc => by simp [List.eq_of_mem_replicate hc]]
    exact hback.hash
  · intro c hc
    obtain ⟨cs, rfl⟩ : ∃ cs, line = '#' :: cs := by
      cases line with
      | nil => cases hhead
      | cons c cs => exact ⟨cs, by simpa using hhead⟩
    rw [List.append_assoc, List.dropWhile_append_of_pos fun c hc => by
      simp [List.eq_of_mem_replicate hc]] at hc
    simpa using hc.symm

/-- Lines are scanned as their layout. -/
theorem scan_rows {options : PageOptions} (hsize : 1 ≤ options.indentSize)
    (hrows : ∀ row ∈ rows, row.IsNeat) : ScansRows options rows := by
  induction rows with
  | nil =>
      intro s level pending trail htrail _ hs
      obtain ⟨s', hscans, hs'⟩ := scans_lineEnd htrail hs
      rw [layout, List.append_assoc]
      exact hscans.scanned (scanned_end hs')
  | cons row rows ih =>
      have hrow := hrows row List.mem_cons_self
      have hlater : ∀ row ∈ rows, row.IsNeat := (List.forall_mem_cons.1 hrows).2
      have ih := ih hlater
      intro s level pending trail htrail hnested hs
      cases row with
      | tail text =>
          refine ih s level pending _ (htrail.append hrow) hnested ?_
          simpa [rowsText, Row.text] using hs
      | comment next text =>
          have hs : Stands s pending (trail ++ '\n' :: (Page.spaces (next * options.indentSize) ++
              text.toList ++ (rowsText options rows ++ ['\n'])))
              (blockWidths options.indentSize level) := by
            simpa [rowsText, Row.text] using hs
          obtain ⟨s', hscans, hs'⟩ := scans_lineEnd htrail hs
          exact hscans.scanned (ih s' level false _ (trail_comment hrow _) hnested hs')
      | code next ps =>
          have hs : Stands s pending (trail ++ '\n' :: (Page.spaces (next * options.indentSize) ++
              Piece.text options next true ps ++ (rowsText options rows ++ ['\n'])))
              (blockWidths options.indentSize level) := by
            simpa [rowsText, Row.text] using hs
          obtain ⟨s', hscans, hs'⟩ := scans_lineEnd htrail hs
          exact hscans.scanned
            (scanned_code hsize hnested.1 hrow hlater ih hnested.2 hs')

end TriviaTree
