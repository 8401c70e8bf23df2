import TriviaTree.Source.SyntaxError
import TriviaTree.Token.Split

/-!
From a source text to its tokens.

`ScanState.step` takes one bite: a blank line, the indentation of a line, a blank between
lexemes, or one lexeme. `scan` repeats it to the end of the text; it ends because every bite
leaves a smaller state (`ScanState.step_weight`). `tokenize` is the whole scanner,
`triviaTokens` the comments among the tokens.

Lines that hold nothing but blanks and a comment do not count: they have no `newline` token and
no indentation. Line breaks inside brackets, or after a backslash, do not count either.
-/

set_option autoImplicit false

namespace TriviaTree

/-- How far the scanner has come. -/
structure ScanState where
  /-- The text still to be read. -/
  rest : List Char
  /-- The byte offset at which `rest` begins. -/
  offset : Nat
  /-- The number of open brackets. -/
  depth : Nat
  /-- The widths of the open indented blocks, innermost first. -/
  indents : List Nat
  /-- A new logical line begins at `offset`. -/
  lineStart : Bool
  /-- The logical line at `offset` has a token. -/
  lineOpen : Bool
deriving DecidableEq, Repr

/-- A cause and the byte offset at which it shows. -/
structure ScanFault where
  fault : SyntaxFault
  offset : Nat
deriving DecidableEq, Repr

namespace ScanState

def start (source : List Char) : ScanState :=
  { rest := source, offset := 0, depth := 0, indents := [], lineStart := true, lineOpen := false }

/-- Read past `taken`, which leaves `rest`. -/
def skip (s : ScanState) (taken rest : List Char) : ScanState :=
  { s with rest := rest, offset := s.offset + Text.byteSize taken }

/-- The token of text `text` at the scanner's place. -/
def tokenHere (s : ScanState) (kind : TokenKind) (text : List Char) : Token :=
  ⟨kind, String.ofList text, s.offset, s.offset + Text.byteSize text⟩

/-- Read a lexeme that belongs to the logical line. -/
def emit (s : ScanState) (kind : TokenKind) (taken rest : List Char) : List Token × ScanState :=
  ([s.tokenHere kind taken], { s.skip taken rest with lineOpen := true })

/-- Read a comment: the token leaves out the blanks at the end of the line. -/
def comment (s : ScanState) : List Token × ScanState :=
  let (line, rest) := Token.splitComment s.rest
  ([s.tokenHere .comment (Text.trimEnd line)], s.skip line rest)

def skipBreak (s : ScanState) : ScanState :=
  let (taken, rest) := Token.splitBreak s.rest
  s.skip taken rest

/-- Read a line that holds nothing but blanks and perhaps a comment. -/
def blankLine? (s : ScanState) : Option (List Token × ScanState) :=
  let (blanks, content) := Token.splitWhile Token.isIndentation s.rest
  let s := s.skip blanks content
  match content with
  | [] => some ([], s)
  | c :: _ =>
      if Token.isBreak c then some ([], s.skipBreak)
      else if c = '#' then
        let (tokens, s) := s.comment
        some (tokens, s.skipBreak)
      else none

/-- The width of an indentation: a tab goes on to the next multiple of eight, a form feed back
to the margin. -/
def indentWidth (blanks : List Char) : Nat :=
  blanks.foldl
    (fun width c => if c = ' ' then width + 1 else if c = '\t' then (width / 8 + 1) * 8 else 0) 0

/-- Read the indentation of a logical line: deeper than the innermost block it opens one,
otherwise it closes blocks until one fits. -/
def indentation (s : ScanState) : Except ScanFault (List Token × ScanState) :=
  let (blanks, content) := Token.splitWhile Token.isIndentation s.rest
  let s := { s.skip blanks content with lineStart := false }
  let width := indentWidth blanks
  if s.indents.headD 0 < width then
    .ok ([s.tokenHere .indent []], { s with indents := width :: s.indents })
  else
    let closed := s.indents.takeWhile (width < ·)
    let kept := s.indents.dropWhile (width < ·)
    if kept.headD 0 = width then
      .ok (closed.map fun _ => s.tokenHere .dedent [],
        { s with indents := kept })
    else .error ⟨.unindentMismatch, s.offset⟩

/-- Brackets are counted so that line breaks inside them can be told from the others; a closing
bracket too many counts for nothing. -/
def depthAfter (op : String) (depth : Nat) : Nat :=
  if ["(", "[", "\x7b"].contains op then depth + 1
  else if [")", "]", "\x7d"].contains op then depth - 1
  else depth

/-- Read one lexeme, or a blank between lexemes, that starts with `c`. -/
def lexeme (s : ScanState) (c : Char) (cs : List Char) :
    Except ScanFault (List Token × ScanState) :=
  if Token.isIndentation c then .ok ([], s.skip [c] cs)
  else if Token.isBreak c then
    let (taken, rest) := Token.splitBreak (c :: cs)
    if s.depth = 0 then
      .ok ([s.tokenHere .newline taken],
        { s.skip taken rest with lineStart := true, lineOpen := false })
    else .ok ([], s.skip taken rest)
  else if c = '\\' then
    if cs.head?.any Token.isBreak then
      let (taken, rest) := Token.splitBreak cs
      .ok ([], s.skip (c :: taken) rest)
    else .error ⟨.strayContinuation, s.offset⟩
  else if c = '#' then .ok s.comment
  else if c = '"' || c = '\'' then
    match Token.splitString (c :: cs) with
    | none => .error ⟨.unterminatedString, s.offset⟩
    | some (taken, rest) => .ok (s.emit .str taken rest)
  else if c.isDigit || (c = '.' && cs.head?.any Char.isDigit) then
    let (kind, taken, rest) := Token.splitNumber (c :: cs)
    .ok (s.emit kind taken rest)
  else if Text.isNameStart c then
    let (taken, rest) := Token.splitWhile Text.isNamePart (c :: cs)
    .ok (s.emit .name taken rest)
  else
    match Token.splitOperator (c :: cs) with
    | none => .error ⟨.unexpectedCharacter c, s.offset⟩
    | some (op, rest) =>
        .ok (s.emit .op op.toList rest |>.map id fun s => { s with depth := depthAfter op s.depth })

/-- One bite: the tokens in it and the state after it; `none` at the end of the text. -/
def step (s : ScanState) : Except ScanFault (Option (List Token × ScanState)) :=
  match s.rest with
  | [] => .ok none
  | c :: cs =>
      if s.lineStart then
        match s.blankLine? with
        | some bite => .ok (some bite)
        | none => s.indentation.map some
      else (s.lexeme c cs).map some

/-- The tokens that close a text: the end of its last line, the blocks still open, the end
marker. -/
def closing (s : ScanState) : List Token :=
  (if s.lineOpen then [s.tokenHere .newline []] else []) ++
    (s.indents.map fun _ => s.tokenHere .dedent []) ++ [s.tokenHere .endMarker []]

/-- What a bite makes smaller: the text left, and whether its first line is still to be
indented. -/
def weight (s : ScanState) : Nat :=
  2 * s.rest.length + s.lineStart.toNat

theorem weight_skip_le {s : ScanState} {taken rest : List Char} (h : taken ++ rest = s.rest) :
    (s.skip taken rest).weight + 2 * taken.length = s.weight := by
  simp only [weight, skip, ← h, List.length_append]
  omega

theorem skip_weight_lt {s : ScanState} {taken rest : List Char} (h : taken ++ rest = s.rest)
    (hne : taken ≠ []) : (s.skip taken rest).weight < s.weight := by
  have := weight_skip_le h
  have := List.length_pos_iff.2 hne
  omega

theorem comment_weight_lt {s : ScanState} {cs : List Char} (h : s.rest = '#' :: cs) :
    s.comment.2.weight < s.weight := by
  refine skip_weight_lt (Token.splitWhile_append _ s.rest) ?_
  rw [h]
  simp [Token.isBreak]

theorem skipBreak_weight_le (s : ScanState) : s.skipBreak.weight ≤ s.weight := by
  have := weight_skip_le (Token.splitBreak_append s.rest)
  simp only [skipBreak]
  omega

theorem skipBreak_weight_lt {s : ScanState} {c : Char} {cs : List Char} (h : s.rest = c :: cs)
    (hc : Token.isBreak c = true) : s.skipBreak.weight < s.weight :=
  skip_weight_lt (Token.splitBreak_append s.rest) (h ▸ Token.splitBreak_ne_nil hc)

theorem blankLine?_weight_lt {s s' : ScanState} {tokens : List Token} (hne : s.rest ≠ [])
    (h : s.blankLine? = some (tokens, s')) : s'.weight < s.weight := by
  have happend := Token.splitWhile_append Token.isIndentation s.rest
  have hskip := weight_skip_le happend
  unfold blankLine? at h
  generalize hindented : Token.splitWhile Token.isIndentation s.rest = indented at *
  obtain ⟨blanks, content⟩ := indented
  generalize hafter : s.skip blanks content = after at *
  have hrest : after.rest = content := by simp [← hafter, skip]
  simp only [hafter] at h hskip happend
  split at h
  · cases h
    rw [← hafter]
    exact skip_weight_lt happend fun hnil => hne (by simpa [hnil] using happend.symm)
  · split at h
    · next hc =>
        cases h
        have := skipBreak_weight_lt hrest hc
        omega
    · split at h
      · next hc =>
          cases h
          have := comment_weight_lt (hc ▸ hrest)
          have := skipBreak_weight_le after.comment.2
          omega
      · cases h

theorem indentation_weight_lt {s s' : ScanState} {tokens : List Token} (hstart : s.lineStart = true)
    (h : s.indentation = .ok (tokens, s')) : s'.weight < s.weight := by
  have hskip := weight_skip_le (Token.splitWhile_append Token.isIndentation s.rest)
  unfold indentation at h
  simp only at h
  split at h
  · cases h
    simp [weight, skip, hstart] at *
    omega
  · split at h
    · cases h
      simp [weight, skip, hstart] at *
      omega
    · cases h

theorem lexeme_weight_lt {s s' : ScanState} {c : Char} {cs : List Char} {tokens : List Token}
    (hrest : s.rest = c :: cs) (hstart : s.lineStart = false)
    (h : s.lexeme c cs = .ok (tokens, s')) : s'.weight < s.weight := by
  unfold lexeme at h
  split at h
  · cases h
    exact skip_weight_lt (by simp [hrest]) (by simp)
  split at h
  · next hbreak =>
    have happend := Token.splitBreak_append (c :: cs)
    have hne : (Token.splitBreak (c :: cs)).1 ≠ [] := Token.splitBreak_ne_nil hbreak
    generalize Token.splitBreak (c :: cs) = taken at *
    have hlt := skip_weight_lt (happend.trans hrest.symm) hne
    simp only at h
    split at h
    · cases h
      have hpos := List.length_pos_iff.2 hne
      have : s.rest.length = taken.1.length + taken.2.length := by
        rw [hrest, ← happend, List.length_append]
      simp only [weight, skip, hstart, Bool.toNat_true, Bool.toNat_false]
      omega
    · cases h
      exact hlt
  split at h
  · split at h
    · have happend := Token.splitBreak_append cs
      generalize Token.splitBreak cs = taken at *
      cases h
      exact skip_weight_lt (by simp [hrest, happend]) (by simp)
    · cases h
  split at h
  · next hhash =>
    cases h
    exact comment_weight_lt (hhash ▸ hrest)
  split at h
  · split at h
    · cases h
    · next hstring =>
      cases h
      exact skip_weight_lt (by rw [hrest, Token.splitString_append hstring])
        (Token.splitString_ne_nil hstring)
  split at h
  · next hnumber =>
    have happend := Token.splitNumber_append (c :: cs)
    have hne : (Token.splitNumber (c :: cs)).2.1 ≠ [] :=
      Token.splitNumber_ne_nil (by simp at hnumber; exact hnumber.imp id And.left)
    generalize Token.splitNumber (c :: cs) = taken at *
    cases h
    exact skip_weight_lt (happend.trans hrest.symm) hne
  split at h
  · next hname =>
    have happend := Token.splitWhile_append Text.isNamePart (c :: cs)
    have hne : (Token.splitWhile Text.isNamePart (c :: cs)).1 ≠ [] := by
      simp [Token.splitWhile, Text.isNamePart_of_isNameStart hname]
    generalize Token.splitWhile Text.isNamePart (c :: cs) = taken at *
    cases h
    exact skip_weight_lt (happend.trans hrest.symm) hne
  split at h
  · cases h
  · next hop =>
    cases h
    obtain ⟨hmem, happend⟩ := Token.splitOperator_append hop
    exact skip_weight_lt (by rw [hrest, happend]) (Token.operator_ne_nil _ hmem)

/-- Every bite leaves a smaller state. -/
theorem step_weight {s s' : ScanState} {tokens : List Token}
    (h : s.step = .ok (some (tokens, s'))) : s'.weight < s.weight := by
  unfold step at h
  split at h
  · cases h
  · next c cs hrest =>
    split at h
    · next hstart =>
      split at h
      · next hblank =>
        cases h
        exact blankLine?_weight_lt (by simp [hrest]) hblank
      · cases hind : s.indentation with
        | error e => rw [hind] at h; cases h
        | ok bite =>
            rw [hind] at h
            cases h
            exact indentation_weight_lt hstart hind
    · next hstart =>
      cases hlex : s.lexeme c cs with
      | error e => rw [hlex] at h; cases h
      | ok bite =>
          rw [hlex] at h
          cases h
          exact lexeme_weight_lt hrest (by simpa using hstart) hlex

end ScanState

/-- Scan to the end of the text; `done` holds the tokens found so far, last first. -/
def scan (s : ScanState) (done : List Token) : Except ScanFault (List Token) :=
  match _h : s.step with
  | .error fault => .error fault
  | .ok none => .ok (done.reverse ++ s.closing)
  | .ok (some (tokens, next)) => scan next (tokens.reverse ++ done)
termination_by s.weight
decreasing_by exact ScanState.step_weight ‹_›

/-- The tokens of a source text, comments among them. -/
def tokenize (source : String) : Except SyntaxError (List Token) :=
  match scan (.start source.toList) [] with
  | .ok tokens => .ok tokens
  | .error e => .error ⟨e.fault, (LineIndex.ofText source).location e.offset⟩

/-- The comments of a source text, in order. -/
def triviaTokens (source : String) : Except SyntaxError (List TriviaToken) := do
  let index := LineIndex.ofText source
  let comments := (← tokenize source).filter (·.kind = .comment)
  return comments.map fun token =>
    ⟨String.ofList (token.text.toList.drop 1), index.span token.start token.stop⟩

/-- What the grammar reads of a source text: every token but the comments. -/
def lexemes (source : String) : Except SyntaxError (List Lexeme) := do
  let index := LineIndex.ofText source
  return ((← tokenize source).filter (·.kind ≠ .comment)).map (Token.locate index)

end TriviaTree
