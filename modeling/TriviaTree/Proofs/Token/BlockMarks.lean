import Mathlib
import TriviaTree.Proofs.Token.Sequence

/-!
Where lines end and blocks begin and end.

Token by token, a reader keeps the number of open blocks, the number of open brackets and whether the line
has no code yet (`Standing`). It takes no dedent without an open block, no indent or dedent after code on
the same line, and no end of a line between brackets unless the text is over (`Standing.Takes`). The
scanner's own state is such a standing, so the tokens of every text can be taken one after the other
(`run_of_tokenize`), and what a run of such steps can look like is read off the steps (`layout_of_tokenize`).
-/

set_option autoImplicit false

namespace TriviaTree

/-- Tokens that open or close a block. -/
def TokenKind.isMark : TokenKind → Bool
  | .indent | .dedent => true
  | _ => false

theorem TokenKind.isMark_of_isCode {kind : TokenKind} (h : kind.isCode = true) :
    kind.isMark = false ∧ kind ≠ .newline := by
  cases kind <;> simp_all [isCode, isMark]

/-- The number of open brackets after some tokens. -/
def bracketDepth (tokens : List Token) : Nat :=
  tokens.foldl (fun depth t => t.depth depth) 0

/-- What the tokens so far leave open. -/
structure Standing where
  blocks : Nat
  depth : Nat
  /-- No code stands on the line yet. -/
  idle : Bool

namespace Standing

variable {size : Nat} {σ σ' σ'' : Standing} {t : Token} {tokens tokens' : List Token}

/-- A line may end outside of brackets, and at the end of the text. -/
def Flat (size depth : Nat) (t : Token) : Prop :=
  depth = 0 ∨ t.start = size ∧ t.text = ""

/-- What one token may do. -/
inductive Takes (size : Nat) (σ : Standing) (t : Token) : Standing → Prop
  | comment (hkind : t.kind = .comment) : Takes size σ t σ
  | code (hkind : t.kind.isCode = true) : Takes size σ t ⟨σ.blocks, t.depth σ.depth, false⟩
  | newline (hkind : t.kind = .newline) (flat : Flat size σ.depth t) :
      Takes size σ t ⟨σ.blocks, σ.depth, true⟩
  | indent (hkind : t.kind = .indent) (flat : Flat size σ.depth t) (hidle : σ.idle = true) :
      Takes size σ t ⟨σ.blocks + 1, σ.depth, true⟩
  | dedent {blocks : Nat} (hkind : t.kind = .dedent) (flat : Flat size σ.depth t) (hidle : σ.idle = true)
      (hblocks : σ.blocks = blocks + 1) : Takes size σ t ⟨blocks, σ.depth, true⟩
  | endMarker (hkind : t.kind = .endMarker) : Takes size σ t ⟨σ.blocks, σ.depth, false⟩

theorem Takes.idle (taken : Takes size σ t σ') (hmark : t.kind.isMark = true) : σ.idle = true := by
  cases taken with
  | indent _ _ hidle | dedent _ _ hidle => exact hidle
  | code hkind => simp [TokenKind.isMark_of_isCode hkind] at hmark
  | comment hkind | newline hkind | endMarker hkind => simp [hkind, TokenKind.isMark] at hmark

theorem Takes.flat (taken : Takes size σ t σ') (hkind : t.kind = .newline ∨ t.kind.isMark = true) :
    Flat size σ.depth t := by
  cases taken with
  | newline _ flat | indent _ flat | dedent _ flat => exact flat
  | code hcode => simp [TokenKind.isMark_of_isCode hcode] at hkind
  | comment hother | endMarker hother => simp [hother, TokenKind.isMark] at hkind

inductive Run (size : Nat) : Standing → List Token → Standing → Prop
  | nil (σ : Standing) : Run size σ [] σ
  | cons {σ σ' σ'' : Standing} {t : Token} {tokens : List Token} (first : Takes size σ t σ')
      (rest : Run size σ' tokens σ'') : Run size σ (t :: tokens) σ''

theorem Run.append (first : Run size σ tokens σ') (second : Run size σ' tokens' σ'') :
    Run size σ (tokens ++ tokens') σ'' := by
  induction first with
  | nil => exact second
  | cons taken _ ih => exact .cons taken (ih second)

theorem Run.split (h : Run size σ (tokens ++ tokens') σ'') :
    ∃ σ', Run size σ tokens σ' ∧ Run size σ' tokens' σ'' := by
  induction tokens generalizing σ with
  | nil => exact ⟨σ, .nil σ, h⟩
  | cons t tokens ih =>
      obtain ⟨_, h⟩ | ⟨taken, rest⟩ := h
      obtain ⟨σ', first, second⟩ := ih rest
      exact ⟨σ', .cons taken first, second⟩

/-- Blocks are opened by indents and closed by dedents. -/
theorem Run.blocks (h : Run size σ tokens σ') :
    tokens.countP (·.kind = .dedent) + σ'.blocks = σ.blocks + tokens.countP (·.kind = .indent) := by
  induction h with
  | nil => simp
  | @cons _ _ _ t _ taken _ ih =>
      rw [List.countP_cons, List.countP_cons]
      cases taken with
      | code hkind => cases hk : t.kind <;> simp [hk, TokenKind.isCode] at hkind ⊢ <;> omega
      | comment hkind | newline hkind | indent hkind | dedent hkind | endMarker hkind =>
          simp [hkind] at ih ⊢
          omega

theorem Run.depth (h : Run size σ tokens σ') :
    σ'.depth = tokens.foldl (fun depth t => t.depth depth) σ.depth := by
  induction h with
  | nil => rfl
  | cons taken _ ih =>
      rw [ih, List.foldl_cons]
      cases taken with
      | code => rfl
      | comment hkind | newline hkind | indent hkind | dedent hkind | endMarker hkind =>
          rw [Token.depth, if_neg (by simp [hkind])]

theorem Run.last (h : Run size σ (tokens ++ [t]) σ'') :
    ∃ σ', Run size σ tokens σ' ∧ Takes size σ' t σ'' := by
  obtain ⟨σ', first, ⟨_⟩ | ⟨taken, ⟨_⟩⟩⟩ := h.split
  exact ⟨σ', first, taken⟩

/-- What stands before a line without code: the end of another line, or a mark. -/
theorem Run.idle (h : Run size σ tokens σ') (hidle : σ'.idle = true) :
    ∀ u ∈ (tokens.filter (·.kind ≠ .comment)).getLast?, u.kind = .newline ∨ u.kind.isMark = true := by
  induction tokens using List.reverseRecOn generalizing σ' with
  | nil => simp
  | append_singleton tokens t ih =>
      obtain ⟨μ, before, taken⟩ := h.last
      rw [List.filter_append]
      cases taken with
      | comment hkind => simpa [hkind] using ih before hidle
      | code | endMarker => cases hidle
      | newline hkind | indent hkind | dedent hkind => simp [hkind, TokenKind.isMark]

end Standing

/-! ### The scanner -/

namespace ScanState

open Standing

variable {size : Nat} {s next : ScanState} {found : List Token}

def standing (s : ScanState) : Standing :=
  ⟨s.indents.length, s.depth, !s.lineOpen⟩

/-- A line begins outside of brackets and without code. -/
def Fresh (s : ScanState) : Prop :=
  s.lineStart = true → s.lineOpen = false ∧ s.depth = 0

theorem run_one {σ σ' : Standing} {t : Token} (h : Takes size σ t σ') : Run size σ [t] σ' :=
  .cons h (.nil σ')

/-- Dedents close one block each. -/
theorem run_dedents {depth blocks : Nat} {t : Token} (hkind : t.kind = .dedent)
    (flat : Flat size depth t) (closed : List Nat) :
    Run size ⟨closed.length + blocks, depth, true⟩ (closed.map fun _ => t) ⟨blocks, depth, true⟩ := by
  induction closed with
  | nil => simpa using Run.nil ⟨blocks, depth, true⟩
  | cons width closed ih =>
      have hblocks : (width :: closed).length + blocks = (closed.length + blocks) + 1 := by
        rw [List.length_cons]
        omega
      exact .cons (.dedent hkind flat rfl hblocks) ih

theorem Step.run (step : Step s found next) (fresh : s.Fresh) :
    Run size s.standing found next.standing ∧ next.Fresh := by
  have inLine : ∀ {s' : ScanState}, s.lineStart = false → s'.lineStart = s.lineStart → s'.Fresh :=
    fun hstart hsame h => by simp [hsame, hstart] at h
  cases step with
  | blank hstart | joined hstart | continued hstart => exact ⟨.nil _, inLine hstart rfl⟩
  | blankLine => exact ⟨.nil _, fresh⟩
  | comment hstart => exact ⟨run_one (.comment rfl), inLine hstart rfl⟩
  | commentLine => exact ⟨run_one (.comment rfl), fresh⟩
  | code hstart _ _ hkind => exact ⟨run_one (.code hkind), inLine hstart rfl⟩
  | newline _ _ _ hdepth =>
      exact ⟨run_one (.newline rfl (.inl hdepth)), fun _ => ⟨rfl, hdepth⟩⟩
  | indent hstart =>
      obtain ⟨hopen, hdepth⟩ := fresh hstart
      refine ⟨?_, fun h => by cases h⟩
      simp only [standing, skip, hopen, hdepth, Bool.not_false, List.length_cons]
      exact run_one (.indent rfl (.inl rfl) rfl)
  | dedents hstart _ hindents =>
      obtain ⟨hopen, hdepth⟩ := fresh hstart
      refine ⟨?_, fun h => by cases h⟩
      simp only [standing, skip, hopen, hdepth, Bool.not_false, ← hindents, List.length_append]
      exact run_dedents rfl (.inl rfl) _

theorem run_closing (hsize : s.offset = size) : ∃ σ, Run size s.standing s.closing σ ∧ σ.blocks = 0 := by
  have hline : Run size s.standing (if s.lineOpen then [s.tokenHere .newline []] else [])
      ⟨s.indents.length, s.depth, true⟩ := by
    cases hopen : s.lineOpen with
    | false => simpa [standing, hopen] using Run.nil s.standing
    | true => exact run_one (.newline rfl (.inr ⟨hsize, rfl⟩))
  have hblocks : Run size ⟨s.indents.length + 0, s.depth, true⟩
      (s.indents.map fun _ => s.tokenHere .dedent []) ⟨0, s.depth, true⟩ :=
    run_dedents rfl (.inr ⟨hsize, rfl⟩) s.indents
  exact ⟨_, (hline.append hblocks).append (run_one (.endMarker rfl)), rfl⟩

end ScanState

/-- The tokens of a text can be taken one after the other; no block is left open. -/
theorem run_of_tokenize {source : String} {tokens : List Token} (h : tokenize source = .ok tokens) :
    ∃ σ, Standing.Run (Text.byteSize source.toList) ⟨0, 0, true⟩ tokens σ ∧ σ.blocks = 0 := by
  refine tokenize_induction (P := fun s tokens => s.Fresh →
    s.offset + Text.byteSize s.rest = Text.byteSize source.toList →
    ∃ σ, Standing.Run (Text.byteSize source.toList) s.standing tokens σ ∧ σ.blocks = 0)
    ?_ ?_ h (fun _ => ⟨rfl, rfl⟩) (Nat.zero_add _)
  · intro s hrest _ hsize
    exact s.run_closing (by simpa [hrest] using hsize)
  · intro s found next later step ih fresh hsize
    obtain ⟨first, fresh'⟩ := step.run fresh
    obtain ⟨σ, rest, hblocks⟩ := ih fresh' (step.bite.size.trans hsize)
    exact ⟨σ, first.append rest, hblocks⟩

/-- Every prefix has as many indents as dedents or more, and the whole has equally many. The end marker is
the last token and only the last. Comments aside, a run of indents and dedents that cannot be extended
to the left stands first or after the end of a line. And no line or block begins or ends between
brackets, unless the text is over there. -/
theorem layout_of_tokenize {source : String} {tokens : List Token}
    (h : tokenize source = .ok tokens) :
    (∀ before, before <+: tokens →
      before.countP (·.kind = .dedent) ≤ before.countP (·.kind = .indent)) ∧
    tokens.countP (·.kind = .dedent) = tokens.countP (·.kind = .indent) ∧
    (∃ init last, tokens = init ++ [last] ∧ last.kind = .endMarker ∧
      ∀ t ∈ init, t.kind ≠ .endMarker) ∧
    (∀ before marks after, tokens.filter (·.kind ≠ .comment) = before ++ marks ++ after →
      marks ≠ [] → (∀ t ∈ marks, t.kind.isMark = true) →
      (∀ t ∈ before.getLast?, t.kind.isMark = false) → ∀ t ∈ before.getLast?, t.kind = .newline) ∧
    ∀ before t after, tokens = before ++ t :: after → t.kind = .newline ∨ t.kind.isMark = true →
      0 < bracketDepth before → t.start = Text.byteSize source.toList ∧ t.text = "" := by
  obtain ⟨σ, run, hblocks⟩ := run_of_tokenize h
  refine ⟨?_, ?_, endMarker_last h, ?_, ?_⟩
  · rintro before ⟨after, rfl⟩
    obtain ⟨μ, first, _⟩ := run.split
    have hcount : _ + μ.blocks = 0 + _ := first.blocks
    omega
  · have hcount : _ + σ.blocks = 0 + _ := run.blocks
    omega
  · intro before marks after hsplit hne hmarks hbefore u hu
    obtain ⟨t, marks, rfl⟩ := List.exists_cons_of_ne_nil hne
    rw [List.append_assoc] at hsplit
    obtain ⟨front, back, rfl, rfl, hback⟩ := List.filter_eq_append_iff.1 hsplit
    obtain ⟨gap, tail, rfl, hgap, -, -⟩ := List.filter_eq_cons_iff.1 hback
    rw [← List.append_assoc] at run
    obtain ⟨μ, first, ⟨_⟩ | ⟨taken, _⟩⟩ := run.split
    have hlast := first.idle (taken.idle (hmarks t List.mem_cons_self)) u
    rw [List.filter_append, List.filter_eq_nil_iff.2 hgap, List.append_nil] at hlast
    exact (hlast hu).resolve_right (by simp [hbefore u hu])
  · rintro before t after rfl hkind hdepth
    obtain ⟨μ, first, ⟨_⟩ | ⟨taken, _⟩⟩ := run.split
    have hopen : μ.depth = bracketDepth before := first.depth
    exact (taken.flat hkind).resolve_left (by omega)

/-- A bracket that is never closed: the line and the block end with the text. -/
theorem layout_of_open_bracket :
    let tokens : List Token := [⟨.name, "if", 0, 2⟩, ⟨.name, "a", 3, 4⟩, ⟨.op, ":", 4, 5⟩,
      ⟨.newline, "\n", 5, 6⟩, ⟨.indent, "", 8, 8⟩, ⟨.name, "f", 8, 9⟩, ⟨.op, "(", 9, 10⟩,
      ⟨.newline, "", 11, 11⟩, ⟨.dedent, "", 11, 11⟩, ⟨.endMarker, "", 11, 11⟩]
    tokenize "if a:\n  f(\n" = .ok tokens ∧
      (∀ before, before <+: tokens →
        before.countP (·.kind = .dedent) ≤ before.countP (·.kind = .indent)) ∧
      ∀ before t after, tokens = before ++ t :: after → t.kind = .newline ∨ t.kind.isMark = true →
        0 < bracketDepth before → t.start = 11 ∧ t.text = "" := by
  intro tokens
  have htokens : tokenize "if a:\n  f(\n" = .ok tokens := by decide +kernel
  obtain ⟨hprefixes, -, -, -, hflat⟩ := layout_of_tokenize htokens
  exact ⟨htokens, hprefixes, hflat⟩

end TriviaTree
