import Mathlib
import TriviaTree.Proofs.Token.Layout

/-!
Which tokens follow which.

What a bite of the scanner finds is told by the character it begins with (`ScanState.Step.kinds`). So the
end marker is the last token and only the last (`endMarker_last`), and an indentation is followed by code: blank lines have been skipped before
it, so that a lexeme begins there, unless a backslash joins the line to the next one
(`indent_leads`).
-/

set_option autoImplicit false

namespace TriviaTree

namespace ScanState

variable {s s' : ScanState} {tokens : List Token}

/-- A lexeme of code begins here. -/
def Poised (s : ScanState) : Prop :=
  s.lineStart = false ∧ ∃ c cs, s.rest = c :: cs ∧ Token.isIndentation c = false ∧
    Token.isBreak c = false ∧ c ≠ '\\' ∧ c ≠ '#'

/-- What one bite finds. After an indentation stands no blank, no line break and no comment. -/
theorem Step.kinds (step : Step s tokens s') :
    (∃ t, tokens = [t] ∧ t.kind.isCode = true) ∨
    (¬ s.Poised ∧ ∀ t ∈ tokens, t.kind = .newline ∨ t.kind = .comment ∨ t.kind = .dedent) ∨
    (¬ s.Poised ∧ ∃ t, tokens = [t] ∧ t.kind = .indent ∧ t.stop = s'.offset ∧
      (s'.rest.head? ≠ some '\\' → s'.Poised)) := by
  have atStart : s.lineStart = true → ¬ s.Poised := fun hstart hpoised => by
    simp [hpoised.1] at hstart
  have inLine : ∀ {c cs}, s.rest = c :: cs → Token.isIndentation c = true ∨ Token.isBreak c = true ∨
      c = '\\' ∨ c = '#' → ¬ s.Poised := by
    rintro c cs hrest hfirst ⟨-, d, ds, hrest', hindent, hbreak, hslash, hhash⟩
    obtain ⟨rfl, rfl⟩ := List.cons.inj (hrest.symm.trans hrest')
    simp [hindent, hbreak, hslash, hhash] at hfirst
  cases step with
  | code _ _ _ hkind => exact .inl ⟨_, rfl, hkind⟩
  | blank _ hrest hblank => exact .inr (.inl ⟨inLine hrest (.inl hblank), by simp⟩)
  | newline _ hrest hbreak =>
      exact .inr (.inl ⟨inLine hrest (.inr (.inl hbreak)), by simp [tokenHere]⟩)
  | joined _ hrest hbreak => exact .inr (.inl ⟨inLine hrest (.inr (.inl hbreak)), by simp⟩)
  | continued _ hrest => exact .inr (.inl ⟨inLine hrest (.inr (.inr (.inl rfl))), by simp⟩)
  | comment _ hrest =>
      exact .inr (.inl ⟨inLine hrest (.inr (.inr (.inr rfl))), by simp [ScanState.comment, tokenHere]⟩)
  | blankLine hstart => exact .inr (.inl ⟨atStart hstart, by simp⟩)
  | commentLine hstart => exact .inr (.inl ⟨atStart hstart, by simp [ScanState.comment, tokenHere]⟩)
  | dedents hstart => exact .inr (.inl ⟨atStart hstart, by simp [tokenHere]⟩)
  | @indent taken cs c hstart hcut hbreak hhash =>
      have hindent : Token.isIndentation c = false := by
        rw [Token.splitWhile, Prod.mk.injEq] at hcut
        have hhead := List.head?_dropWhile_not Token.isIndentation s.rest
        rw [hcut.2] at hhead
        simpa using hhead
      refine .inr (.inr ⟨atStart hstart, _, rfl, rfl, rfl, fun hslash => ?_⟩)
      exact ⟨rfl, c, cs, rfl, hindent, hbreak, by simpa [skip] using hslash, hhash⟩

end ScanState

/-! ### A whole scan -/

theorem scan_of_step_none {s : ScanState} {done : List Token} (h : s.step = .ok none) :
    scan s done = .ok (done.reverse ++ s.closing) := by
  rw [scan]
  split <;> simp_all

theorem scan_of_step_some {s next : ScanState} {done tokens : List Token}
    (h : s.step = .ok (some (tokens, next))) : scan s done = scan next (tokens.reverse ++ done) := by
  rw [scan]
  split <;> simp_all

theorem scan_of_step_error {s : ScanState} {done : List Token} {e : ScanFault}
    (h : s.step = .error e) : scan s done = .error e := by
  rw [scan]
  split <;> simp_all

/-- The end marker is the last token, and only the last. -/
theorem endMarker_last {source : String} {tokens : List Token} (h : tokenize source = .ok tokens) :
    ∃ init last, tokens = init ++ [last] ∧ last.kind = .endMarker ∧
      ∀ t ∈ init, t.kind ≠ .endMarker := by
  refine tokenize_induction (P := fun _ tokens => ∃ init last, tokens = init ++ [last] ∧
    last.kind = .endMarker ∧ ∀ t ∈ init, t.kind ≠ .endMarker) (fun s _ => ?_) ?_ h
  · refine ⟨_, _, rfl, rfl, fun t ht => ?_⟩
    rcases List.mem_append.1 ht with ht | ht
    · split at ht
      · simp [List.mem_singleton.1 ht, ScanState.tokenHere]
      · simp at ht
    · obtain ⟨_, _, rfl⟩ := List.mem_map.1 ht
      simp [ScanState.tokenHere]
  · rintro s found next later step ⟨init, last, rfl, hlast, hinit⟩
    refine ⟨found ++ init, last, by simp, hlast, List.forall_mem_append.2 ⟨fun t ht => ?_, hinit⟩⟩
    rcases step.kinds with ⟨t, rfl, hkind⟩ | ⟨_, hkind⟩ | ⟨_, t, rfl, hkind, _⟩
    · rw [List.mem_singleton.1 ht]
      rintro hmarker
      simp [hmarker, TokenKind.isCode] at hkind
    · rcases hkind t ht with h | h | h <;> simp [h]
    · simp [List.mem_singleton.1 ht, hkind]

/-- Code comes first, comments aside. -/
def leadsWithCode (tokens : List Token) : Bool :=
  (tokens.find? (·.kind ≠ .comment)).any (·.kind.isCode)

theorem leadsWithCode_cons {t : Token} (h : t.kind.isCode = true) (tokens : List Token) :
    leadsWithCode (t :: tokens) = true := by
  have hkind : t.kind ≠ .comment := by
    rintro hcomment
    simp [hcomment, TokenKind.isCode] at h
  simp [leadsWithCode, hkind, h]

/-- What a scan finds from a place in the text on: code comes first where a lexeme of code begins, and so
it does after each indentation, unless a backslash stands there. -/
def ScanState.Leads (source : List Char) (s : ScanState) (new : List Token) : Prop :=
  ∀ front, front ++ s.rest = source → Text.byteSize front = s.offset →
    (s.Poised → leadsWithCode new = true) ∧
    ∀ before t after, new = before ++ t :: after → t.kind = .indent →
      (Text.dropBytes t.stop source).bind List.head? ≠ some '\\' → leadsWithCode after = true

theorem ScanState.Step.leads {source : List Char} {s next : ScanState} {found later : List Token}
    (step : Step s found next) (ih : next.Leads source later) : s.Leads source (found ++ later) := by
  intro front hsource hfront
  obtain ⟨taken, hrest, hoffset⟩ := step.bite.reads
  have hsource' : (front ++ taken) ++ next.rest = source := by
    rw [List.append_assoc, hrest, hsource]
  have hfront' : Text.byteSize (front ++ taken) = next.offset := by
    rw [Text.byteSize_append, hfront, hoffset]
  obtain ⟨hpoised, hlater⟩ := ih _ hsource' hfront'
  have hplace : Text.dropBytes next.offset source = some next.rest := by
    rw [← hsource', ← hfront', Text.dropBytes_byteSize_append]
  refine ⟨fun hnow => ?_, fun before t after hnew hindent hslash => ?_⟩
  · rcases step.kinds with ⟨t, rfl, hcode⟩ | ⟨hnot, _⟩ | ⟨hnot, _⟩
    · exact leadsWithCode_cons hcode later
    · exact absurd hnow hnot
    · exact absurd hnow hnot
  · rcases List.append_eq_append_iff.1 hnew with
      ⟨between, rfl, hafter⟩ | ⟨_ | ⟨t', between⟩, rfl, hafter⟩
    · exact hlater between t after hafter hindent hslash
    · exact hlater [] t after (by simpa using hafter.symm) hindent hslash
    · obtain ⟨rfl, rfl⟩ := List.cons.inj hafter
      rcases step.kinds with ⟨t', hfound, hcode⟩ | ⟨_, hkinds⟩ | ⟨_, t', hfound, _, hstop, hpoise⟩
      · obtain ⟨rfl, hone⟩ | ⟨_, hnil⟩ := List.append_eq_singleton_iff.1 hfound
        · obtain ⟨rfl, rfl⟩ := List.cons.inj hone
          simp [hindent, TokenKind.isCode] at hcode
        · cases hnil
      · have hkind := hkinds t (by simp)
        simp [hindent] at hkind
      · obtain ⟨rfl, hone⟩ | ⟨_, hnil⟩ := List.append_eq_singleton_iff.1 hfound
        · obtain ⟨rfl, rfl⟩ := List.cons.inj hone
          rw [hstop, hplace] at hslash
          exact hpoised (hpoise hslash)
        · cases hnil

/-- An indentation is followed by code, unless a backslash stands after it. -/
theorem indent_leads {source : String} {tokens before after : List Token} {t : Token}
    (h : tokenize source = .ok tokens) (htokens : tokens = before ++ t :: after)
    (hindent : t.kind = .indent)
    (hslash : (Text.dropBytes t.stop source.toList).bind List.head? ≠ some '\\') :
    leadsWithCode after = true := by
  have hleads : ScanState.Leads source.toList _ tokens := tokenize_induction
    (P := ScanState.Leads source.toList) (fun s hrest _ _ _ => ?_) (fun _ _ _ _ step => step.leads) h
  · exact (hleads [] rfl rfl).2 before t after htokens hindent hslash
  · refine ⟨?_, fun before t after hnew hindent => ?_⟩
    · rintro ⟨_, c, cs, hcons, _⟩
      simp [hrest] at hcons
    · have hkinds := s.closing_kinds t (by simp [hnew])
      simp [hindent] at hkinds

end TriviaTree
