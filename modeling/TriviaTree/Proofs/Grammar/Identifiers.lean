import Mathlib
import TriviaTree.Proofs.Grammar.Names
import TriviaTree.Proofs.Grammar.Statements
import TriviaTree.Proofs.Grammar.Uncommented

/-!
The grammar keeps every name, but for rest parameters that are given twice.

A list of parameters has room for one parameter after two stars. A second one takes the place of the
first without a word, and the name of the first is lost. `overwritten` finds these names among the
words of a text: in the list of parameters after each `def` they are the names after two stars, all
but the last. `names_of_parseModule` says that the names among the words of a text are those that its
tree holds and those that were overwritten.
-/

set_option autoImplicit false

namespace TriviaTree

/-! ### Names that are overwritten -/

/-- The names after two stars where an item of a list begins; `first` says that one begins here. -/
def restNames : Bool → List Word → List String
  | _, [] => []
  | first, w :: ws =>
      (if first && w = (.op, "**") then (ws.head?.map Prod.snd).toList else []) ++
        restNames (w = (.op, ",")) ws

/-- The names that are overwritten in a list of parameters; before it stand the name of the function
and a parenthesis. -/
def overwrittenParameters (ws : List Word) : List String :=
  (restNames true (topLevel 0 (ws.drop 2))).dropLast

/-- The names of rest parameters that are followed by another one in the same list. -/
def overwritten : List Word → List String
  | [] => []
  | w :: ws => (if w = (.name, "def") then overwrittenParameters ws else []) ++ overwritten ws

theorem overwritten_append_of_noDef {ws : List Word} (h : (TokenKind.name, "def") ∉ ws)
    (rest : List Word) : overwritten (ws ++ rest) = overwritten rest := by
  induction ws with
  | nil => rfl
  | cons w ws ih =>
      obtain ⟨hw, hws⟩ := List.ne_and_not_mem_of_not_mem_cons h
      simp [overwritten, hw.symm, ih hws]

/-- Inside an item nothing counts up to the next comma. -/
theorem restNames_append {ws : List Word} (h : (TokenKind.op, ",") ∉ ws) (rest : List Word) :
    restNames false (ws ++ rest) = restNames false rest := by
  induction ws with
  | nil => rfl
  | cons w ws ih =>
      obtain ⟨hw, hws⟩ := List.ne_and_not_mem_of_not_mem_cons h
      simp [restNames, hw.symm, ih hws]

theorem restNames_comma (first : Bool) (rest : List Word) :
    restNames first ((.op, ",") :: rest) = restNames true rest := by
  simp [restNames]

/-! ### Lists of parameters -/

/-- The words of one parameter: its names and those after two stars, which count only where an item
begins. -/
structure ListItem (ws : List Word) (names : Multiset String) (rests : List String) : Prop where
  names_eq : namesOf ws = names + (rests : Multiset String)
  noDef : (TokenKind.name, "def") ∉ ws
  outer : ∃ top, (∀ rest, topLevel 0 (ws ++ rest) = top ++ topLevel 0 rest) ∧
    ∀ more, restNames true (top ++ more) = rests ++ restNames false more

/-- The words of a list of parameters, up to a closing parenthesis. -/
structure Listing (ws : List Word) (names : Multiset String) (rests : List String) : Prop where
  names_eq : namesOf ws = names + (rests : Multiset String)
  noDef : (TokenKind.name, "def") ∉ ws
  outer : ∀ rest, restNames true (topLevel 0 (ws ++ (.op, ")") :: rest)) = rests

section Listings

variable {w : Word} {ws ws' : List Word} {names names' : Multiset String} {rests rests' : List String}

theorem ListItem.ordinary (hplain : isPlain false w = true) (hstars : w ≠ (.op, "**"))
    (phrase : Phrase false ws names) : ListItem (w :: ws) (w.name + names) [] := by
  have hword := Phrase.word hplain
  obtain ⟨first, hfirst, heq⟩ := hword.outer rfl
  obtain ⟨top, htop, heq'⟩ := phrase.outer rfl
  have hcomma : w ≠ (.op, ",") := by
    rintro rfl
    exact absurd hplain (by decide)
  refine ⟨by simp [phrase.names_eq], ?_, w :: top, fun rest => ?_, fun more => ?_⟩
  · rw [← List.singleton_append, List.mem_append]
    exact not_or.2 ⟨hword.noDef, phrase.noDef⟩
  · simp only [isPlain, Bool.and_eq_true, Bool.not_eq_true'] at hplain
    simp [topLevel, hplain.1.1.2, hplain.1.2, heq']
  · simp [restNames, hstars, hcomma, restNames_append htop]

/-- A name after two stars. -/
theorem ListItem.rest {name : String} (hfree : isKeyword name = false) :
    ListItem [(.op, "**"), (.name, name)] 0 [name] := by
  have hplain : isPlain false (.name, name) = true :=
    Grammar.isPlain_of_name hfree
  refine ⟨by simp [Word.name, hfree], ?_, [(.op, "**"), (.name, name)], fun rest => ?_,
    fun more => ?_⟩
  · have := (Phrase.word hplain).noDef
    simpa using this
  · simp [topLevel, opensBracket, closesBracket]
  · simp [restNames]

theorem Listing.nil : Listing [] 0 [] :=
  ⟨rfl, by simp, fun _ => rfl⟩

theorem ListItem.listing (item : ListItem ws names rests) : Listing ws names rests := by
  obtain ⟨top, htop, hrests⟩ := item.outer
  refine ⟨item.names_eq, item.noDef, fun rest => ?_⟩
  simpa [htop, topLevel, opensBracket, closesBracket, restNames] using hrests []

theorem ListItem.comma (item : ListItem ws names rests) (listing : Listing ws' names' rests') :
    Listing (ws ++ (.op, ",") :: ws') (names + names') (rests ++ rests') := by
  obtain ⟨top, htop, hrests⟩ := item.outer
  refine ⟨?_, by simp [item.noDef, listing.noDef], fun rest => ?_⟩
  · have hcomma : Word.name (.op, ",") = 0 := by simp [Word.name]
    rw [namesOf_append, namesOf_cons, item.names_eq, listing.names_eq, hcomma, ← Multiset.coe_add]
    abel
  · have hcomma : topLevel 0 ((.op, ",") :: (ws' ++ (.op, ")") :: rest)) =
        (.op, ",") :: topLevel 0 (ws' ++ (.op, ")") :: rest) := by
      simp [topLevel, opensBracket, closesBracket]
    rw [List.append_assoc, htop, hrests, List.cons_append, hcomma, restNames_comma, listing.outer]

theorem coe_eq_getLast_add (rests : List String) : (rests : Multiset String) =
    (rests.getLast?.toList : Multiset String) + (rests.dropLast : Multiset String) := by
  rcases List.eq_nil_or_concat rests with rfl | ⟨init, last, rfl⟩
  · rfl
  · simp [add_comm, ← Multiset.coe_add]

/-- The words that begin a function, up to the parenthesis that closes its parameters. -/
theorem Listing.overwritten_def {name : String} (hname : name ≠ "def")
    (listing : Listing ws names rests) (rest : List Word) :
    overwritten ((.name, "def") :: (.name, name) :: (.op, "(") :: (ws ++ (.op, ")") :: rest)) =
      rests.dropLast ++ overwritten rest := by
  have hparameters : overwrittenParameters ((.name, name) :: (.op, "(") ::
      (ws ++ (.op, ")") :: rest)) = rests.dropLast := by
    rw [overwrittenParameters]
    exact congrArg List.dropLast (listing.outer rest)
  simp only [overwritten, hparameters, overwritten_append_of_noDef listing.noDef]
  simp [hname]

end Listings

namespace Grammar

attribute [local simp] Node.identifiers_mk Kind.ownName? Kind.children Kind.contents

/-! ### What statements read -/

/-- The names that a portion of a statement holds. -/
def Portion.names : Portion → Multiset String
  | .word => 0
  | .expression _ n | .statement n => n.identifiers
  | .signature name args => {name} + args.identifiers
  | .block body => identifiersOf body

/-- The names of a statement are those of its portions. -/
theorem Sentence.names {kind : Kind Node} {ps : List Portion} (sentence : Sentence kind ps)
    (span : Option Span) : (Node.mk kind span).identifiers = (ps.map Portion.names).sum := by
  have rest : ∀ {orelse : List Node} {ps : List Portion}, Otherwise orelse ps →
      (ps.map Portion.names).sum = identifiersOf orelse := by
    intro orelse ps h
    cases h <;> simp [Portion.names]
  cases sentence with
  | word h => rcases h with rfl | rfl | rfl <;> simp [Portion.names]
  | returnStmt value => cases value <;> simp [Portion.names]
  | assign first others value =>
      simp [Portion.names, identifiersOf, List.flatMap_def, List.sum_flatten, Function.comp_def]
  | ifStmt _ _ h | whileLoop _ _ h | forLoop _ _ _ h => simp [Portion.names, rest h]
  | _ => simp [Portion.names]

/-- The words from one cursor to a later one: among them are the names of the portions and those that are
overwritten. There is a word at least where a portion is solid. -/
def Shares (c : Cursor) (ps : List Portion) (c' : Cursor) : Prop :=
  ∃ (ws : List Word) (lost : List String), c.words = ws ++ c'.words ∧
    namesOf ws = (ps.map Portion.names).sum + (lost : Multiset String) ∧
    (∀ rest, overwritten (ws ++ rest) = lost ++ overwritten rest) ∧
    ((∃ p ∈ ps, p.isSolid = true) → ws ≠ [])

section Shares

variable {c c' : Cursor} {ps : List Portion}

theorem Shares.less (shares : Shares c ps c') (h : ∃ p ∈ ps, p.isSolid = true) :
    c'.remaining < c.remaining := by
  obtain ⟨ws, _, hwords, _, _, hne⟩ := shares
  rw [c.remaining_eq_length, c'.remaining_eq_length, hwords, List.length_append]
  exact Nat.lt_add_of_pos_left (List.length_pos_iff.2 (hne h))

theorem Shares.ended (shares : Shares c ps c') (ended : c.Ended) : c'.Ended := by
  obtain ⟨_, _, hwords, _⟩ := shares
  exact ended.of_words hwords

theorem shares_of_phrase {commas : Bool} {ws : List Word}
    (phrase : Phrase commas ws (ps.map Portion.names).sum) (hwords : c.words = ws ++ c'.words)
    (hne : (∃ p ∈ ps, p.isSolid = true) → ws ≠ []) : Shares c ps c' :=
  ⟨ws, [], hwords, by simp [phrase.names_eq], overwritten_append_of_noDef phrase.noDef, hne⟩

theorem shares_advance (ended : c.Ended) (hkind : c.current.kind ≠ .endMarker)
    (hplain : isPlain true c.current.word = true)
    (hname : c.current.word.name = (ps.map Portion.names).sum) : Shares c ps c.advance :=
  shares_of_phrase (hname ▸ Phrase.word hplain) (ended.words_advance hkind) (by simp)

end Shares

theorem plain_of_mem_statementWords : ∀ w ∈ statementWords,
    w.1 ≠ .endMarker ∧ isPlain true w = true ∧ w.name = 0 := by
  decide

theorem plain_of_atGap {c : Cursor} (h : c.atGap = true) : c.current.kind ≠ .endMarker ∧
    isPlain true c.current.word = true ∧ c.current.word.name = 0 := by
  simp only [Cursor.atGap, Cursor.atKind, Bool.or_eq_true, decide_eq_true_eq, or_assoc] at h
  rcases h with h | h | h | h
  · have hword := word_of_atOp h
    exact ⟨kind_ne_of_word hword (by simp), by rw [hword]; decide, by rw [hword]; decide⟩
  all_goals simp [isPlain, opensBracket, closesBracket, Lexeme.word, Word.name, h]

/-! ### Parameters -/

/-- The names of the parameters read so far, but for the one after two stars. -/
def Parameters.fixed (ps : Parameters) : Multiset String :=
  identifiersOf ps.args + identifiersOf ps.vararg.toList + identifiersOf ps.kwonlyargs

/-- The parameter after one star is read after the star. -/
def Parameters.Sound (ps : Parameters) : Prop :=
  ps.star = false → ps.vararg = none

/-- What reading parameters does to those read so far: names are added, and of the names after two
stars the last one is held. -/
structure Parameters.Grow (ps ps' : Parameters) (names : Multiset String) (rests : List String) :
    Prop where
  sound : ps'.Sound
  fixed : ps'.fixed = ps.fixed + names
  held : ∀ r : Option String, identifiersOf ps.kwarg.toList = (r.toList : Multiset String) →
    identifiersOf ps'.kwarg.toList = ((rests.getLast?.or r).toList : Multiset String)

theorem Parameters.Grow.trans {ps ps' ps'' : Parameters} {names names' : Multiset String}
    {rests rests' : List String} (first : ps.Grow ps' names rests)
    (second : ps'.Grow ps'' names' rests') : ps.Grow ps'' (names + names') (rests ++ rests') where
  sound := second.sound
  fixed := by rw [second.fixed, first.fixed, add_assoc]
  held r hr := by rw [second.held _ (first.held r hr), List.getLast?_append, Option.or_assoc]

/-- The words from one cursor to a later one are a phrase without commas. -/
def Passage (c c' : Cursor) (names : Multiset String) : Prop :=
  ∃ ws, c.words = ws ++ c'.words ∧ Phrase false ws names

theorem passage_parameter {keep : Retention} {allowDefault : Bool} {c c' : Cursor} {a : Node}
    (ended : c.Ended) (run : parameter keep allowDefault c = .ok (a, c')) :
    ∃ name, c.current.word = (.name, name) ∧ isKeyword name = false ∧
      ∃ names, Passage c.advance c' names ∧ a.identifiers = {name} + names ∧
        (allowDefault = false → c' = c.advance ∧ names = 0) := by
  simp [parameter] at run
  obtain ⟨⟨hkind, hfree⟩, run⟩ := run
  refine ⟨_, by rw [Lexeme.word, hkind], hfree, ?_⟩
  rcases run with ⟨⟨rfl, equals⟩, value, hvalue, rfl⟩ | ⟨_, rfl, rfl⟩
  · have read : (phrases keep).Reads _ ([.op "="] ++ [.node .expression value]) _ :=
      Account.append _ (Account.op _ (Account.nil _ c.advance) equals) (accounts_anyTest hvalue)
    obtain ⟨ws, hwords, spells⟩ := read (ended.advance (by simp [hkind]))
    have whole : Phrased false [.op "=", .node .expression value] :=
      .word (by decide) (.node value (by decide) .nil)
    exact ⟨_, ⟨ws, hwords, whole.phrase spells⟩, by simp [Word.name], by simp⟩
  · exact ⟨0, ⟨[], rfl, .nil⟩, by simp, by simp⟩

/-- A word and the passage after it are an item of a list. -/
theorem Passage.listItem {c c' : Cursor} {w : Word} {names : Multiset String}
    (after : Passage c.advance c' names) (ended : c.Ended) (hword : c.current.word = w)
    (hkind : w.1 ≠ .endMarker) (hplain : isPlain false w = true) (hstars : w ≠ (.op, "**")) :
    ∃ ws, c.words = ws ++ c'.words ∧ ListItem ws (w.name + names) [] := by
  obtain ⟨ws, hwords, phrase⟩ := after
  refine ⟨w :: ws, ?_, .ordinary hplain hstars phrase⟩
  rw [ended.words_advance (kind_ne_of_word hword hkind), hword, hwords, List.cons_append]

/-- The words of one parameter are an item of a list. -/
theorem listItem_of_parameterItem {keep : Retention} {ps ps' : Parameters} {c c' : Cursor}
    (ended : c.Ended) (hsound : ps.Sound) (run : parameterItem keep ps c = .ok (ps', c')) :
    ∃ ws names rests, c.words = ws ++ c'.words ∧ ListItem ws names rests ∧
      ps.Grow ps' names rests := by
  simp [parameterItem] at run
  rcases run with ⟨stars, arg, harg, rfl⟩ | ⟨_, ⟨star, run⟩ | ⟨_, run⟩⟩
  · have hstars := word_of_atOp stars
    have hwords := ended.words_advance (kind_ne_of_word hstars (by simp))
    obtain ⟨name, hname, hfree, names, _, hnames, hbare⟩ := passage_parameter (ended.op stars) harg
    obtain ⟨rfl, rfl⟩ := hbare rfl
    have hwords' := (ended.op stars).words_advance (kind_ne_of_word hname (by simp))
    refine ⟨_, 0, [name], ?_, .rest hfree, hsound, by simp [Parameters.fixed], ?_⟩
    · rw [hwords, hwords', hstars, hname]
      rfl
    · simp [hnames]
  · obtain ⟨hfirst, ⟨_, rfl, rfl⟩ | ⟨_, arg, harg, rfl⟩⟩ := run
    · have after : Passage c.advance c.advance 0 := ⟨[], rfl, .nil⟩
      obtain ⟨ws, hwords, item⟩ := after.listItem ended (word_of_atOp star) (by decide) (by decide)
        (by decide)
      refine ⟨ws, _, [], hwords, item, by simp [Parameters.Sound], ?_, by simp⟩
      simp [Parameters.fixed, Word.name]
    · obtain ⟨name, hname, hfree, names, _, hnames, hbare⟩ := passage_parameter (ended.op star) harg
      obtain ⟨rfl, rfl⟩ := hbare rfl
      have hwords := (ended.op star).words_advance (kind_ne_of_word hname (by simp))
      have after : Passage c.advance c.advance.advance _ :=
        ⟨[_], hwords, .word (by rw [hname]; exact isPlain_of_name hfree)⟩
      obtain ⟨ws, hwords, item⟩ := after.listItem ended (word_of_atOp star) (by decide) (by decide)
        (by decide)
      refine ⟨ws, _, [], hwords, item, by simp [Parameters.Sound], ?_, by simp⟩
      simp [Parameters.fixed, hname, Word.name, hnames, hsound hfirst, hfree]
      abel
  · obtain ⟨_, arg, middle, harg, run⟩ := run
    obtain ⟨name, hname, hfree, names, after, hnames, _⟩ := passage_parameter ended harg
    obtain ⟨ws, hwords, item⟩ := after.listItem ended hname (by simp) (isPlain_of_name hfree)
      (by simp)
    rcases run with ⟨hstar, rfl, rfl⟩ | ⟨hstar, rfl, rfl⟩
    · refine ⟨ws, _, [], hwords, item, by simp [Parameters.Sound, hstar], ?_, by simp⟩
      simp [Parameters.fixed, Word.name, hnames, hfree]
      abel
    · refine ⟨ws, _, [], hwords, item, by simpa [Parameters.Sound] using hsound, ?_, by simp⟩
      simp [Parameters.fixed, Word.name, hnames, hfree]
      abel

/-- The words of several parameters are a list. -/
theorem listing_of_parameterItems {keep : Retention} (n : Nat) {ps ps' : Parameters} {c c' : Cursor}
    (ended : c.Ended) (hsound : ps.Sound) (run : parameterItems keep n ps c = .ok (ps', c')) :
    ∃ ws names rests, c.words = ws ++ c'.words ∧ Listing ws names rests ∧
      ps.Grow ps' names rests := by
  induction n generalizing ps c with
  | zero =>
      simp only [parameterItems, pure_ok] at run
      obtain ⟨rfl, rfl⟩ := run
      exact ⟨[], 0, [], rfl, .nil, hsound, by simp, by simp⟩
  | succ n ih =>
      simp [parameterItems] at run
      rcases run with ⟨_, rfl, rfl⟩ | ⟨_, next, middle, hnext, run⟩
      · exact ⟨[], 0, [], rfl, .nil, hsound, by simp, by simp⟩
      · obtain ⟨ws, names, rests, hwords, item, grow⟩ :=
          listItem_of_parameterItem ended hsound hnext
        rcases run with ⟨_, rfl, rfl⟩ | ⟨comma, hrest⟩
        · exact ⟨ws, names, rests, hwords, item.listing, grow⟩
        · have ended' := ended.of_words hwords
          obtain ⟨ws', names', rests', hwords', listing, grow'⟩ :=
            ih (ended'.op comma) grow.sound hrest
          refine ⟨_, _, _, ?_, item.comma listing, grow.trans grow'⟩
          rw [hwords, ended'.words_advance (kind_ne_of_word (word_of_atOp comma) (by simp)),
            word_of_atOp comma, hwords']
          simp

theorem listing_of_parameters {keep : Retention} {c c' : Cursor} {args : Node} (ended : c.Ended)
    (run : parameters keep c = .ok (args, c')) :
    ∃ ws names rests, c.words = ws ++ c'.words ∧ Listing ws names rests ∧
      args.identifiers = names + (rests.getLast?.toList : Multiset String) := by
  simp [parameters] at run
  obtain ⟨ps, middle, hitems, _, run⟩ := run
  obtain ⟨ws, names, rests, hwords, listing, grow⟩ :=
    listing_of_parameterItems _ ended (by simp [Parameters.Sound]) hitems
  have hfixed := grow.fixed
  have hheld := grow.held none rfl
  simp [Parameters.fixed] at hfixed
  rw [Option.or_none] at hheld
  have hargs : ∀ span, (Node.mk (.arguments ps.args ps.vararg ps.kwonlyargs ps.kwarg)
      span).identifiers = names + (rests.getLast?.toList : Multiset String) := by
    intro span
    rw [← hfixed, ← hheld]
    simp [add_assoc]
  rcases run with ⟨_, rfl, rfl⟩ | ⟨_, run⟩
  · exact ⟨ws, names, rests, hwords, listing, hargs none⟩
  · obtain ⟨rfl, span, rfl, _⟩ := span_of_closeFull run
    exact ⟨ws, names, rests, hwords, listing, hargs span⟩

/-- The words of a function up to the parenthesis that closes its parameters. -/
theorem shares_signature {keep : Retention} {c middle : Cursor} {args : Node} (ended : c.Ended)
    (word : c.atKeyword "def" = true)
    (hname : c.advance.current.kind = .name ∧ isKeyword c.advance.current.text = false)
    (opened : c.advance.advance.atOp "(" = true)
    (hargs : parameters keep c.advance.advance.advance = .ok (args, middle))
    (closed : middle.atOp ")" = true) :
    Shares c [.signature c.advance.current.text args] middle.advance := by
  obtain ⟨hkind, hfree⟩ := hname
  have hdef := word_of_atKeyword word
  have hname : c.advance.current.word = (.name, c.advance.current.text) := by
    rw [Lexeme.word, hkind]
  generalize c.advance.current.text = name at hname hfree
  have hne : name ≠ "def" := by
    rintro rfl
    exact absurd hfree (by decide)
  have hwords₀ := ended.words_advance (kind_ne_of_word hdef (by simp))
  have ended₁ := ended.advance (kind_ne_of_word hdef (by simp))
  have hwords₁ := ended₁.words_advance (kind_ne_of_word hname (by simp))
  have ended₂ := ended₁.advance (kind_ne_of_word hname (by simp))
  have hwords₂ := ended₂.words_advance (kind_ne_of_word (word_of_atOp opened) (by simp))
  obtain ⟨ws, names, rests, hwords, listing, hnames⟩ :=
    listing_of_parameters (ended₂.op opened) hargs
  have hclosed := ((ended₂.op opened).of_words hwords).words_advance
    (kind_ne_of_word (word_of_atOp closed) (by simp))
  have hall : c.words = ((.name, "def") :: (.name, name) :: (.op, "(") :: (ws ++ [(.op, ")")])) ++
      middle.advance.words := by
    rw [hwords₀, hwords₁, hwords₂, hwords, hclosed, hdef, hname, word_of_atOp opened,
      word_of_atOp closed]
    simp
  refine ⟨_, rests.dropLast, hall, ?_, fun rest => ?_, by simp⟩
  · have hkeyword : Word.name (.name, "def") = 0 := by decide
    have hwordName : Word.name (.name, name) = {name} := by simp [Word.name, hfree]
    have hops : Word.name (.op, "(") = 0 ∧ Word.name (.op, ")") = 0 := by decide
    simp [Portion.names, hkeyword, hwordName, hops, listing.names_eq, hnames, coe_eq_getLast_add rests,
      -Multiset.coe_add, -Multiset.singleton_add]
    abel
  · simpa using listing.overwritten_def hne rest

/-! ### Statements -/

/-- Every name of a statement is kept or overwritten. -/
def shares (keep : Retention) : StatementAccount keep where
  expressions := phrases keep
  Reads c ps c' := c.Ended → Shares c ps c'
  nil c _ := by
    have nothing : Phrase true [] 0 := .nil
    exact shares_of_phrase nothing rfl (by simp)
  append first second ended := by
    obtain ⟨ws, lost, hwords, hnames, hlost, hne⟩ := first ended
    obtain ⟨ws', lost', hwords', hnames', hlost', hne'⟩ := second (ended.of_words hwords)
    refine ⟨ws ++ ws', lost ++ lost', ?_, ?_, fun rest => ?_, ?_⟩
    · rw [hwords, hwords', List.append_assoc]
    · rw [namesOf_append, hnames, hnames', ← Multiset.coe_add, List.map_append, List.sum_append]
      abel
    · rw [List.append_assoc, hlost, hlost', List.append_assoc]
    · rintro ⟨p, hp, solid⟩
      rcases List.mem_append.1 hp with hp | hp
      · exact List.append_ne_nil_of_left_ne_nil (hne ⟨p, hp, solid⟩) _
      · exact List.append_ne_nil_of_right_ne_nil _ (hne' ⟨p, hp, solid⟩)
  skip h ended := by
    obtain ⟨hkind, hplain, hname⟩ := plain_of_atGap h
    exact shares_advance ended hkind hplain hname
  word h ended := by
    obtain ⟨hkind, hplain, hname⟩ := plain_of_mem_statementWords _ h
    exact shares_advance ended hkind hplain (by simpa [Portion.names] using hname)
  expression read ended := by
    obtain ⟨ws, hwords, spells⟩ := read ended
    have utters := spells_node_iff.1 spells
    exact shares_of_phrase (by simpa [Portion.names] using utters.phrase) hwords fun _ => utters.ne_nil
  signature word hname opened run closed ended := shares_signature ended word hname opened run closed
  statement read sentence ended := by
    obtain ⟨ws, lost, hwords, hnames, hlost, hne⟩ := read ended
    refine ⟨ws, lost, hwords, ?_, hlost, fun _ => hne sentence.solid⟩
    simpa [Portion.names, -Node.identifiers_mk, sentence.names] using hnames
  block read _ ended := by
    obtain ⟨ws, lost, hwords, hnames, hlost, -⟩ := read ended
    refine ⟨ws, lost, hwords, ?_, hlost, by simp [Portion.isSolid]⟩
    simpa [Portion.names, identifiersOf, Function.comp_def] using hnames

/-- With enough fuel statements are read up to where they stop. -/
theorem stop_of_statements {keep : Retention} {stop : Cursor → Bool} {m : Nat} (n : Nat) {c c' : Cursor}
    {body : List Node} (ended : c.Ended) (hfuel : c.remaining ≤ n)
    (run : statements stop (statement keep m) n c = .ok (body, c')) : stop c' = true := by
  induction n generalizing c body with
  | zero => simp [Cursor.remaining] at hfuel
  | succ n ih =>
      simp [statements] at run
      rcases run with
        ⟨hstop, rfl, rfl⟩ | ⟨_, ⟨newline, hrest⟩ | ⟨_, first, middle, hfirst, rest, hrest, rfl⟩⟩
      · exact hstop
      · obtain ⟨hkind, hplain, hname⟩ := plain_of_atGap (c := c) (by simp [Cursor.atGap, newline])
        have head : Shares c [.word] c.advance := shares_advance ended hkind hplain hname
        have hless := head.less ⟨.word, by simp, rfl⟩
        exact ih (head.ended ended) (by omega) hrest
      · obtain ⟨hne, read⟩ := tells_statement (A := shares keep) m hfirst
        have head : Shares c (first.map .statement) middle := read ended
        obtain ⟨s, hs⟩ := List.exists_mem_of_ne_nil first hne
        have hless := head.less ⟨.statement s, List.mem_map_of_mem hs, rfl⟩
        exact ih (head.ended ended) (by omega) hrest

/-- The names of a module are those among its words, but for those that are overwritten. -/
theorem names_of_module {keep : Retention} {c c' : Cursor} {tree : Node} (ended : c.Ended)
    (run : module keep c = .ok (tree, c')) :
    namesOf c.words = tree.identifiers + (overwritten c.words : Multiset String) := by
  simp [module] at run
  obtain ⟨body, hbody, rfl⟩ := run
  have hstop := stop_of_statements _ ended le_rfl hbody
  have read : (shares keep).Reads _ _ _ := tells_statements (tells_statement _) _ _ hbody
  obtain ⟨ws, lost, hwords, hnames, hlost, -⟩ := read ended
  obtain ⟨text, hend⟩ := (ended.of_words hwords).words_eq (by simpa [Cursor.atKind] using hstop)
  rw [hwords, hlost, hend, namesOf_append, hnames]
  simp [Word.name, overwritten, Portion.names, identifiersOf, Function.comp_def]

end Grammar

/-! ### The names of a text -/

theorem Grammar.Cursor.words_ofLexemes {ls : List Lexeme} (h : ls ≠ []) :
    (Cursor.ofLexemes ls).words = ls.map Lexeme.word := by
  cases ls with
  | nil => exact absurd rfl h
  | cons l ls => rfl

open Grammar in
/-- What the grammar reads of a text are the words of its code, and they end with the end marker. -/
theorem ended_of_tokenize {source : String} {tokens : List Token} (h : tokenize source = .ok tokens)
    {c : Cursor} (index : LineIndex)
    (hc : c = .ofLexemes ((tokens.filter (·.kind ≠ .comment)).map (Token.locate index))) :
    c.words = codeWords tokens ∧ c.Ended := by
  obtain ⟨init, last, rfl, hlast, hinit⟩ := endMarker_last h
  have hcode : codeWords (init ++ [last]) = codeWords init ++ [(.endMarker, last.text)] := by
    rw [codeWords_append, codeWords_word (by simp [hlast]), Token.word, hlast]
  have hlexemes : (((init ++ [last]).filter (·.kind ≠ .comment)).map
      (Token.locate index)).map Lexeme.word = codeWords (init ++ [last]) := by
    rw [List.map_map]
    rfl
  have hwords : c.words = codeWords (init ++ [last]) := by
    rw [hc, Cursor.words_ofLexemes, hlexemes]
    rintro hnil
    rw [hnil, hcode] at hlexemes
    simp at hlexemes
  refine ⟨hwords, codeWords init, last.text, hwords.trans hcode, fun w hw => ?_⟩
  obtain ⟨t, ht, rfl⟩ := List.mem_map.1 hw
  exact hinit t (List.mem_filter.1 ht).1

theorem namesOf_codeWords (tokens : List Token) : namesOf (codeWords tokens) =
    ↑((tokens.filter fun t => t.kind = .name && !isKeyword t.text).map (·.text)) := by
  induction tokens with
  | nil => rfl
  | cons t tokens ih =>
      rw [← List.singleton_append, codeWords_append, namesOf_append, ih, List.filter_append,
        List.map_append, ← Multiset.coe_add]
      congr 1
      by_cases hcomment : t.kind = .comment
      · simp [codeWords, hcomment]
      · rw [codeWords_word hcomment]
        by_cases hname : t.kind = .name ∧ isKeyword t.text = false
        · simp [Token.word, Word.name, hname]
        · rw [not_and, Bool.not_eq_false] at hname
          by_cases hkind : t.kind = .name
          · simp [Token.word, Word.name, hkind, hname hkind]
          · simp [Token.word, Word.name, hkind]

open Grammar in
/-- The names in a text are those that its tree holds and those of rest parameters that are followed
by another one. -/
theorem names_of_parseModule {source : String} {keep : Retention} {tree : Node}
    (h : parseModule source keep = .ok tree) :
    ∃ tokens, tokenize source = .ok tokens ∧
      ((tokens.filter fun t => t.kind = .name && !isKeyword t.text).map (·.text) : Multiset String) =
        tree.identifiers + (overwritten (codeWords tokens) : Multiset String) := by
  obtain ⟨tokens, htokens, c', run⟩ := parseModule_ok.1 h
  refine ⟨tokens, htokens, ?_⟩
  obtain ⟨hwords, ended⟩ := ended_of_tokenize htokens _ rfl
  rw [← namesOf_codeWords, ← hwords]
  exact names_of_module ended run

theorem names_of_nested_function :
    let source := "def f(a, *b, c=g(k=d, **e), **h):\n  def p(**q, **r): return a.b[q]\n"
    ∃ tree, parseModule source .native = .ok tree ∧ ∃ tokens, tokenize source = .ok tokens ∧
      ((tokens.filter fun t => t.kind = .name && !isKeyword t.text).map (·.text) : Multiset String) =
        tree.identifiers + (overwritten (codeWords tokens) : Multiset String) := by
  intro source
  have hread : (parseModule source .native).isOk = true := by decide +kernel
  cases h : parseModule source .native with
  | error e => simp [h, Except.isOk, Except.toBool] at hread
  | ok tree => exact ⟨tree, rfl, names_of_parseModule h⟩

/-- Of two parameters after two stars the first is lost. -/
theorem rest_parameter_overwritten :
    let source := "def f(**a, **b): pass"
    (tokenize source).map (fun tokens =>
      (tokens.filter fun t => t.kind = .name && !isKeyword t.text).map (·.text)) =
        .ok ["f", "a", "b"] ∧
    (parseModule source .native).map Node.identifiers = .ok {"f", "b"} ∧
    ({"f", "b"} : Multiset String) ≠ ↑["f", "a", "b"] := by
  refine ⟨?_, ?_, ?_⟩ <;> decide +kernel

end TriviaTree
