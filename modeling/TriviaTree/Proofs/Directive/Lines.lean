import Mathlib
import TriviaTree.Proofs.Directive.Matching
import TriviaTree.Proofs.Printing.Inline

/-!
Directives printed and recognised again.

The line of a directive is its marker and keywords (`Marker.lead`), then its payload, each with a space
before it (`toList_line`). On that line its own form fits, and a longer one only if it goes on with
keywords from the payload (`classify_line_iff`). Where the payload is the text after the keywords
as it was found, but for the blanks around it, no form fits the line that did not fit the comment
(`afterKeywords?_respaced`), so the line is classified as the comment was (`classify_respaced`).
-/

set_option autoImplicit false

namespace TriviaTree

variable {cs rest text : List Char} {keywords : List String} {payload : Payload Node}
  {d : Directive Node} {found : Recognized}

namespace Text

/-- A text with its blanks in front replaced by one space and without those at its end. -/
def respaced (cs : List Char) : List Char :=
  if trim cs = [] then [] else ' ' :: trim cs

theorem trimStart_of_head (h : ∀ c ∈ cs.head?, isBlank c = false) : trimStart cs = cs := by
  cases cs with
  | nil => rfl
  | cons c cs => simp [trimStart, h c rfl]

theorem trimStart_space (cs : List Char) : trimStart (' ' :: cs) = trimStart cs := by
  have hblank : isBlank ' ' = true := by decide
  simp [trimStart, hblank]

theorem trim_space (cs : List Char) : trim (' ' :: cs) = trim cs := by
  rw [trim, trimStart_space, trim]

theorem head_trimStart (cs : List Char) : ∀ c ∈ (trimStart cs).head?, isBlank c = false := by
  intro c hc
  have hhead := List.head?_dropWhile_not isBlank cs
  rw [show cs.dropWhile isBlank = trimStart cs from rfl, Option.mem_def.1 hc] at hhead
  simpa using hhead

theorem head_trim (cs : List Char) : ∀ c ∈ (trim cs).head?, isBlank c = false := by
  intro c hc
  obtain ⟨tail, htail, -⟩ := trimEnd_append (trimStart cs)
  refine head_trimStart cs c ?_
  rw [← htail, List.head?_append]
  exact (Option.mem_def.1 hc) ▸ rfl

theorem trimEnd_trimEnd (cs : List Char) : trimEnd (trimEnd cs) = trimEnd cs := by
  rw [trimEnd, trimEnd, List.reverse_reverse]
  exact congrArg List.reverse (trimStart_of_head (head_trimStart cs.reverse))

@[simp] theorem trim_trim (cs : List Char) : trim (trim cs) = trim cs := by
  rw [trim, trimStart_of_head (head_trim cs), trim, trimEnd_trimEnd]

theorem isBlank_head_respaced (cs : List Char) : ∀ c ∈ (respaced cs).head?, isBlank c = true := by
  unfold respaced
  split
  · simp
  · simp only [List.head?_cons, Option.mem_some_iff, forall_eq']
    decide

theorem trimStart_respaced (cs : List Char) : trimStart (respaced cs) = trim cs := by
  unfold respaced
  split
  · next hempty => rw [hempty]; rfl
  · rw [trimStart_space, trimStart_of_head (head_trim cs)]

theorem trim_respaced (cs : List Char) : trim (respaced cs) = trim cs := by
  rw [trim, trimStart_respaced, trim, trimEnd_trimEnd]

theorem IsTight.trim_eq (h : IsTight cs) : trim cs = cs := by
  obtain ⟨⟨c, hc, hblank⟩, d, hd, hblank'⟩ := h
  obtain ⟨tail, rfl⟩ := List.head?_eq_some_iff.1 hc
  obtain ⟨front, hfront⟩ := List.getLast?_eq_some_iff.1 hd
  have hstart : trimStart (c :: tail) = c :: tail := by simp [trimStart, hblank]
  rw [trim, hstart, hfront]
  simp [trimEnd, hblank']

theorem IsTight.isEmpty (h : IsTight cs) : cs.isEmpty = false := by
  obtain ⟨⟨c, hc, -⟩, -⟩ := h
  obtain ⟨tail, rfl⟩ := List.head?_eq_some_iff.1 hc
  rfl

theorem IsTight.append_cons {ds : List Char} (h : IsTight cs) (h' : IsTight ds) (c : Char) :
    IsTight (cs ++ c :: ds) := by
  obtain ⟨⟨first, hfirst, hblank⟩, -⟩ := h
  obtain ⟨-, last, hlast, hblank'⟩ := h'
  refine ⟨⟨first, ?_, hblank⟩, last, ?_, hblank'⟩
  · rw [List.head?_append, hfirst]
    rfl
  · rw [List.getLast?_append, List.getLast?_cons, hlast]
    rfl

end Text

/-! ### What is printed of a directive -/

/-- Keywords with a space before each but the first, which may have a colon. -/
def spoken (colon : Bool) : List String → List Char
  | [] => if colon then [':'] else []
  | first :: keywords =>
      first.toList ++ ((if colon then [':'] else []) ++ keywords.flatMap fun word => ' ' :: word.toList)

/-- What is printed of a directive between its `#` and its payload. -/
def Marker.lead (marker : Marker) (keywords : List String) : List Char :=
  (if marker.padded then [' '] else []) ++ spoken marker.colon keywords

/-- What is printed of a payload. -/
def Payload.printed : Payload Node → List Char
  | .empty => []
  | .expression value => ' ' :: value.lineText
  | .symbol name => ' ' :: name.toList
  | .definition name none => ' ' :: name.toList
  | .definition name (some value) => ' ' :: (name.toList ++ ' ' :: value.lineText)
  | .header path .angle => ' ' :: '<' :: (path.toList ++ ['>'])
  | .header path .quoted => ' ' :: '"' :: (path.toList ++ ['"'])
  | .header path .bare => ' ' :: path.toList
  | .clauses list => list.flatMap fun clause => ' ' :: clause.text.toList
  | .raw text => ' ' :: text.toList

theorem Payload.isBlank_head_printed (payload : Payload Node) :
    ∀ c ∈ payload.printed.head?, Text.isBlank c = true := by
  have hspace : Text.isBlank ' ' = true := by decide
  cases payload with
  | clauses list => cases list <;> simp [printed, hspace]
  | definition _ value => cases value <;> simp [printed, hspace]
  | header _ form => cases form <;> simp [printed, hspace]
  | _ => simp [printed, hspace]

theorem all_texts (texts : List String) (page : Page) :
    Action.all (texts.map .text) page = page.write (String.ofList (texts.flatMap String.toList)) := by
  induction texts generalizing page with
  | nil => rfl
  | cons text texts ih =>
      rw [List.map_cons, Action.all_cons, ih, Action.text_apply, ← Page.write_append]
      refine congrArg page.write (String.toList_inj.1 ?_)
      simp

theorem writeDirective_empty {α : Type} (d : Directive α) (page : Page) :
    writeDirective d .empty page =
      page.write (String.ofList ('#' :: d.marker.lead d.keywords)) := by
  obtain ⟨family, keywords, payload, ⟨padded, colon⟩⟩ := d
  cases keywords with
  | nil =>
      cases padded <;> cases colon <;>
        simp [writeDirective, Marker.lead, spoken, ← Page.write_append]
  | cons first rest =>
      have hrest : (rest.map fun word => Action.text (" " ++ word)) =
          (rest.map (" " ++ ·)).map .text := by
        simp
      simp only [writeDirective, Action.all_append, Action.all_cons, Action.all_nil, hrest, all_texts,
        Action.text_apply, ← Page.write_append]
      refine congrArg page.write (String.toList_inj.1 ?_)
      cases padded <;> cases colon <;> simp [Marker.lead, spoken, List.flatMap_map]

/-- A directive is written as one text, when its expressions are. -/
theorem writeDirective_eq (h : ∀ e ∈ d.payload.expressions,
    render .trivia e (.inline .tuple) = .text (String.ofList e.lineText)) :
    writeDirective d (renderPayload d.payload) =
      .text (String.ofList ('#' :: (d.marker.lead d.keywords ++ d.payload.printed))) := by
  have hpayload : ∃ texts : List String, (∀ page, writeDirective d (renderPayload d.payload) page =
      Action.all (texts.map .text) (writeDirective d .empty page)) ∧
      texts.flatMap String.toList = d.payload.printed := by
    obtain ⟨family, keywords, payload, marker⟩ := d
    cases payload with
    | empty => exact ⟨[], fun page => rfl, rfl⟩
    | expression value =>
        refine ⟨[" ", String.ofList value.lineText], fun page => ?_, by simp [Payload.printed]⟩
        simp [renderPayload, writeDirective, h value (by simp [Payload.expressions])]
    | definition name value =>
        cases value with
        | none =>
            exact ⟨[" " ++ name], fun page => by simp [renderPayload, writeDirective], by
              simp [Payload.printed]⟩
        | some value =>
            refine ⟨[" " ++ name ++ " ", String.ofList value.lineText], fun page => ?_, by
              simp [Payload.printed]⟩
            simp [renderPayload, writeDirective, h value (by simp [Payload.expressions])]
    | symbol name | raw name =>
        exact ⟨[" " ++ name], fun page => by simp [renderPayload, writeDirective], by
          simp [Payload.printed]⟩
    | header path form =>
        cases form with
        | bare =>
            exact ⟨[" " ++ path], fun page => by simp [renderPayload, writeDirective], by
              simp [Payload.printed]⟩
        | angle =>
            exact ⟨[" <" ++ path ++ ">"], fun page => by simp [renderPayload, writeDirective], by
              simp [Payload.printed]⟩
        | quoted =>
            exact ⟨[" \"" ++ path ++ "\""], fun page => by simp [renderPayload, writeDirective], by
              simp [Payload.printed]⟩
    | clauses list =>
        refine ⟨list.map (" " ++ ·.text), fun page => ?_, by simp [Payload.printed, List.flatMap_map]⟩
        simp [renderPayload, writeDirective, Function.comp_def]
  obtain ⟨texts, hbody, hprinted⟩ := hpayload
  refine funext fun page => ?_
  rw [hbody, all_texts, hprinted, writeDirective_empty, ← Page.write_append, ← String.ofList_append]
  rfl

theorem toList_line {options : PageOptions} (h : ∀ e ∈ d.payload.expressions,
    render .trivia e (.inline .tuple) = .text (String.ofList e.lineText)) :
    (d.line options).toList = '#' :: (d.marker.lead d.keywords ++ d.payload.printed) := by
  rw [Directive.line, writeDirective_eq h]
  simp [Page.write, Page.blank]

/-! ### The keywords of a printed line -/

theorem endsKeyword_of_head (h : ∀ c ∈ cs.head?, Text.isBlank c = true) :
    endsKeyword cs = true := by
  cases cs with
  | nil => rfl
  | cons c cs => simp [endsKeyword, h c rfl]

theorem isBlank_head_spoken (keywords : List String) {tail : List Char}
    (htail : ∀ c ∈ tail.head?, Text.isBlank c = true) :
    ∀ c ∈ ((keywords.flatMap fun word => ' ' :: word.toList) ++ tail).head?, Text.isBlank c = true := by
  cases keywords with
  | nil => exact htail
  | cons keyword keywords =>
      rintro _ ⟨⟩
      decide

theorem afterKeywords?_spoken (hwords : ∀ keyword ∈ keywords, Text.IsWord keyword.toList)
    (glued : Bool) {tail : List Char} (htail : ∀ c ∈ tail.head?, Text.isBlank c = true) :
    afterKeywords? glued keywords ((keywords.flatMap fun word => ' ' :: word.toList) ++ tail) =
      some tail := by
  induction keywords generalizing glued with
  | nil => rfl
  | cons keyword keywords ih =>
      rw [List.forall_mem_cons] at hwords
      set later := (keywords.flatMap fun word => ' ' :: word.toList) ++ tail with hlater
      have htrim : Text.trimStart (' ' :: (keyword.toList ++ later)) = keyword.toList ++ later := by
        rw [Text.trimStart_space, Text.trimStart_of_head (hwords.1.isBlank_head _)]
      rw [List.flatMap_cons, List.append_assoc, List.cons_append, ← hlater, afterKeywords?_cons_eq_some,
        htrim]
      exact ⟨.inr (by simp), later, rfl, endsKeyword_of_head (isBlank_head_spoken _ htail),
        ih hwords.2 false⟩

section Recognition

variable {form : DirectiveForm} (hform : form ∈ directiveTable) {marker : Marker}
  (hmarker : marker.padded = true → marker.colon = true) {tail : List Char}
  (htail : ∀ c ∈ tail.head?, Text.isBlank c = true)

include hform hmarker htail

/-- The keywords of a directive are found on its line. -/
theorem recognize?_lead : form.recognize? (marker.lead form.keywords ++ tail) =
    some ⟨form, marker, tail⟩ := by
  obtain ⟨hne, hwords⟩ := orderly_directiveTable.words form hform
  obtain ⟨padded, colon⟩ := marker
  obtain ⟨first, keywords, hkeywords⟩ := List.exists_cons_of_ne_nil hne
  rw [hkeywords, List.forall_mem_cons] at hwords
  let later := (keywords.flatMap fun word => ' ' :: word.toList) ++ tail
  have hspoken : spoken colon form.keywords ++ tail =
      first.toList ++ ((if colon then [':'] else []) ++ later) := by
    simp [hkeywords, spoken, later]
  have htrim : Text.trimStart (Marker.lead ⟨padded, colon⟩ form.keywords ++ tail) =
      spoken colon form.keywords ++ tail := by
    have hhead := hwords.1.isBlank_head ((if colon then [':'] else []) ++ later)
    rw [← hspoken] at hhead
    cases padded with
    | false => exact Text.trimStart_of_head hhead
    | true =>
        exact (Text.trimStart_space _).trans (Text.trimStart_of_head hhead)
  have hpadded : padded = decide (spoken colon form.keywords ++ tail ≠
      Marker.lead ⟨padded, colon⟩ form.keywords ++ tail) := by
    cases padded with
    | false => simp [Marker.lead]
    | true =>
        have hne : spoken colon form.keywords ++ tail ≠ Marker.lead ⟨true, colon⟩ form.keywords ++ tail :=
          fun h => by simpa [Marker.lead] using congrArg List.length h
        exact (decide_eq_true hne).symm
  refine DirectiveForm.recognize?_eq_some.2 ⟨rfl, ?_, htrim ▸ hpadded, hmarker⟩
  rw [htrim, hspoken, DirectiveForm.match?_eq_some hkeywords]
  refine ⟨later, afterFirstKeyword?_eq_some.2 ⟨_, rfl, ?_⟩, afterKeywords?_spoken hwords.2 _ htail⟩
  cases colon with
  | true => rfl
  | false => exact ⟨rfl, endsKeyword_of_head (isBlank_head_spoken _ htail)⟩

end Recognition

/-! ### Longer keyword sequences -/

/-- A form that continues one that fits does so with the text after it. -/
theorem DirectiveForm.fits_append {form form' : DirectiveForm} {more : List String}
    (hne : form.keywords ≠ []) (hmore : form'.keywords = form.keywords ++ more)
    (hfound : form.recognize? text = some found) :
    form'.Fits text ↔ ∃ rest,
      afterKeywords? (found.marker.colon && form.keywords.tail.isEmpty) more found.rest = some rest := by
  obtain ⟨first, keywords, hkeywords⟩ := List.exists_cons_of_ne_nil hne
  rw [hkeywords] at hmore
  obtain ⟨-, hmatch, hpadded, hcolon⟩ := recognize?_eq_some.1 hfound
  obtain ⟨later, hfirst, hlater⟩ := (match?_eq_some hkeywords).1 hmatch
  simp only [Fits, match?_eq_some hmore, hkeywords, List.tail_cons]
  constructor
  · rintro ⟨colon, rest, ⟨later', hfirst', hlater'⟩, -⟩
    obtain ⟨rfl, rfl⟩ : found.marker.colon = colon ∧ later = later' := by
      simpa using hfirst.symm.trans hfirst'
    obtain ⟨_, hsame, hrest⟩ := afterKeywords?_append_eq_some.1 hlater'
    obtain rfl := Option.some.inj (hlater.symm.trans hsame)
    exact ⟨rest, hrest⟩
  · rintro ⟨rest, hrest⟩
    refine ⟨_, rest, ⟨later, hfirst, afterKeywords?_append_eq_some.2 ⟨_, hlater, hrest⟩⟩, ?_⟩
    exact or_iff_not_imp_left.2 fun h => hcolon (by rw [hpadded, decide_eq_true h])

/-- A form that fits is found unless the text goes on with the keywords of a longer one. -/
theorem recognize?_iff_continued {families : List Family} {form : DirectiveForm}
    (hform : form ∈ directiveTable) (hfamily : form.family ∈ families)
    (hfound : form.recognize? text = some found) :
    recognize? families text = some found ↔
      ∀ form' ∈ directiveTable, form'.family ∈ families → ∀ more ≠ [],
        form'.keywords = form.keywords ++ more → ∀ rest,
          afterKeywords? (found.marker.colon && form.keywords.tail.isEmpty) more found.rest ≠
            some rest := by
  have hne := (orderly_directiveTable.words form hform).1
  have hfits := DirectiveForm.fits_iff.2 ⟨_, hfound⟩
  obtain rfl := (DirectiveForm.recognize?_eq_some.1 hfound).1
  constructor
  · intro h form' hform' hfamily' more hmore hkeywords rest hrest
    have hstarts := (recognize?_eq_some.1 h).2.2 form' hform' hfamily'
      ((DirectiveForm.fits_append hne hkeywords hfound).2 ⟨rest, hrest⟩)
    have hlength := hstarts.length_le
    rw [hkeywords, List.length_append] at hlength
    exact hmore (List.length_eq_zero_iff.1 (by omega))
  · intro h
    refine recognize?_eq_some.2 ⟨⟨hform, hfamily⟩, hfound, fun form' hform' hfamily' hfits' => ?_⟩
    refine (hfits'.comparable orderly_directiveTable hform' hform hfits).elim id ?_
    rintro ⟨more, hkeywords⟩
    obtain ⟨rest, hrest⟩ := (DirectiveForm.fits_append hne hkeywords.symm hfound).1 hfits'
    by_cases hmore : more = []
    · rw [← hkeywords, hmore, List.append_nil]
    · exact absurd hrest (h form' hform' hfamily' more hmore hkeywords.symm rest)

theorem classify_eq_directive {classifier : Classifier} {raw : String} :
    classifier.classify raw = .ok (.directive d) ↔ classifier.enabled = true ∧ ∃ rest,
      recognize? classifier.families raw.toList = some ⟨⟨d.family, d.keywords⟩, d.marker, rest⟩ ∧
      parsePayload d.family (Text.trim rest) = .ok d.payload := by
  obtain ⟨family, keywords, payload, marker⟩ := d
  rw [Classifier.classify, Classifier.recognize?]
  cases classifier.enabled with
  | false => simp
  | true =>
      cases recognize? classifier.families raw.toList with
      | none => simp
      | some found =>
          obtain ⟨⟨family', keywords'⟩, marker', rest⟩ := found
          cases hpayload : parsePayload family' (Text.trim rest) <;> simp <;> grind

/-- What the line of a directive is classified as is told from the text after its keywords. -/
theorem classify_line_iff {classifier : Classifier} (henabled : classifier.enabled = true)
    (hform : ⟨d.family, d.keywords⟩ ∈ directiveTable) (hfamily : d.family ∈ classifier.families)
    (hmarker : d.marker.padded = true → d.marker.colon = true) {options : PageOptions}
    {tail : List Char} (hline : (d.line options).toList = '#' :: (d.marker.lead d.keywords ++ tail))
    (htail : ∀ c ∈ tail.head?, Text.isBlank c = true) :
    classifier.classify (String.ofList ((d.line options).toList.drop 1)) =
        .ok (.directive { d with payload := payload }) ↔
      (∀ form ∈ directiveTable, form.family ∈ classifier.families → ∀ more ≠ [],
        form.keywords = d.keywords ++ more → ∀ rest,
          afterKeywords? (d.marker.colon && d.keywords.tail.isEmpty) more tail ≠ some rest) ∧
      parsePayload d.family (Text.trim tail) = .ok payload := by
  have hlead := recognize?_lead hform hmarker htail
  rw [hline, List.drop_one, List.tail_cons, classify_eq_directive, String.toList_ofList,
    ← recognize?_iff_continued hform hfamily hlead]
  constructor
  · rintro ⟨-, rest, hfound, hpayload⟩
    have hsame := (recognize?_eq_some.1 hfound).2.1.symm.trans hlead
    obtain rfl : rest = tail := by simpa using hsame
    exact ⟨hfound, hpayload⟩
  · exact fun ⟨hfound, hpayload⟩ => ⟨henabled, tail, hfound, hpayload⟩

/-! ### Blanks around the payload -/

theorem endsKeyword_append_blanks {blanks : List Char} (h : endsKeyword cs = true)
    (hblanks : ∀ c ∈ blanks, Text.isBlank c = true) : endsKeyword (cs ++ blanks) = true := by
  cases cs with
  | nil => exact endsKeyword_of_head fun c hc => hblanks c (List.mem_of_mem_head? hc)
  | cons c cs => exact h

/-- Blanks at the end of a text are after its keywords. -/
theorem afterKeywords?_append_blanks (hwords : ∀ keyword ∈ keywords, Text.IsWord keyword.toList)
    {glued : Bool} {blanks : List Char} (hblanks : ∀ c ∈ blanks, Text.isBlank c = true)
    (h : afterKeywords? glued keywords cs = some rest) :
    ∃ rest', afterKeywords? glued keywords (cs ++ blanks) = some rest' := by
  induction keywords generalizing glued cs with
  | nil => exact ⟨_, rfl⟩
  | cons keyword keywords ih =>
      rw [List.forall_mem_cons] at hwords
      obtain ⟨hspace, later, htrim, hends, hlater⟩ := afterKeywords?_cons_eq_some.1 h
      have htrim' : Text.trimStart (cs ++ blanks) = Text.trimStart cs ++ blanks := by
        rw [Text.trimStart, List.dropWhile_append, if_neg, Text.trimStart]
        rw [show cs.dropWhile Text.isBlank = _ from htrim]
        simp [hwords.1.1]
      obtain ⟨rest', hrest'⟩ := ih hwords.2 hlater
      refine ⟨rest', afterKeywords?_cons_eq_some.2 ⟨hspace.imp id fun hne => ?_, later ++ blanks, ?_,
        endsKeyword_append_blanks hends hblanks, hrest'⟩⟩
      · rw [htrim', List.length_append, List.length_append]
        omega
      · rw [htrim', htrim, List.append_assoc]

/-- Keywords that follow a text with its blanks replaced follow the text itself. -/
theorem afterKeywords?_respaced (hne : keywords ≠ [])
    (hwords : ∀ keyword ∈ keywords, Text.IsWord keyword.toList) {glued : Bool}
    (hcs : glued = true ∨ endsKeyword cs = true)
    (h : afterKeywords? glued keywords (Text.respaced cs) = some rest) :
    ∃ rest', afterKeywords? glued keywords cs = some rest' := by
  obtain ⟨keyword, keywords, rfl⟩ := List.exists_cons_of_ne_nil hne
  rw [List.forall_mem_cons] at hwords
  obtain ⟨-, later, hlater, hends, hrest⟩ := afterKeywords?_cons_eq_some.1 h
  obtain ⟨blanks, htrim, hblanks⟩ := Text.trimEnd_append (Text.trimStart cs)
  replace hlater : Text.trimStart cs = keyword.toList ++ (later ++ blanks) := by
    rw [← List.append_assoc, ← hlater, Text.trimStart_respaced]
    exact htrim.symm
  obtain ⟨rest', hrest'⟩ := afterKeywords?_append_blanks hwords.2 hblanks hrest
  refine ⟨rest', afterKeywords?_cons_eq_some.2 ⟨hcs.imp id fun hends' hlength => ?_, later ++ blanks,
    hlater, endsKeyword_append_blanks hends hblanks, hrest'⟩⟩
  -- a keyword that no blank stands before is part of what ends the last one
  rw [(Text.trimStart_length cs).1 hlength] at hlater
  obtain ⟨c, word, hword⟩ := List.exists_cons_of_ne_nil hwords.1.1
  have hpart := hwords.1.2 c (by simp [hword])
  have hnone := isNamePart_of_endsKeyword hends' c (by simp [hlater, hword])
  rw [hpart] at hnone
  cases hnone

theorem endsKeyword_of_afterKeywords? (hne : keywords ≠ []) {glued : Bool}
    (h : afterKeywords? glued keywords cs = some rest) : endsKeyword rest = true := by
  induction keywords generalizing glued cs with
  | nil => exact absurd rfl hne
  | cons keyword keywords ih =>
      obtain ⟨-, later, -, hends, hlater⟩ := afterKeywords?_cons_eq_some.1 h
      by_cases hlast : keywords = []
      · subst hlast
        obtain rfl := Option.some.inj hlater
        exact hends
      · exact ih hlast hlater

theorem DirectiveForm.endsKeyword_rest {form : DirectiveForm} (hne : form.keywords ≠ [])
    (hfound : form.recognize? text = some found) :
    (found.marker.colon && form.keywords.tail.isEmpty) = true ∨ endsKeyword found.rest = true := by
  obtain ⟨first, keywords, hkeywords⟩ := List.exists_cons_of_ne_nil hne
  obtain ⟨-, hmatch, -, -⟩ := recognize?_eq_some.1 hfound
  obtain ⟨later, hfirst, hlater⟩ := (match?_eq_some hkeywords).1 hmatch
  by_cases hone : keywords = []
  · subst hone
    obtain rfl := Option.some.inj hlater
    obtain ⟨_, -, hcolon⟩ := afterFirstKeyword?_eq_some.1 hfirst
    cases hmarker : found.marker.colon with
    | true => simp [hkeywords]
    | false =>
        rw [hmarker] at hcolon
        exact .inr hcolon.2
  · exact .inr (endsKeyword_of_afterKeywords? hone hlater)

/-! ### Payloads that are kept as they are written -/

/-- The families whose payload is a name, a path or any text. -/
def verbatimFamilies : List Family :=
  [.pragma, .inclusion, .ifdef, .ifndef, .undef, .otherwise, .endif]

theorem delimitedPath?_eq_some {opener closer : Char} {path : List Char}
    (h : delimitedPath? opener closer cs = some path) : cs = opener :: (path ++ [closer]) := by
  cases cs with
  | nil => cases h
  | cons c cs =>
      simp only [delimitedPath?, Option.ite_none_right_eq_some, Bool.and_eq_true, decide_eq_true_eq,
        Option.some.injEq] at h
      obtain ⟨⟨⟨rfl, hlast⟩, -⟩, rfl⟩ := h
      rw [List.dropLast_append_getLast?]
      exact hlast

/-- A payload that holds what was written, or nothing. -/
def Payload.isVerbatim : Payload Node → Bool
  | .empty | .symbol _ | .header .. | .raw _ => true
  | _ => false

/-- What such a payload is printed as is the text it was read from. -/
structure Payload.Keeps (payload : Payload Node) (text : List Char) : Prop where
  verbatim : payload.isVerbatim = true
  printed : payload.printed = if text = [] then [] else ' ' :: text

theorem keeps_of_parseHeader (h : parseHeader text = .ok payload) : payload.Keeps text := by
  simp only [parseHeader] at h
  split at h
  · split at h <;> cases h
    next path hpath => exact ⟨rfl, by simp [Payload.printed, delimitedPath?_eq_some hpath]⟩
  · split at h <;> cases h
    next path hpath => exact ⟨rfl, by simp [Payload.printed, delimitedPath?_eq_some hpath]⟩
  · split at h <;> cases h
    next hbare =>
    have hne : text ≠ [] := by
      rintro rfl
      exact hbare rfl
    exact ⟨rfl, by simp [Payload.printed, hne]⟩

theorem keeps_of_parsePayload {family : Family} (hfamily : family ∈ verbatimFamilies)
    (h : parsePayload family text = .ok payload) : payload.Keeps text := by
  have hsymbol : ∀ {fault : DirectiveFault}, (if Text.isIdentifier text then
      Except.ok (Payload.symbol (String.ofList text)) else .error fault) = .ok payload →
      payload.Keeps text := by
    intro fault h
    split at h <;> cases h
    have hne : text ≠ [] := by
      rintro rfl
      contradiction
    exact ⟨rfl, by simp [Payload.printed, hne]⟩
  have hempty : ∀ {fault : DirectiveFault}, (if text.isEmpty then
      Except.ok Payload.empty else .error fault) = .ok payload → payload.Keeps text := by
    intro fault h
    split at h <;> cases h
    exact ⟨rfl, by simp_all [Payload.printed]⟩
  simp only [verbatimFamilies, List.mem_cons, List.not_mem_nil, or_false] at hfamily
  rcases hfamily with rfl | rfl | rfl | rfl | rfl | rfl | rfl
  · obtain rfl := Except.ok.inj h
    cases text <;> exact ⟨rfl, by simp [Payload.printed]⟩
  · exact keeps_of_parseHeader h
  · exact hsymbol h
  · exact hsymbol h
  · exact hsymbol h
  · exact hempty h
  · exact hempty h

theorem Payload.expressions_of_isVerbatim (h : payload.isVerbatim = true) :
    payload.expressions = [] := by
  cases payload <;> simp_all [isVerbatim, expressions]

/-- A directive whose payload is a name, a path or any text is read again from its line, under any
choice of families. -/
theorem classify_respaced {classifier : Classifier} {raw : String} {d : Directive Node}
    (h : classifier.classify raw = .ok (.directive d)) (hfamily : d.family ∈ verbatimFamilies)
    (options : PageOptions) :
    classifier.classify (String.ofList ((d.line options).toList.drop 1)) = .ok (.directive d) := by
  obtain ⟨henabled, rest, hfound, hpayload⟩ := classify_eq_directive.1 h
  obtain ⟨⟨hform, hlisted⟩, hown, -⟩ := recognize?_eq_some.1 hfound
  have hne := (orderly_directiveTable.words _ hform).1
  obtain ⟨hverbatim, hprinted⟩ := keeps_of_parsePayload hfamily hpayload
  have hline : (d.line options).toList = '#' :: (d.marker.lead d.keywords ++ Text.respaced rest) := by
    rw [toList_line (by simp [Payload.expressions_of_isVerbatim hverbatim]), hprinted]
    rfl
  refine (classify_line_iff henabled hform hlisted (DirectiveForm.recognize?_eq_some.1 hown).2.2.2
    hline (Text.isBlank_head_respaced rest)).2 ⟨?_, by rw [Text.trim_respaced, hpayload]⟩
  -- keywords that the line goes on with are keywords that the comment went on with
  intro form' hform' hfamily' more hmore hkeywords later hlater
  have hwords : ∀ keyword ∈ more, Text.IsWord keyword.toList := fun keyword hkeyword =>
    (orderly_directiveTable.words form' hform').2 keyword (by simp [hkeywords, hkeyword])
  obtain ⟨later', hlater'⟩ := afterKeywords?_respaced hmore hwords
    (DirectiveForm.endsKeyword_rest hne hown) hlater
  exact (recognize?_iff_continued hform hlisted hown).1 hfound form' hform' hfamily' more hmore
    hkeywords later' hlater'

theorem classify_respaced_unlisted :
    let classifier : Classifier := ⟨true, [.openMp, .pragma]⟩
    let raw := "\tpragma:\u3000acc,\t(omp) "
    let d : Directive Node := ⟨.pragma, ["pragma"], .raw "acc,\t(omp)", ⟨true, true⟩⟩
    classifier.classify raw = .ok (.directive d) ∧ d.line .standard = "# pragma: acc,\t(omp)" ∧
      classifier.classify (String.ofList ((d.line .standard).toList.drop 1)) =
        .ok (.directive d) := by
  intro classifier raw d
  have hclassify : classifier.classify raw = .ok (.directive d) :=
    classify_eq_directive.2 ⟨rfl, "\u3000acc,\t(omp) ".toList, by decide +kernel, rfl⟩
  exact ⟨hclassify, by decide +kernel, classify_respaced hclassify (by decide) .standard⟩

end TriviaTree
