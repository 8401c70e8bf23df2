import Mathlib
import TriviaTree.Directive.Classify
import TriviaTree.Proofs.Token.Endings

/-!
Which directive a comment is: the one with the longest keyword sequence.

A keyword is a word, and what ends it is no part of a word, so a text has at most one keyword at
each place. Hence of two keyword sequences that fit a text one continues the other
(`DirectiveForm.Fits.comparable`), and the first of a list sorted by length is the longest of all
(`findSome?_recognize_iff`). Which forms of a list fit does not depend on their order, so neither
does the longest.
-/

set_option autoImplicit false

namespace TriviaTree

variable {cs rest rest' text : List Char} {keywords : List String} {form : DirectiveForm}
  {keyword : String} {forms : List DirectiveForm} {found : Recognized}

/-! ### Keywords -/

/-- The text is a word: nothing that ends a keyword is in it. -/
def Text.IsWord (cs : List Char) : Prop :=
  cs ≠ [] ∧ ∀ c ∈ cs, isNamePart c = true

theorem Text.IsWord.isBlank_head (h : IsWord cs) (rest : List Char) :
    ∀ c ∈ (cs ++ rest).head?, isBlank c = false := by
  obtain ⟨c, cs, rfl⟩ := List.exists_cons_of_ne_nil h.1
  rintro _ ⟨⟩
  exact isBlank_of_isNamePart (h.2 c List.mem_cons_self)

/-- A word ends where the parts of a word end. -/
theorem Text.IsWord.cut {word word' : List Char} (hword : IsWord word) (hword' : IsWord word')
    (hrest : ∀ c ∈ rest.head?, isNamePart c = false)
    (hrest' : ∀ c ∈ rest'.head?, isNamePart c = false) (h : word ++ rest = word' ++ rest') :
    word = word' ∧ rest = rest' := by
  have hcut : ∀ {w r : List Char}, IsWord w → (∀ c ∈ r.head?, isNamePart c = false) →
      (w ++ r).takeWhile isNamePart = w := by
    intro w r hw hr
    rw [List.takeWhile_append_of_pos hw.2]
    cases r with
    | nil => simp
    | cons c r => simp [hr c rfl]
  obtain rfl : word = word' := by rw [← hcut hword hrest, h, hcut hword' hrest']
  exact ⟨rfl, List.append_cancel_left h⟩

theorem isNamePart_of_endsKeyword (h : endsKeyword cs = true) :
    ∀ c ∈ cs.head?, Text.isNamePart c = false := by
  cases cs with
  | nil => simp
  | cons c cs =>
      rintro _ ⟨⟩
      simp only [endsKeyword, Bool.or_eq_true, decide_eq_true_eq] at h
      by_contra hpart
      rw [Bool.not_eq_false] at hpart
      rcases h with hblank | rfl
      · rw [Text.isBlank_of_isNamePart hpart] at hblank
        cases hblank
      · exact absurd hpart (by decide)

theorem endsKeyword_colon (rest : List Char) : endsKeyword (':' :: rest) = false := by
  have hcolon : Text.isBlank ':' = false := by decide
  simp [endsKeyword, hcolon]

theorem afterStart_eq_some {start : List Char} :
    Text.afterStart start cs = some rest ↔ cs = start ++ rest :=
  ⟨fun h => (Token.afterStart_append h).symm, fun h => h ▸ afterStart_self start rest⟩

theorem afterKeyword?_eq_some :
    afterKeyword? keyword cs = some rest ↔ cs = keyword.toList ++ rest ∧ endsKeyword rest = true := by
  simp only [afterKeyword?, Option.bind_eq_some_iff, afterStart_eq_some, Option.ite_none_right_eq_some,
    Option.some.injEq]
  constructor
  · rintro ⟨_, hcs, hends, rfl⟩
    exact ⟨hcs, hends⟩
  · rintro ⟨hcs, hends⟩
    exact ⟨rest, hcs, hends, rfl⟩

theorem afterFirstKeyword?_eq_some {colon : Bool} :
    afterFirstKeyword? keyword cs = some (colon, rest) ↔
      ∃ later, cs = keyword.toList ++ later ∧
        if colon then later = ':' :: rest else later = rest ∧ endsKeyword rest = true := by
  unfold afterFirstKeyword?
  split
  · next hnone =>
    simp only [reduceCtorEq, false_iff]
    rintro ⟨later, hcs, -⟩
    rw [afterStart_eq_some.2 hcs] at hnone
    cases hnone
  all_goals
    next hsome =>
    rw [afterStart_eq_some] at hsome
    subst hsome
    simp only [List.append_cancel_left_eq, exists_eq_left']
    cases colon <;> grind [endsKeyword_colon]

/-- Another keyword needs a blank before it, unless it may be glued to what stands before. -/
theorem afterKeywords?_cons_eq_some {glued : Bool} :
    afterKeywords? glued (keyword :: keywords) cs = some rest ↔
      (glued = true ∨ (Text.trimStart cs).length ≠ cs.length) ∧
        ∃ later, Text.trimStart cs = keyword.toList ++ later ∧ endsKeyword later = true ∧
          afterKeywords? false keywords later = some rest := by
  simp only [afterKeywords?]
  split
  · next hbare => simp_all
  · next hbare =>
    simp only [Option.bind_eq_some_iff, afterKeyword?_eq_some, and_assoc]
    cases glued <;> simp_all

theorem afterKeywords?_append_eq_some {glued : Bool} {more : List String} :
    afterKeywords? glued (keywords ++ more) cs = some rest ↔
      ∃ later, afterKeywords? glued keywords cs = some later ∧
        afterKeywords? (glued && keywords.isEmpty) more later = some rest := by
  induction keywords generalizing glued cs with
  | nil => simp [afterKeywords?]
  | cons keyword keywords ih =>
      simp only [List.cons_append, afterKeywords?_cons_eq_some, ih, Bool.false_and, List.isEmpty_cons,
        Bool.and_false]
      grind

theorem DirectiveForm.match?_eq_some {first : String} (hform : form.keywords = first :: keywords)
    {colon : Bool} :
    form.match? cs = some (colon, rest) ↔ ∃ later, afterFirstKeyword? first cs = some (colon, later) ∧
      afterKeywords? colon keywords later = some rest := by
  rw [match?, hform]
  simp only [Option.bind_eq_some_iff, Option.map_eq_some_iff, Prod.mk.injEq, Prod.exists]
  grind

/-! ### Forms that fit a text -/

/-- The form fits the text of a comment: its keywords stand at the start of it, after blanks only when
the first has a colon. -/
def DirectiveForm.Fits (form : DirectiveForm) (text : List Char) : Prop :=
  ∃ colon rest, form.match? (Text.trimStart text) = some (colon, rest) ∧
    (Text.trimStart text = text ∨ colon = true)

theorem Text.trimStart_length (cs : List Char) :
    (trimStart cs).length = cs.length ↔ trimStart cs = cs :=
  ⟨(List.dropWhile_suffix _).eq_of_length, congrArg List.length⟩

theorem DirectiveForm.recognize?_eq_some : form.recognize? text = some found ↔ found.form = form ∧
      form.match? (Text.trimStart text) = some (found.marker.colon, found.rest) ∧
      found.marker.padded = decide (Text.trimStart text ≠ text) ∧
      (found.marker.padded = true → found.marker.colon = true) := by
  obtain ⟨form', ⟨padded, colon⟩, rest⟩ := found
  simp only [recognize?, ne_eq, Text.trimStart_length]
  cases form.match? (Text.trimStart text) with
  | none => simp
  | some found =>
      obtain ⟨colon', rest'⟩ := found
      by_cases htrim : Text.trimStart text = text <;> cases colon' <;> simp [htrim] <;> grind

theorem DirectiveForm.fits_iff : form.Fits text ↔ ∃ found, form.recognize? text = some found := by
  constructor
  · rintro ⟨colon, rest, hmatch, hpadded⟩
    refine ⟨⟨form, ⟨decide (Text.trimStart text ≠ text), colon⟩, rest⟩, ?_⟩
    exact recognize?_eq_some.2 ⟨rfl, hmatch, rfl, fun h => hpadded.resolve_left (by simpa using h)⟩
  · rintro ⟨found, hfound⟩
    obtain ⟨-, hmatch, hpadded, hcolon⟩ := recognize?_eq_some.1 hfound
    refine ⟨_, _, hmatch, or_iff_not_imp_left.2 fun h => hcolon ?_⟩
    rw [hpadded, decide_eq_true h]

/-- Forms in the order in which they are tried: sequences of words, no two the same, none after a
shorter one. -/
structure Orderly (forms : List DirectiveForm) : Prop where
  words : ∀ form ∈ forms, form.keywords ≠ [] ∧ ∀ keyword ∈ form.keywords, Text.IsWord keyword.toList
  distinct : ∀ form ∈ forms, ∀ form' ∈ forms, form.keywords = form'.keywords → form = form'
  sorted : forms.Pairwise fun form form' => form'.keywords.length ≤ form.keywords.length

theorem orderly_directiveTable : Orderly directiveTable where
  words := by
    have hall : ∀ form ∈ directiveTable, form.keywords ≠ [] ∧ ∀ keyword ∈ form.keywords,
        keyword.toList ≠ [] ∧ keyword.toList.all Text.isNamePart = true := by decide +kernel
    simpa only [List.all_eq_true, Text.IsWord] using hall
  distinct := by decide +kernel
  sorted := by decide +kernel

theorem Orderly.filter (h : Orderly forms) (p : DirectiveForm → Bool) :
    Orderly (forms.filter p) where
  words form hform := h.words form (List.mem_of_mem_filter hform)
  distinct form hform form' hform' :=
    h.distinct form (List.mem_of_mem_filter hform) form' (List.mem_of_mem_filter hform')
  sorted := h.sorted.filter p

/-- At each place the text has one keyword at most, so one sequence goes on where the other ends. -/
theorem afterKeywords?_comparable {keywords' : List String} {glued : Bool}
    (hwords : ∀ keyword ∈ keywords, Text.IsWord keyword.toList)
    (hwords' : ∀ keyword ∈ keywords', Text.IsWord keyword.toList)
    (h : afterKeywords? glued keywords cs = some rest)
    (h' : afterKeywords? glued keywords' cs = some rest') :
    keywords <+: keywords' ∨ keywords' <+: keywords := by
  induction keywords generalizing keywords' glued cs with
  | nil => exact .inl (List.nil_prefix)
  | cons keyword keywords ih =>
      cases keywords' with
      | nil => exact .inr (List.nil_prefix)
      | cons keyword' keywords' =>
          obtain ⟨-, later, hcs, hends, hlater⟩ := afterKeywords?_cons_eq_some.1 h
          obtain ⟨-, later', hcs', hends', hlater'⟩ := afterKeywords?_cons_eq_some.1 h'
          rw [List.forall_mem_cons] at hwords hwords'
          obtain ⟨hsame, rfl⟩ := hwords.1.cut hwords'.1 (isNamePart_of_endsKeyword hends)
            (isNamePart_of_endsKeyword hends') (hcs.symm.trans hcs')
          obtain rfl := String.toList_inj.1 hsame
          simpa using ih hwords.2 hwords'.2 hlater hlater'

theorem afterFirstKeyword?_unique {keyword' : String} {colon colon' : Bool}
    (hword : Text.IsWord keyword.toList) (hword' : Text.IsWord keyword'.toList)
    (h : afterFirstKeyword? keyword cs = some (colon, rest))
    (h' : afterFirstKeyword? keyword' cs = some (colon', rest')) :
    keyword = keyword' ∧ colon = colon' ∧ rest = rest' := by
  obtain ⟨later, hcs, hlater⟩ := afterFirstKeyword?_eq_some.1 h
  obtain ⟨later', hcs', hlater'⟩ := afterFirstKeyword?_eq_some.1 h'
  have hpart : ∀ {colon : Bool} {rest later : List Char},
      (if colon then later = ':' :: rest else later = rest ∧ endsKeyword rest = true) →
      ∀ c ∈ later.head?, Text.isNamePart c = false := by
    intro colon rest later hlater
    cases colon with
    | true =>
        obtain rfl : later = ':' :: rest := hlater
        simp only [List.head?_cons, Option.mem_some_iff, forall_eq']
        decide
    | false =>
        obtain ⟨rfl, hends⟩ : later = rest ∧ _ := hlater
        exact isNamePart_of_endsKeyword hends
  obtain ⟨hsame, rfl⟩ := hword.cut hword' (hpart hlater) (hpart hlater') (hcs.symm.trans hcs')
  refine ⟨String.toList_inj.1 hsame, ?_⟩
  cases colon <;> cases colon' <;> grind [endsKeyword_colon]

/-- Of two forms that fit a text one continues the other. -/
theorem DirectiveForm.Fits.comparable (horderly : Orderly forms) {form' : DirectiveForm}
    (hform : form ∈ forms) (hform' : form' ∈ forms) (h : form.Fits text) (h' : form'.Fits text) :
    form.keywords <+: form'.keywords ∨ form'.keywords <+: form.keywords := by
  obtain ⟨hne, hwords⟩ := horderly.words form hform
  obtain ⟨hne', hwords'⟩ := horderly.words form' hform'
  obtain ⟨first, keywords, hkeywords⟩ := List.exists_cons_of_ne_nil hne
  obtain ⟨first', keywords', hkeywords'⟩ := List.exists_cons_of_ne_nil hne'
  obtain ⟨colon, rest, hmatch, -⟩ := h
  obtain ⟨colon', rest', hmatch', -⟩ := h'
  obtain ⟨later, hfirst, hlater⟩ := (match?_eq_some hkeywords).1 hmatch
  obtain ⟨later', hfirst', hlater'⟩ := (match?_eq_some hkeywords').1 hmatch'
  rw [hkeywords, List.forall_mem_cons] at hwords
  rw [hkeywords', List.forall_mem_cons] at hwords'
  obtain ⟨rfl, rfl, rfl⟩ := afterFirstKeyword?_unique hwords.1 hwords'.1 hfirst hfirst'
  rw [hkeywords, hkeywords', List.prefix_cons_inj, List.prefix_cons_inj]
  exact afterKeywords?_comparable hwords.2 hwords'.2 hlater hlater'

/-- What is found is the longest form that fits. -/
theorem findSome?_recognize_iff (horderly : Orderly forms) :
    forms.findSome? (·.recognize? text) = some found ↔
      found.form ∈ forms ∧ found.form.recognize? text = some found ∧
        ∀ form ∈ forms, form.Fits text → form.keywords <+: found.form.keywords := by
  have hlongest : ∀ {found : Recognized}, forms.findSome? (·.recognize? text) = some found →
      found.form ∈ forms ∧ found.form.recognize? text = some found ∧
        ∀ form ∈ forms, form.Fits text → form.keywords <+: found.form.keywords := by
    intro found h
    obtain ⟨before, form, after, hsplit, hfound, hnone⟩ := List.findSome?_eq_some_iff.1 h
    obtain rfl := (DirectiveForm.recognize?_eq_some.1 hfound).1
    have hmem : found.form ∈ forms := by simp [hsplit]
    refine ⟨hmem, hfound, fun other hother hfits => ?_⟩
    refine (hfits.comparable horderly hother hmem (DirectiveForm.fits_iff.2 ⟨_, hfound⟩)).elim id
      fun hstarts => ?_
    -- a form that is tried later is not longer
    have hlength : other.keywords.length ≤ found.form.keywords.length := by
      have hsorted := horderly.sorted
      rw [hsplit, List.pairwise_append, List.pairwise_cons] at hsorted
      rw [hsplit, List.mem_append, List.mem_cons] at hother
      rcases hother with hbefore | rfl | hafter
      · obtain ⟨_, hrecognized⟩ := DirectiveForm.fits_iff.1 hfits
        rw [hnone other hbefore] at hrecognized
        cases hrecognized
      · exact le_rfl
      · exact hsorted.2.1.1 other hafter
    rw [hstarts.eq_of_length_le hlength]
  refine ⟨hlongest, fun ⟨hmem, hfound, hall⟩ => ?_⟩
  have hsome : (forms.findSome? (·.recognize? text)).isSome = true :=
    List.findSome?_isSome_iff.2 ⟨found.form, hmem, by simp [hfound]⟩
  obtain ⟨other, hother⟩ := Option.isSome_iff_exists.1 hsome
  obtain ⟨hmem', hfound', hall'⟩ := hlongest hother
  have hstarts := hall' _ hmem (DirectiveForm.fits_iff.2 ⟨_, hfound⟩)
  have hstarts' := hall _ hmem' (DirectiveForm.fits_iff.2 ⟨_, hfound'⟩)
  have hsame := horderly.distinct _ hmem _ hmem' (hstarts.eq_of_length_le hstarts'.length_le)
  rw [hsame, hfound', Option.some.injEq] at hfound
  rw [hother, hfound]

/-- A directive is found when it is of an enabled family and fits, and all others that fit have keywords
that its keywords begin with. -/
theorem recognize?_eq_some {families : List Family} :
    recognize? families text = some found ↔
      (found.form ∈ directiveTable ∧ found.form.family ∈ families) ∧
        found.form.recognize? text = some found ∧
        ∀ form ∈ directiveTable, form.family ∈ families → form.Fits text →
          form.keywords <+: found.form.keywords := by
  rw [recognize?, findSome?_recognize_iff (orderly_directiveTable.filter _)]
  simp [List.mem_filter, and_imp]

/-- Of the forms of enabled families that fit a text the one with the most keywords is recognised: the
others are proper beginnings of it. So forms of equal length may be tried in any order. -/
theorem recognize?_longest {classifier : Classifier} (henabled : classifier.enabled = true)
    {text : List Char} (hfits : ∃ form ∈ directiveTable, form.family ∈ classifier.families ∧
      form.Fits text) :
    ∃ found, classifier.recognize? text = some found ∧
      (found.form ∈ directiveTable ∧ found.form.family ∈ classifier.families ∧
        found.form.Fits text) ∧
      (∀ form ∈ directiveTable, form.family ∈ classifier.families → form.Fits text →
        form ≠ found.form → form.keywords <+: found.form.keywords ∧
          form.keywords ≠ found.form.keywords) ∧
      ∀ table : List DirectiveForm, table.Perm directiveTable →
        table.Pairwise (fun form form' => form'.keywords.length ≤ form.keywords.length) →
        (table.filter (classifier.families.contains ·.family)).findSome? (·.recognize? text) =
          some found := by
  have hrecognize : classifier.recognize? text = recognize? classifier.families text := if_pos henabled
  obtain ⟨form, hform, hfamily, hfit⟩ := hfits
  obtain ⟨first, hfirst⟩ := DirectiveForm.fits_iff.1 hfit
  have hsome : (recognize? classifier.families text).isSome = true := by
    refine List.findSome?_isSome_iff.2 ⟨form, ?_, by simp [hfirst]⟩
    exact List.mem_filter.2 ⟨hform, by simpa using hfamily⟩
  obtain ⟨found, hfound⟩ := Option.isSome_iff_exists.1 hsome
  obtain ⟨⟨hmem, henabled⟩, hrecognized, hlongest⟩ := recognize?_eq_some.1 hfound
  refine ⟨found, hrecognize.trans hfound, ⟨hmem, henabled, DirectiveForm.fits_iff.2 ⟨_, hrecognized⟩⟩,
    fun other hother hfamily hfit hne => ⟨hlongest other hother hfamily hfit, fun hsame => hne ?_⟩,
    fun table hperm hsorted => ?_⟩
  · exact orderly_directiveTable.distinct _ hother _ hmem hsame
  · -- which forms fit does not depend on the order of the table
    have horderly : Orderly table :=
      ⟨fun form hform => orderly_directiveTable.words form (hperm.mem_iff.1 hform),
        fun form hform form' hform' => orderly_directiveTable.distinct form (hperm.mem_iff.1 hform) form'
          (hperm.mem_iff.1 hform'), hsorted⟩
    rw [findSome?_recognize_iff (horderly.filter _)]
    simp only [List.mem_filter, hperm.mem_iff, List.contains_iff_mem, and_imp]
    exact ⟨⟨hmem, henabled⟩, hrecognized, hlongest⟩

theorem recognize?_longest_parallel :
    let text := "pragma:omp\u3000parallel (x) for".toList
    let form : DirectiveForm := ⟨.pragma, ["pragma"]⟩
    form.Fits text ∧ ∃ found, Classifier.standard.recognize? text = some found ∧
      (found.form ∈ directiveTable ∧ found.form.family ∈ Classifier.standard.families ∧
        found.form.Fits text) ∧
      (∀ form ∈ directiveTable, form.family ∈ Classifier.standard.families → form.Fits text →
        form ≠ found.form → form.keywords <+: found.form.keywords ∧
          form.keywords ≠ found.form.keywords) ∧
      ∀ table : List DirectiveForm, table.Perm directiveTable →
        table.Pairwise (fun form form' => form'.keywords.length ≤ form.keywords.length) →
        (table.filter (Classifier.standard.families.contains ·.family)).findSome?
          (·.recognize? text) = some found := by
  intro text form
  have hfits : form.Fits text := ⟨true, text.drop 7, by decide +kernel, .inr rfl⟩
  exact ⟨hfits, recognize?_longest rfl ⟨form, by decide, by decide, hfits⟩⟩

end TriviaTree
