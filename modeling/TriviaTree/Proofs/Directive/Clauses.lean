import Mathlib
import TriviaTree.Proofs.Directive.Lines

/-!
Lists of clauses, printed and read again.

`ClauseText cs list` says how the clauses `list` stand in the text `cs`; it is what `parseClauses` finds
(`parseClauses_iff`). Arguments reach to the parenthesis that closes the first, so they open and close
parentheses in order (`splitClosing_eq_some`), and so they do without the blanks around them. A clause
that was found is therefore found again where it is printed (`clauseText_spaced`).

Commas between clauses are not printed. So the keywords of a pragma can go on with the name of its first
clause where a comma kept the two apart, and a list of commas alone leaves nothing: apart from these the
line of a pragma is classified as its comment was (`classify_clauses_iff`).
-/

set_option autoImplicit false

namespace TriviaTree

variable {list : List Clause} {cs : List Char} {clause : Clause}

/-! ### Parentheses -/

/-- The number of open parentheses after a character, unless it closes one that is not open. -/
def parensAfter (depth : Nat) (c : Char) : Option Nat :=
  if c = ')' then (if depth = 0 then none else some (depth - 1))
  else some (if c = '(' then depth + 1 else depth)

/-- A text is cut at the first parenthesis that closes one more than are open. -/
theorem splitClosing_eq_some {depth : Nat} {inner rest : List Char} :
    splitClosing depth cs = some (inner, rest) ↔
      cs = inner ++ ')' :: rest ∧ inner.foldlM parensAfter depth = some 0 := by
  induction cs generalizing depth inner rest with
  | nil => simp [splitClosing]
  | cons c cs ih =>
      have hlater : ∀ later : Nat, ((splitClosing later cs).map fun cut => (c :: cut.1, cut.2)) =
          some (inner, rest) ↔ ∃ tail, inner = c :: tail ∧ cs = tail ++ ')' :: rest ∧
            tail.foldlM parensAfter later = some 0 := by
        intro later
        simp only [Option.map_eq_some_iff, Prod.exists, Prod.mk.injEq, ih]
        constructor
        · rintro ⟨tail, _, htail, rfl, rfl⟩
          exact ⟨tail, rfl, htail⟩
        · rintro ⟨tail, rfl, htail⟩
          exact ⟨tail, rest, htail, rfl, rfl⟩
      unfold splitClosing
      split
      · next hclose =>
        subst hclose
        cases depth with
        | zero => cases inner <;> grind [parensAfter]
        | succ depth =>
            refine (hlater depth).trans ?_
            cases inner <;> grind [parensAfter]
      · next hclose =>
        refine (hlater _).trans ?_
        cases inner <;> grind [parensAfter]

theorem foldlM_parensAfter_trim (cs : List Char) (depth : Nat) :
    (Text.trim cs).foldlM parensAfter depth = cs.foldlM parensAfter depth := by
  have hblanks : ∀ {blanks : List Char}, (∀ c ∈ blanks, Text.isBlank c = true) → ∀ depth,
      blanks.foldlM parensAfter depth = some depth := by
    intro blanks hblanks depth
    induction blanks with
    | nil => rfl
    | cons c blanks ih =>
        rw [List.forall_mem_cons] at hblanks
        have hopen : c ≠ '(' := by
          rintro rfl
          exact absurd hblanks.1 (by decide)
        have hclose : c ≠ ')' := by
          rintro rfl
          exact absurd hblanks.1 (by decide)
        simp [parensAfter, hopen, hclose, ih hblanks.2]
  obtain ⟨tail, htail, hend⟩ := Text.trimEnd_append (Text.trimStart cs)
  have hstart : cs.takeWhile Text.isBlank ++ Text.trimStart cs = cs := List.takeWhile_append_dropWhile
  conv_rhs => rw [← hstart, ← htail]
  simp [hblanks hend, hblanks fun c hc => List.mem_takeWhile_imp hc, Text.trim]

/-! ### Clauses in a text -/

theorem exists_of_map_ok {ε α β : Type} {f : α → β} {x : Except ε α} {b : β}
    (h : x.map f = .ok b) : ∃ a, x = .ok a ∧ f a = b := by
  cases x with
  | error e => cases h
  | ok a =>
      cases h
      exact ⟨a, rfl, rfl⟩

/-- How clauses stand in a text: blanks and commas before them, arguments between parentheses. -/
inductive ClauseText : List Char → List Clause → Prop
  | nil : ClauseText [] []
  | skip {c : Char} {cs : List Char} {list : List Clause} (hc : Text.isBlank c = true ∨ c = ',')
      (h : ClauseText cs list) : ClauseText (c :: cs) list
  | bare {name : String} {cs : List Char} {list : List Clause}
      (hname : Text.isIdentifier name.toList = true)
      (hcs : ∀ c ∈ cs.head?, Text.isNamePart c = false ∧ c ≠ '(') (h : ClauseText cs list) :
      ClauseText (name.toList ++ cs) (⟨name, none⟩ :: list)
  | call {name : String} {inner cs : List Char} {list : List Clause}
      (hname : Text.isIdentifier name.toList = true)
      (hinner : inner.foldlM parensAfter 0 = some 0) (h : ClauseText cs list) :
      ClauseText (name.toList ++ '(' :: (inner ++ ')' :: cs))
        (⟨name, some (String.ofList (Text.trim inner))⟩ :: list)

theorem clauseText_of_parseClauses (h : parseClauses cs = .ok list) : ClauseText cs list := by
  have hsplit : ∀ {c : Char} (cs : List Char), Text.isNameStart c = true →
      Text.isIdentifier (String.ofList (c :: cs.takeWhile Text.isNamePart)).toList = true ∧
        (String.ofList (c :: cs.takeWhile Text.isNamePart)).toList ++ cs.dropWhile Text.isNamePart =
          c :: cs := by
    intro c cs hstart
    rw [String.toList_ofList, List.cons_append, List.takeWhile_append_dropWhile]
    simp only [Text.isIdentifier, hstart, Bool.true_and, List.all_eq_true, and_true]
    exact fun d hd => List.mem_takeWhile_imp hd
  fun_induction parseClauses cs generalizing list with
  | case1 =>
      cases h
      exact .nil
  | case2 c cs hskip ih => exact .skip (by simpa using hskip) (ih h)
  | case3 | case6 => cases h
  | case4 c cs _ hstart name inside hrest inner rest hinside =>
      rename_i ih
      obtain ⟨later, hlater, rfl⟩ := exists_of_map_ok h
      obtain ⟨rfl, hinner⟩ := splitClosing_eq_some.1 hinside
      have hname := hsplit cs hstart
      rw [hrest] at hname
      rw [← hname.2]
      exact .call hname.1 hinner (ih hlater)
  | case5 c cs _ hstart name hrest =>
      rename_i ih
      obtain ⟨later, hlater, rfl⟩ := exists_of_map_ok h
      have hname := hsplit cs hstart
      rw [← hname.2]
      refine .bare hname.1 (fun d hd => ⟨?_, ?_⟩) (ih hlater)
      · have hhead := List.head?_dropWhile_not Text.isNamePart cs
        rw [Option.mem_def.1 hd] at hhead
        simpa using hhead
      · rintro rfl
        obtain ⟨tail, htail⟩ := List.head?_eq_some_iff.1 hd
        exact hrest tail htail

theorem parseClauses_name {name : String} (hname : Text.isIdentifier name.toList = true)
    (hcs : ∀ c ∈ cs.head?, Text.isNamePart c = false) :
    parseClauses (name.toList ++ cs) =
      match cs with
      | '(' :: inside =>
          match splitClosing 0 inside with
          | none => .error (.unbalanced name)
          | some (inner, rest) =>
              (parseClauses rest).map (⟨name, some (String.ofList (Text.trim inner))⟩ :: ·)
      | rest => (parseClauses rest).map (⟨name, none⟩ :: ·) := by
  obtain ⟨first, word, hword, hstart⟩ := head_isIdentifier hname
  have hpart := isNamePart_of_mem hname
  rw [hword, List.forall_mem_cons] at hpart
  have hskip : (Text.isBlank first || decide (first = ',')) = false := by
    have hcomma : first ≠ ',' := by
      rintro rfl
      exact absurd hpart.1 (by decide)
    simp [Text.isBlank_of_isNamePart hpart.1, hcomma]
  have htake : (word ++ cs).takeWhile Text.isNamePart = word ∧
      (word ++ cs).dropWhile Text.isNamePart = cs := by
    rw [List.takeWhile_append_of_pos hpart.2, List.dropWhile_append_of_pos hpart.2]
    cases cs with
    | nil => simp
    | cons c cs => simp [hcs c rfl]
  have hname' : String.ofList (first :: word) = name := by rw [← hword, String.ofList_toList]
  rw [hword, List.cons_append, parseClauses, if_neg (by simp [hskip]), if_pos hstart]
  simp only [htake.1, hname']
  rw [htake.2]
  clear htake
  split
  · split <;> rename_i hinside <;> simp only [hinside]
  · next hopen =>
    split
    · next inside _ => exact absurd rfl (hopen inside)
    · rfl

theorem parseClauses_of_clauseText (h : ClauseText cs list) : parseClauses cs = .ok list := by
  induction h with
  | nil => simp [parseClauses]
  | skip hc _ ih =>
      rw [parseClauses, if_pos (by simpa using hc), ih]
  | bare hname hcs _ ih =>
      rw [parseClauses_name hname fun c hc => (hcs c hc).1]
      split
      · next hopen => exact absurd rfl (hcs '(' rfl).2
      · rw [ih]
        rfl
  | @call name inner cs list hname hinner _ ih =>
      rw [parseClauses_name hname (by simp; decide)]
      simp [splitClosing_eq_some.2 ⟨rfl, hinner⟩, ih, Except.map]

theorem parseClauses_iff : parseClauses cs = .ok list ↔ ClauseText cs list :=
  ⟨clauseText_of_parseClauses, parseClauses_of_clauseText⟩

/-! ### Clauses printed and found again -/

/-- A clause as it is found in a text. -/
structure Clause.WellFormed (clause : Clause) : Prop where
  name : Text.isIdentifier clause.name.toList = true
  arguments : ∀ text ∈ clause.arguments, text.toList.foldlM parensAfter 0 = some 0 ∧
    Text.trim text.toList = text.toList

theorem ClauseText.wellFormed (h : ClauseText cs list) : ∀ clause ∈ list, clause.WellFormed := by
  induction h with
  | nil => simp
  | skip _ _ ih => exact ih
  | bare hname _ _ ih => exact List.forall_mem_cons.2 ⟨⟨hname, by simp⟩, ih⟩
  | call hname hinner _ ih =>
      refine List.forall_mem_cons.2 ⟨⟨hname, ?_⟩, ih⟩
      simpa [foldlM_parensAfter_trim] using hinner

/-- The name of a clause ends like a keyword. -/
theorem Clause.text_split (clause : Clause) {later : List Char}
    (hlater : ∀ c ∈ later.head?, Text.isBlank c = true) :
    ∃ after, clause.text.toList ++ later = clause.name.toList ++ after ∧ endsKeyword after = true := by
  obtain ⟨name, arguments⟩ := clause
  cases arguments with
  | none => exact ⟨later, rfl, endsKeyword_of_head hlater⟩
  | some text => exact ⟨'(' :: (text.toList ++ ')' :: later), by simp [Clause.text], by simp [endsKeyword]⟩

theorem Clause.WellFormed.isTight (h : clause.WellFormed) : Text.IsTight clause.text.toList := by
  have hparts := isNamePart_of_mem h.name
  obtain ⟨c, cs, hname, -⟩ := head_isIdentifier h.name
  obtain ⟨name, arguments⟩ := clause
  cases arguments with
  | none =>
      exact Text.isTight_of_forall (by simp [Clause.text, hname]) fun c hc =>
        Text.isBlank_of_isNamePart (hparts c hc)
  | some text =>
      refine ⟨⟨c, ?_, Text.isBlank_of_isNamePart (hparts c (by simp [hname]))⟩, ')', ?_, by decide⟩
      · simp [Clause.text, hname]
      · simp [Clause.text, List.getLast?_cons]

/-- Clauses with a space before each. -/
def spaced (list : List Clause) : List Char :=
  list.flatMap fun clause => ' ' :: clause.text.toList

theorem isBlank_head_spaced (list : List Clause) : ∀ c ∈ (spaced list).head?, Text.isBlank c = true := by
  cases list with
  | nil => simp [spaced]
  | cons clause list =>
      rintro _ ⟨⟩
      decide

theorem Clause.WellFormed.clauseText (h : clause.WellFormed) {later : List Char}
    (hlater : ∀ c ∈ later.head?, Text.isBlank c = true) (hlist : ClauseText later list) :
    ClauseText (clause.text.toList ++ later) (clause :: list) := by
  obtain ⟨name, arguments⟩ := clause
  cases arguments with
  | none =>
      refine .bare h.name (fun c hc => ⟨?_, ?_⟩) hlist
      · exact isNamePart_of_endsKeyword (endsKeyword_of_head hlater) c hc
      · rintro rfl
        exact absurd (hlater _ hc) (by decide)
  | some text =>
      obtain ⟨hinner, htrim⟩ := h.arguments text rfl
      simpa [Clause.text, htrim] using ClauseText.call h.name hinner hlist

/-- Clauses are found again in their text. -/
theorem clauseText_spaced (h : ∀ c ∈ clause :: list, c.WellFormed) :
    Text.IsTight (clause.text.toList ++ spaced list) ∧
      ClauseText (clause.text.toList ++ spaced list) (clause :: list) := by
  induction list generalizing clause with
  | nil =>
      have hclause := h clause List.mem_cons_self
      exact ⟨by simpa [spaced] using hclause.isTight, hclause.clauseText (by simp [spaced]) .nil⟩
  | cons next list ih =>
      rw [List.forall_mem_cons] at h
      obtain ⟨htight, htext⟩ := ih h.2
      have hspaced : spaced (next :: list) = ' ' :: (next.text.toList ++ spaced list) := by
        simp [spaced]
      rw [hspaced]
      refine ⟨h.1.isTight.append_cons htight ' ', h.1.clauseText ?_ (.skip (.inl (by decide)) htext)⟩
      rintro _ ⟨⟩
      decide

/-! ### Pragmas read again -/

theorem afterKeywords?_nil {glued : Bool} {keywords : List String} (hne : keywords ≠ [])
    (hwords : ∀ keyword ∈ keywords, Text.IsWord keyword.toList) (rest : List Char) :
    afterKeywords? glued keywords [] ≠ some rest := by
  obtain ⟨keyword, keywords, rfl⟩ := List.exists_cons_of_ne_nil hne
  intro h
  obtain ⟨-, later, htrim, -⟩ := afterKeywords?_cons_eq_some.1 h
  exact (hwords keyword List.mem_cons_self).1 (List.append_eq_nil_iff.1 htrim.symm).1

/-- The keywords before clauses go on with the name of the first or not at all. -/
theorem afterKeywords?_clause (hclause : clause.WellFormed) (list : List Clause) (glued : Bool) :
    (∀ keyword keywords rest, Text.IsWord keyword.toList →
      afterKeywords? glued (keyword :: keywords) (spaced (clause :: list)) = some rest →
      keyword = clause.name) ∧
      ∃ rest, afterKeywords? glued [clause.name] (spaced (clause :: list)) = some rest := by
  obtain ⟨c, cs, hname, -⟩ := head_isIdentifier hclause.name
  have hname : Text.IsWord clause.name.toList := ⟨by simp [hname], isNamePart_of_mem hclause.name⟩
  obtain ⟨after, hafter, hends⟩ := clause.text_split (isBlank_head_spaced list)
  have hspaced : spaced (clause :: list) = ' ' :: (clause.name.toList ++ after) := by
    rw [← hafter]
    simp [spaced]
  have htrim : Text.trimStart (spaced (clause :: list)) = clause.name.toList ++ after := by
    rw [hspaced, Text.trimStart_space, Text.trimStart_of_head (hname.isBlank_head after)]
  constructor
  · intro keyword keywords rest hword h
    obtain ⟨-, later, hlater, hends', -⟩ := afterKeywords?_cons_eq_some.1 h
    exact String.toList_inj.1 (hword.cut hname (isNamePart_of_endsKeyword hends')
      (isNamePart_of_endsKeyword hends) (hlater.symm.trans htrim)).1
  · refine ⟨after, afterKeywords?_cons_eq_some.2 ⟨.inr ?_, after, htrim, hends, rfl⟩⟩
    rw [htrim, hspaced]
    simp

theorem parsePayload_clauses {family : Family} (hfamily : family ∈ [.openMp, .openAcc])
    {text : List Char} {payload : Payload Node} : parsePayload family text = .ok payload ↔
      text = [] ∧ payload = .empty ∨
        text ≠ [] ∧ ∃ list, payload = .clauses list ∧ ClauseText text list := by
  have hread : parsePayload family text = parsePayload .openMp text := by
    simp only [List.mem_cons, List.not_mem_nil, or_false] at hfamily
    rcases hfamily with rfl | rfl <;> rfl
  rw [hread]
  simp only [parsePayload, ← parseClauses_iff, List.isEmpty_iff]
  by_cases hempty : text = []
  · simp [hempty, eq_comm]
  · cases parseClauses text <;> simp [hempty, eq_comm]

/-- The part of a payload that is read as an expression. -/
def Family.expressionPart (family : Family) (text : List Char) : List Char :=
  match family with
  | .cond | .elif => text
  | .define => Text.trim ((text.dropWhile (!Text.isBlank ·)).drop 1)
  | _ => []

/-- How the payload of a directive stands in a text. -/
inductive PayloadText : Family → List Char → Payload Node → Prop
  | verbatim {family : Family} {text : List Char} {payload : Payload Node}
      (hpart : family.expressionPart text = []) (h : payload.Keeps text) :
      PayloadText family text payload
  | clauses {family : Family} {text : List Char} {list : List Clause}
      (hpart : family.expressionPart text = []) (h : ClauseText text list) :
      PayloadText family text (.clauses list)
  | condition {family : Family} {text : List Char} {e : Node}
      (hpart : family.expressionPart text = text) (h : parsePayloadExpression text = .ok e) :
      PayloadText family text (.expression e)
  | definition {text : List Char} {value : Option Node}
      (hname : Text.isIdentifier (text.takeWhile (!Text.isBlank ·)) = true)
      (hnone : value = none → Family.define.expressionPart text = [])
      (h : ∀ e ∈ value, parsePayloadExpression (Family.define.expressionPart text) = .ok e) :
      PayloadText .define text (.definition (String.ofList (text.takeWhile (!Text.isBlank ·))) value)

theorem payloadText_of_parsePayload {family : Family} {text : List Char} {payload : Payload Node}
    (h : parsePayload family text = .ok payload) : PayloadText family text payload := by
  cases family with
  | cond | elif =>
      simp only [parsePayload] at h
      split at h
      · cases h
      · obtain ⟨e, he, rfl⟩ := exists_of_map_ok h
        exact .condition rfl he
  | define =>
      simp only [parsePayload, parseDefinition] at h
      split at h
      · cases h
      next hname =>
      rw [Bool.not_eq_true, Bool.not_eq_false'] at hname
      split at h
      · next hvalue =>
        cases h
        exact .definition hname (fun _ => List.isEmpty_iff.1 hvalue) (by simp)
      · obtain ⟨e, he, rfl⟩ := exists_of_map_ok h
        exact .definition hname (by simp) (by rintro _ ⟨⟩; exact he)
  | openMp | openAcc =>
      rcases (parsePayload_clauses (by decide)).1 h with ⟨rfl, rfl⟩ | ⟨-, list, rfl, hlist⟩
      · exact .verbatim rfl ⟨rfl, rfl⟩
      · exact .clauses rfl hlist
  | _ => exact .verbatim rfl (keeps_of_parsePayload (by decide) h)

theorem directiveTable_stepwise : ∀ form ∈ directiveTable, form.family ∈ [.openMp, .openAcc] →
    ∀ form' ∈ directiveTable, form.keywords <+: form'.keywords →
      form.keywords.length < form'.keywords.length →
      ⟨form.family, form'.keywords.take (form.keywords.length + 1)⟩ ∈ directiveTable := by
  decide +kernel

/-- A pragma with clauses is read again from its line, unless its clauses were commas only or its first
clause bears a name with which its keywords make a longer sequence. -/
theorem classify_clauses_iff {classifier : Classifier} {raw : String} {d : Directive Node}
    (h : classifier.classify raw = .ok (.directive d)) (hfamily : d.family ∈ [.openMp, .openAcc])
    (options : PageOptions) :
    classifier.classify (String.ofList ((d.line options).toList.drop 1)) = .ok (.directive d) ↔
      d.payload ≠ .clauses [] ∧ ∀ clause list, d.payload = .clauses (clause :: list) →
        ⟨d.family, d.keywords ++ [clause.name]⟩ ∉ directiveTable := by
  obtain ⟨henabled, rest, hfound, hpayload⟩ := classify_eq_directive.1 h
  obtain ⟨⟨hform, hlisted⟩, hown, -⟩ := recognize?_eq_some.1 hfound
  have hmarker := (DirectiveForm.recognize?_eq_some.1 hown).2.2.2
  have hwords := fun form hform => (orderly_directiveTable.words form hform).2
  have hcases := (parsePayload_clauses hfamily).1 hpayload
  have hprinted : d.payload.expressions = [] ∧ ∃ list, d.payload.printed = spaced list ∧
      (d.payload = .empty ∧ list = [] ∨ d.payload = .clauses list ∧ ∀ c ∈ list, c.WellFormed) := by
    rcases hcases with ⟨-, hpayload⟩ | ⟨-, list, hpayload, htext⟩
    · rw [hpayload]
      exact ⟨rfl, [], rfl, .inl ⟨rfl, rfl⟩⟩
    · rw [hpayload]
      exact ⟨rfl, list, rfl, .inr ⟨rfl, htext.wellFormed⟩⟩
  obtain ⟨hnone, list, hprinted, hlist⟩ := hprinted
  have hline : (d.line options).toList = '#' :: (d.marker.lead d.keywords ++ spaced list) := by
    rw [toList_line (by simp [hnone]), hprinted]
  refine (classify_line_iff henabled hform hlisted hmarker hline (isBlank_head_spaced list)).trans ?_
  rw [parsePayload_clauses hfamily]
  cases list with
  | nil =>
      rcases hlist with ⟨hempty, -⟩ | ⟨hclauses, -⟩
      · refine iff_of_true ⟨?_, .inl ⟨rfl, hempty⟩⟩ ⟨by simp [hempty], by simp [hempty]⟩
        intro form hmem _ more hmore hkeywords
        exact afterKeywords?_nil hmore fun keyword hkeyword =>
          hwords form hmem keyword (by simp [hkeywords, hkeyword])
      · refine iff_of_false ?_ fun hne => hne.1 hclauses
        rintro ⟨-, ⟨-, hempty⟩ | ⟨hne, -⟩⟩
        · rw [hempty] at hclauses
          cases hclauses
        · exact hne rfl
  | cons clause list =>
      obtain ⟨hempty, hnil⟩ | ⟨hclauses, hlist⟩ := hlist
      · cases hnil
      obtain ⟨htight, htext⟩ := clauseText_spaced hlist
      obtain ⟨hfirst, hagain⟩ := afterKeywords?_clause (hlist clause List.mem_cons_self) list
        (d.marker.colon && d.keywords.tail.isEmpty)
      have htrim : Text.trim (spaced (clause :: list)) = clause.text.toList ++ spaced list :=
        (Text.trim_space _).trans htight.trim_eq
      rw [htrim]
      constructor
      · rintro ⟨hstop, -⟩
        refine ⟨by simp [hclauses], fun clause' list' hsame hmem => ?_⟩
        obtain ⟨rfl, rfl⟩ : clause = clause' ∧ list = list' := by simpa [hclauses] using hsame
        obtain ⟨later, hlater⟩ := hagain
        exact hstop _ hmem hlisted [clause.name] (by simp) rfl later hlater
      · rintro ⟨-, hnot⟩
        refine ⟨fun form hmem _ more hmore hkeywords later hlater => ?_, .inr ⟨?_, _, hclauses, htext⟩⟩
        · -- a sequence that is longer by one keyword is of the same family
          obtain ⟨keyword, more, rfl⟩ := List.exists_cons_of_ne_nil hmore
          have hname := hfirst keyword more later (hwords _ hmem keyword (by simp [hkeywords])) hlater
          have hnext := directiveTable_stepwise _ hform hfamily form hmem ⟨_, hkeywords.symm⟩ (by simp [hkeywords])
          refine hnot clause list hclauses ?_
          simpa [hkeywords, List.take_length_add_append, hname] using hnext
        · exact fun hnil => by simpa [hnil] using htight.isEmpty

theorem classify_clauses_iff_nested :
    let raw := "pragma omp for\tcollapse( (2) ),simd"
    let d : Directive Node := ⟨.openMp, ["pragma", "omp", "for"],
      .clauses [⟨"collapse", some "(2)"⟩, ⟨"simd", none⟩], ⟨false, false⟩⟩
    Classifier.standard.classify raw = .ok (.directive d) ∧
      Classifier.standard.classify (String.ofList ((d.line .standard).toList.drop 1)) =
        .ok (.directive d) := by
  intro raw d
  have hraw : Classifier.standard.classify raw = .ok (.directive d) := by
    refine classify_eq_directive.2 ⟨rfl, "\tcollapse( (2) ),simd".toList, by decide +kernel, ?_⟩
    exact (parsePayload_clauses (by decide)).2
      (.inr ⟨by decide +kernel, _, rfl, parseClauses_iff.1 (by decide +kernel)⟩)
  refine ⟨hraw, (classify_clauses_iff hraw (by decide) .standard).2 ⟨by simp [d], ?_⟩⟩
  rintro clause list ⟨⟩
  decide

/-- A comma can keep the first clause from being a keyword. It is not printed, and on the line the
clause is one. -/
theorem clause_becomes_keyword :
    ∃ raw d, Classifier.standard.classify raw = .ok (.directive d) ∧ d.family = .openMp ∧
      Classifier.standard.classify (String.ofList ((d.line .standard).toList.drop 1)) ≠
        .ok (.directive d) := by
  let d : Directive Node := ⟨.openMp, ["pragma", "omp"],
    .clauses [⟨"parallel", none⟩, ⟨"for", none⟩], ⟨false, false⟩⟩
  refine ⟨"pragma omp parallel,for", d, ?_, rfl, fun h => ?_⟩
  · refine classify_eq_directive.2 ⟨rfl, " parallel,for".toList, by decide +kernel, ?_⟩
    exact (parsePayload_clauses (by decide)).2
      (.inr ⟨by decide +kernel, _, rfl, parseClauses_iff.1 (by decide +kernel)⟩)
  · have hline : d.line .standard = "#pragma omp parallel for" := by decide +kernel
    obtain ⟨-, rest, hfound, -⟩ := classify_eq_directive.1 h
    rw [hline] at hfound
    have hlonger : (recognize? Classifier.standard.families "pragma omp parallel for".toList).map
        (·.form.keywords) = some ["pragma", "omp", "parallel", "for"] := by decide +kernel
    have hkeywords := congrArg (Option.map (·.form.keywords)) hfound
    exact absurd (hlonger.symm.trans hkeywords) (by simp [d])

end TriviaTree
