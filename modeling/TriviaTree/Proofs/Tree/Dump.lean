import Mathlib
import TriviaTree.Proofs.Text.Quoted
import TriviaTree.Proofs.Token.Endings
import TriviaTree.Proofs.Printing.Printable
import TriviaTree.Proofs.Tree.Fields

/-!
Trees can be read off their dumps.

A dump shows all of a tree but its spans and the markers of its directives (`Node.shown`). What stands
between the parentheses of a dump are the attributes of a node and its fields, and each of these texts
tells where it ends (`Kind.sealed_texts`). So dumps that are the same have the same label and the same
texts, these say which kind of node they are of and what its attributes are
(`Kind.withContents_of_attributes`), and the rest is induction (`Node.shown_of_dump`). The text of a
number or a clause could be anything in a tree that was not read from a text: that they are not is
what makes a tree legible.
-/

set_option autoImplicit false

namespace TriviaTree

open Text

variable {contents contents' : List (List String)} {payload' : String} {kind : TokenKind}
  {value : Constant} {xs ys : List String}

/-! ### Trees without markers -/

/-- A layer without the marker of a directive. -/
def Kind.eraseMarker {α : Type} : Kind α → Kind α
  | .directive d => .directive { d with marker := ⟨false, false⟩ }
  | kind => kind

/-- A tree without the markers of its directives, in payloads neither. -/
def Node.eraseMarkers (n : Node) : Node :=
  let kind := n.kind.withContents
    (n.kind.contents.attach.map fun ⟨cs, _⟩ => cs.attach.map fun ⟨c, _⟩ => c.eraseMarkers)
  ⟨(kind.withPayload (n.kind.payload.mapMem fun e _ => e.eraseMarkers)).eraseMarker, n.span⟩
termination_by sizeOf n
decreasing_by
  · exact sizeOf_lt_of_mem_contents ‹_› ‹_›
  · exact sizeOf_lt_of_mem_payload ‹_›

/-- What a dump shows of a tree. -/
def Node.shown (n : Node) : Node :=
  n.eraseSpans.eraseMarkers

/-- Change the expressions of a payload. -/
def Payload.map {α β : Type} (f : α → β) (p : Payload α) : Payload β :=
  p.mapMem fun e _ => f e

theorem Payload.map_map {α β γ : Type} (g : β → γ) (f : α → β) (p : Payload α) :
    (p.map f).map g = p.map fun e => g (f e) := by
  cases p with
  | definition name value => cases value <;> rfl
  | _ => rfl

namespace Kind

variable {α : Type}

/-- Change the children of a layer and the expressions of its payload. -/
def mapAll (f : α → α) (k : Kind α) : Kind α :=
  (k.withContents (k.contents.map (·.map f))).withPayload (k.payload.map f)

theorem mapAll_mapAll (g f : α → α) (k : Kind α) :
    (k.mapAll f).mapAll g = k.mapAll fun a => g (f a) := by
  cases k <;> simp [mapAll, withContents, contents, withPayload, payload, Payload.map_map,
    Function.comp_def]

end Kind

theorem Node.eraseSpans_eq (n : Node) : n.eraseSpans = ⟨n.kind.mapAll Node.eraseSpans, none⟩ := by
  rw [eraseSpans]
  simp [Kind.mapAll, Payload.map]

theorem Node.eraseMarkers_eq (n : Node) :
    n.eraseMarkers = ⟨(n.kind.mapAll Node.eraseMarkers).eraseMarker, n.span⟩ := by
  rw [eraseMarkers]
  simp [Kind.mapAll, Payload.map]

theorem Node.shown_eq (n : Node) : n.shown = ⟨(n.kind.mapAll Node.shown).eraseMarker, none⟩ := by
  rw [shown, eraseMarkers_eq, eraseSpans_eq]
  simp only [Kind.mapAll_mapAll]
  rfl

/-! ### Dumps layer by layer -/

/-- A field with its children written out. -/
def Field.text (field : Field) (children : List String) : String :=
  field.name ++ "=" ++
    if field.isSequence then "[" ++ commaList children ++ "]" else children.headD "None"

/-- All that stands between the parentheses of a dump. -/
def Kind.texts {α : Type} (payload : String) (contents : List (List String)) (k : Kind α) :
    List String :=
  k.attributes payload ++ List.zipWith Field.text k.fields contents

theorem Field.dump_standard (field : Field) (children : List (Bool × String)) :
    field.dump .standard children = field.text (children.map Prod.snd) := by
  obtain ⟨name, shape, operands⟩ := field
  cases shape with
  | sequence => simp [Field.dump, Field.text, Field.isSequence, DumpStyle.standard]
  | one | optional => cases children <;> simp [Field.dump, Field.text, Field.isSequence]

theorem Field.dump_codeOnly (field : Field) (children : List String) :
    field.dump .codeOnly (children.map fun text => (false, text)) = field.text children := by
  obtain ⟨name, shape, operands⟩ := field
  cases shape with
  | sequence => simp [Field.dump, Field.text, Field.isSequence, List.filter_map, Function.comp_def]
  | one | optional => cases children <;> simp [Field.dump, Field.text, Field.isSequence]

namespace Node

/-- The texts of a node's children. -/
def childTexts (n : Node) : List (List String) :=
  n.kind.contents.map (·.map (·.dump .standard))

/-- The text of a payload. -/
def payloadText (p : Payload Node) : String :=
  (p.map (·.dump .codeOnly)).dump

theorem dump_eq (n : Node) (style : DumpStyle) : n.dump style =
    n.label ++ n.spanSuffix style ++ "(" ++ commaList (n.kind.attributes (payloadText n.kind.payload) ++
      List.zipWith (Field.dump style) n.kind.fields
        (n.kind.contents.map (·.map fun c => (c.isTrivia, c.dump style)))) ++ ")" := by
  rw [dump]
  simp [payloadText, Payload.map]

theorem dump_standard (n : Node) : n.dump .standard =
    n.label ++ "(" ++ commaList (n.kind.texts (payloadText n.kind.payload) n.childTexts) ++ ")" := by
  have hfields : List.zipWith (Field.dump .standard) n.kind.fields
      (n.kind.contents.map (·.map fun c => (c.isTrivia, c.dump .standard))) =
        List.zipWith Field.text n.kind.fields n.childTexts := by
    rw [childTexts, List.zipWith_map_right, List.zipWith_map_right]
    simp [Field.dump_standard, Function.comp_def]
  have hsuffix : n.spanSuffix .standard = "" := rfl
  rw [dump_eq, hfields, hsuffix, String.append_empty, Kind.texts]

/-- Trees without trivia look the same in both styles. -/
theorem dump_codeOnly_of_plain (n : Node) (plain : n.Plain) :
    n.dump .codeOnly = n.dump .standard := by
  induction n with
  | step n ih =>
      have hchildren : ∀ c ∈ n.children, c.isTrivia = false ∧ c.dump .codeOnly = c.dump .standard := by
        intro c hc
        have hplain := (plain_iff.1 plain).2 c hc
        exact ⟨(plain_iff.1 hplain).1, ih c hc hplain⟩
      have hcontents : (n.kind.contents.map (·.map fun c => (c.isTrivia, c.dump .codeOnly))) =
          n.childTexts.map (·.map fun text => (false, text)) := by
        rw [childTexts, List.map_map]
        refine List.map_congr_left fun cs hcs => ?_
        simp only [Function.comp_apply, List.map_map]
        refine List.map_congr_left fun c hc => ?_
        obtain ⟨hcode, hsame⟩ := hchildren c (List.mem_flatten.2 ⟨cs, hcs, hc⟩)
        simp [hcode, hsame]
      have hfields : List.zipWith (Field.dump .codeOnly) n.kind.fields
          (n.childTexts.map (·.map fun text => (false, text))) =
            List.zipWith Field.text n.kind.fields n.childTexts := by
        rw [List.zipWith_map_right]
        simp [Field.dump_codeOnly]
      have hsuffix : n.spanSuffix .codeOnly = "" := rfl
      rw [dump_eq, dump_standard, hcontents, hfields, hsuffix, String.append_empty, Kind.texts]

end Node

/-! ### Legible trees -/

/-- The clauses of a payload. -/
def Payload.clauseList {α : Type} : Payload α → List Clause
  | .clauses list => list
  | _ => []

/-- What a directive says is code, or clauses whose names have no parenthesis. -/
structure Payload.Legible (p : Payload Node) : Prop where
  code : ∀ e ∈ p.expressions, e.IsCode
  names : ∀ clause ∈ p.clauseList, '(' ∉ clause.name.toList

/-- Everything that is in the tree beside its children can be told by its text. -/
structure Node.Legible (n : Node) : Prop where
  spelled : n.Spelled
  payloads : ∀ m ∈ n.preorder, ∀ d, m.kind = .directive d → d.payload.Legible

theorem Node.Spelled.of_mem {n c : Node} (h : n.Spelled) (hc : c ∈ n.children) : c.Spelled :=
  fun m hm => h m (Node.mem_preorder_iff.2 (.inr ⟨c, hc, hm⟩))

theorem Node.self_mem_preorder (n : Node) : n ∈ n.preorder :=
  Node.mem_preorder_iff.2 (.inl rfl)

/-! ### Texts of legible trees tell where they end -/

theorem sealed_ordinary {text : String} (h : text.toList.all isOrdinary = true) : Sealed text :=
  sealed_of_ordinary fun c hc => List.all_eq_true.1 h c hc

theorem isOrdinary_of_isNumeral {c : Char} (h : Token.isNumeral c = true) : isOrdinary c = true := by
  by_contra hc
  simp only [isOrdinary, List.mem_cons, List.not_mem_nil, or_false, decide_eq_true_eq,
    not_not] at hc
  rcases hc with rfl | rfl | rfl | rfl | rfl | rfl <;> simp [Token.isNumeral] at h

theorem IsNumber.ordinary {text : String} (h : IsNumber kind text) :
    text.toList.all isOrdinary = true :=
  List.all_eq_true.2 fun c hc => isOrdinary_of_isNumeral (h.numeral c hc)

theorem Constant.IsSpelled.sealed (h : value.IsSpelled) : Sealed value.dump := by
  cases value with
  | int text | float text => exact sealed_ordinary (IsNumber.ordinary h)
  | str value => exact sealed_quote value
  | bool value => cases value <;> exact sealed_ordinary (by decide)
  | nothing => exact sealed_ordinary (by decide)

theorem sealed_quoteList (texts : List String) : Sealed (quoteList texts) := by
  refine sealed_brackets (bracketable_commaList fun x hx => ?_)
  obtain ⟨text, _, rfl⟩ := List.mem_map.1 hx
  exact sealed_quote text

/-- The labels of all kinds but directives, in their order. -/
def kindLabels : List String :=
  ["Module", "FunctionDef", "Return", "Assign", "AugAssign", "For", "While", "If", "Expr", "Pass",
   "Break", "Continue", "BoolOp", "BinOp", "UnaryOp", "Compare", "IfExp", "Call", "Attribute",
   "Subscript", "Slice", "Starred", "Name", "Constant", "List", "Tuple", "Set", "Dict", "Arguments",
   "Arg", "Keyword", "Comment"]

theorem Kind.label_cases {α : Type} (k : Kind α) :
    (∃ d, k = .directive d) ∨ kindLabels[k.ctorIdx]? = some k.label := by
  cases k with
  | directive d => exact .inl ⟨d, rfl⟩
  | _ => exact .inr rfl

theorem Family.mem_all (family : Family) : family ∈ Family.all := by
  cases family <;> decide

theorem Kind.label_ordinary {α : Type} (k : Kind α) : k.label.toList.all isOrdinary = true := by
  rcases k.label_cases with ⟨d, rfl⟩ | hlabel
  · have hnames : ∀ family ∈ Family.all, family.name.toList.all isOrdinary = true := by
      decide +kernel
    exact hnames d.family d.family.mem_all
  · have hlabels : ∀ label ∈ kindLabels, label.toList.all isOrdinary = true := by decide +kernel
    exact hlabels _ (List.mem_of_getElem? hlabel)

theorem Kind.fields_ordinary {α : Type} (k : Kind α) :
    ∀ field ∈ k.fields, field.name.toList.all isOrdinary = true := by
  cases k <;> rw [fields] <;> decide +kernel

/-- A text that begins with a name for what it says. -/
theorem sealed_named {name text : String} (hname : name.toList.all isOrdinary = true)
    (h : Sealed text) (hne : name ≠ "") : Sealed (name ++ text) ∧ name ++ text ≠ "" :=
  ⟨(sealed_ordinary hname).append h, by simp [hne]⟩

theorem sealed_commaList {texts : List String} (h : ∀ x ∈ texts, Sealed x) :
    Sealed ("[" ++ commaList texts ++ "]") :=
  sealed_brackets (bracketable_commaList h)

theorem CompareOp.name_ordinary (op : CompareOp) : op.name.toList.all isOrdinary = true := by
  cases op <;> decide

theorem Kind.sealed_attributes {α : Type} {k : Kind α} {payload : String} (hpayload : Sealed payload)
    (hspelled : ∀ value, k = .constant value → value.IsSpelled) :
    ∀ x ∈ k.attributes payload, Sealed x ∧ x ≠ "" := by
  have hone : ∀ (name : String) {text : String}, name.toList.all isOrdinary = true → name ≠ "" →
      Sealed text → ∀ x ∈ [name ++ text], Sealed x ∧ x ≠ "" := by
    intro name text hname hne htext x hx
    obtain rfl := List.mem_singleton.1 hx
    exact sealed_named hname htext hne
  cases k with
  | augAssign _ op | binOp _ op | boolOp op | unaryOp op =>
      refine hone "op=" (by decide) (by decide) ?_
      cases op <;> exact sealed_ordinary (by decide)
  | compare _ ops =>
      refine hone "ops=" (by decide) (by decide) (sealed_commaList fun x hx => ?_)
      obtain ⟨op, _, rfl⟩ := List.mem_map.1 hx
      exact sealed_ordinary op.name_ordinary
  | constant value => exact hone "value=" (by decide) (by decide) (hspelled value rfl).sealed
  | keyword id =>
      cases id with
      | none =>
          have hnone : Sealed "None" := sealed_ordinary (by decide)
          exact hone "arg=" (by decide) (by decide) hnone
      | some id =>
          have hsome : Sealed ("Some" ++ ("(" ++ quote id ++ ")")) :=
            Sealed.append (sealed_ordinary (by decide)) (sealed_parens (sealed_quote id).bracketable)
          exact hone "arg=" (by decide) (by decide) hsome
  | comment c =>
      have heol : Sealed (if c.endOfLine then "true" else "false") := by
        split <;> exact sealed_ordinary (by decide)
      intro x hx
      rcases List.mem_cons.1 hx with rfl | hx
      · exact sealed_named (by decide) (sealed_quote _) (by decide)
      · obtain rfl := List.mem_singleton.1 hx
        exact sealed_named (by decide) heol (by decide)
  | directive d =>
      intro x hx
      rcases List.mem_cons.1 hx with rfl | hx
      · exact sealed_named (by decide) (sealed_quoteList _) (by decide)
      · obtain rfl := List.mem_singleton.1 hx
        exact sealed_named (by decide) hpayload (by decide)
  | _ =>
      first
      | exact hone _ (by decide) (by decide) (sealed_quote _)
      | exact fun x hx => absurd hx List.not_mem_nil

theorem Field.sealed_text {field : Field} {children : List String}
    (hname : field.name.toList.all isOrdinary = true) (h : ∀ x ∈ children, Sealed x) :
    Sealed (field.text children) ∧ field.text children ≠ "" := by
  have hvalue : Sealed (if field.isSequence then "[" ++ commaList children ++ "]"
      else children.headD "None") := by
    split
    · exact sealed_commaList h
    · cases children with
      | nil => exact sealed_ordinary (by decide)
      | cons x xs => exact h x List.mem_cons_self
  refine ⟨?_, by simp [Field.text]⟩
  exact ((sealed_ordinary hname).append (sealed_ordinary (by decide))).append hvalue

theorem Kind.sealed_texts {α : Type} {k : Kind α} {payload : String} (hpayload : Sealed payload)
    (hspelled : ∀ value, k = .constant value → value.IsSpelled)
    (hcontents : ∀ xs ∈ contents, ∀ x ∈ xs, Sealed x) :
    ∀ x ∈ k.texts payload contents, Sealed x ∧ x ≠ "" := by
  intro x hx
  rcases List.mem_append.1 hx with hx | hx
  · exact sealed_attributes hpayload hspelled x hx
  · rw [← List.map_uncurry_zip_eq_zipWith] at hx
    obtain ⟨⟨field, children⟩, hmem, rfl⟩ := List.mem_map.1 hx
    obtain ⟨hfield, hchildren⟩ := List.of_mem_zip hmem
    exact Field.sealed_text (k.fields_ordinary field hfield) (hcontents children hchildren)

/-- A name with something between parentheses. -/
theorem sealed_call (name opening : String) {text : String} (hopening : opening = name ++ "(")
    (hname : name.toList.all isOrdinary = true) (htext : Bracketable text) :
    Sealed (opening ++ text ++ ")") := by
  have h := (sealed_ordinary hname).append (sealed_parens htext)
  rwa [← String.append_assoc, ← String.append_assoc, ← hopening] at h

/-! ### Attributes can be read off their texts -/

theorem IsNumber.head {text : String} (h : IsNumber kind text) :
    ∃ c, text.toList.head? = some c ∧ (c.isDigit = true ∨ c = '.') := by
  obtain ⟨c, cs, htext, hc⟩ := h.starts
  exact ⟨c, by rw [htext, List.head?_cons], hc.imp_right And.left⟩

/-- A number is no word and no text between quotes. -/
theorem IsNumber.ne {text other : String} (h : IsNumber kind text) {c : Char}
    (hother : other.toList.head? = some c) (hc : c.isDigit = false ∧ c ≠ '.') : text ≠ other := by
  rintro rfl
  obtain ⟨d, hhead, hd⟩ := h.head
  obtain rfl := Option.some.inj (hother.symm.trans hhead)
  rcases hd with hd | hd
  · rw [hc.1] at hd
    cases hd
  · exact hc.2 hd

theorem IsNumber.kind_eq {kind' : TokenKind} {text : String} (h : IsNumber kind text)
    (h' : IsNumber kind' text) : kind = kind' :=
  congrArg Prod.fst (h.all.symm.trans h'.all)

theorem head?_quote (text : String) : (quote text).toList.head? = some '"' := by
  rw [toList_quote, List.head?_cons]

/-- No number looks like another literal. -/
theorem IsNumber.ne_dump {text : String} (h : IsNumber kind text) (hint : ∀ t, value ≠ .int t)
    (hfloat : ∀ t, value ≠ .float t) : text ≠ value.dump := by
  cases value with
  | int t => exact absurd rfl (hint t)
  | float t => exact absurd rfl (hfloat t)
  | str value => exact h.ne (head?_quote value) (by decide)
  | bool value =>
      cases value with
      | true => exact h.ne (c := 'T') rfl (by decide)
      | false => exact h.ne (c := 'F') rfl (by decide)
  | nothing => exact h.ne (c := 'N') rfl (by decide)

theorem quote_ne {text other : String} (h : other.toList.head? ≠ some '"') : quote text ≠ other := by
  rintro rfl
  exact h (head?_quote text)

theorem Constant.dump_inj {value' : Constant} (h : value.IsSpelled) (h' : value'.IsSpelled)
    (heq : value.dump = value'.dump) : value = value' := by
  cases value with
  | int text =>
      cases value' with
      | int text' => exact congrArg Constant.int heq
      | float text' =>
          obtain rfl : text = text' := heq
          cases IsNumber.kind_eq h h'
      | _ => exact absurd heq (IsNumber.ne_dump h (by simp) (by simp))
  | float text =>
      cases value' with
      | int text' =>
          obtain rfl : text = text' := heq
          cases IsNumber.kind_eq h h'
      | float text' => exact congrArg Constant.float heq
      | _ => exact absurd heq (IsNumber.ne_dump h (by simp) (by simp))
  | str text =>
      cases value' with
      | int | float => exact absurd heq.symm (IsNumber.ne_dump h' (by simp) (by simp))
      | str text' => exact congrArg Constant.str (quote_inj.1 heq)
      | bool value => exact absurd heq (quote_ne (by cases value <;> decide))
      | nothing => exact absurd heq (quote_ne (by decide))
  | bool value =>
      cases value' with
      | int | float => exact absurd heq.symm (IsNumber.ne_dump h' (by simp) (by simp))
      | str text => exact absurd heq.symm (quote_ne (by cases value <;> decide))
      | bool value' => cases value <;> cases value' <;> first | rfl | exact absurd heq (by decide)
      | nothing => cases value <;> exact absurd heq (by decide)
  | nothing =>
      cases value' with
      | int | float => exact absurd heq.symm (IsNumber.ne_dump h' (by simp) (by simp))
      | str text => exact absurd heq.symm (quote_ne (by decide))
      | bool value => cases value <;> exact absurd heq (by decide)
      | nothing => rfl

theorem BinaryOp.name_inj {op op' : BinaryOp} (h : op.name = op'.name) : op = op' := by
  cases op <;> cases op' <;> first | rfl | exact absurd h (by decide)

theorem BoolOp.name_inj {op op' : BoolOp} (h : op.name = op'.name) : op = op' := by
  cases op <;> cases op' <;> first | rfl | exact absurd h (by decide)

theorem UnaryOp.name_inj {op op' : UnaryOp} (h : op.name = op'.name) : op = op' := by
  cases op <;> cases op' <;> first | rfl | exact absurd h (by decide)

theorem CompareOp.name_inj {op op' : CompareOp} (h : op.name = op'.name) : op = op' := by
  cases op <;> cases op' <;> first | rfl | exact absurd h (by decide)

theorem Family.name_inj {family family' : Family} (h : family.name = family'.name) :
    family = family' := by
  cases family <;> cases family' <;> first | rfl | exact absurd h (by decide)

theorem bracketed_inj (hxs : ∀ x ∈ xs, Sealed x ∧ x ≠ "") (hys : ∀ y ∈ ys, Sealed y ∧ y ≠ "")
    (h : "[" ++ commaList xs ++ "]" = "[" ++ commaList ys ++ "]") : xs = ys := by
  refine commaList_inj hxs hys ?_
  simpa using h

theorem quoteList_inj {texts texts' : List String} (h : quoteList texts = quoteList texts') :
    texts = texts' := by
  have hquotes : ∀ ts : List String, ∀ x ∈ ts.map quote, Sealed x ∧ x ≠ "" := by
    intro ts x hx
    obtain ⟨t, _, rfl⟩ := List.mem_map.1 hx
    refine ⟨sealed_quote t, fun hempty => ?_⟩
    have := head?_quote t
    simp [hempty] at this
  exact List.map_injective_iff.2 (fun _ _ => quote_inj.1)
    (bracketed_inj (hquotes texts) (hquotes texts') h)

theorem compareOps_inj {ops ops' : List CompareOp}
    (h : commaList (ops.map CompareOp.name) = commaList (ops'.map CompareOp.name)) : ops = ops' := by
  have hnames : ∀ ops : List CompareOp, ∀ x ∈ ops.map CompareOp.name, Sealed x ∧ x ≠ "" := by
    intro ops x hx
    obtain ⟨op, _, rfl⟩ := List.mem_map.1 hx
    exact ⟨sealed_ordinary op.name_ordinary, by cases op <;> decide⟩
  exact List.map_injective_iff.2 (fun _ _ => CompareOp.name_inj)
    (commaList_inj (hnames ops) (hnames ops') h)

theorem Clause.text_inj {clause clause' : Clause} (h : '(' ∉ clause.name.toList)
    (h' : '(' ∉ clause'.name.toList) (heq : clause.text = clause'.text) : clause = clause' := by
  obtain ⟨name, arguments⟩ := clause
  obtain ⟨name', arguments'⟩ := clause'
  have heq := congrArg String.toList heq
  cases arguments with
  | none =>
      cases arguments' with
      | none =>
          have : name = name' := String.toList_inj.1 heq
          rw [this]
      | some text =>
          refine absurd ?_ h
          have heq : name.toList = (name' ++ "(" ++ text ++ ")").toList := heq
          simp [heq]
  | some text =>
      cases arguments' with
      | none =>
          refine absurd ?_ h'
          have heq : (name ++ "(" ++ text ++ ")").toList = name'.toList := heq
          simp [← heq]
      | some text' =>
          have heq : (name ++ "(" ++ text ++ ")").toList = (name' ++ "(" ++ text' ++ ")").toList := heq
          simp only [String.toList_append, List.append_assoc] at heq
          obtain ⟨hname, htext⟩ := split_unique h h' heq
          have htext : text.toList ++ [')'] = text'.toList ++ [')'] := htext
          have htext := List.append_cancel_right htext
          have hname : name = name' := String.toList_inj.1 hname
          rw [hname, String.toList_inj.1 htext]

/-- A name and the list after it can be read off their text. -/
theorem call_inj {name name' : String} (hname : name.toList.all isOrdinary = true)
    (hname' : name'.toList.all isOrdinary = true) (hxs : ∀ x ∈ xs, Sealed x ∧ x ≠ "")
    (hys : ∀ y ∈ ys, Sealed y ∧ y ≠ "")
    (h : name ++ "(" ++ commaList xs ++ ")" = name' ++ "(" ++ commaList ys ++ ")") :
    name = name' ∧ xs = ys := by
  have hfree : ∀ {text : String}, text.toList.all isOrdinary = true → '(' ∉ text.toList := by
    intro text htext hmem
    exact absurd (List.all_eq_true.1 htext _ hmem) (by decide)
  have h := congrArg String.toList h
  simp only [String.toList_append, List.append_assoc] at h
  obtain ⟨hsame, hlists⟩ := split_unique (hfree hname) (hfree hname') h
  have hlists : (commaList xs).toList ++ [')'] = (commaList ys).toList ++ [')'] := hlists
  exact ⟨String.toList_inj.1 hsame,
    commaList_inj hxs hys (String.toList_inj.1 (List.append_cancel_right hlists))⟩

/-- The word that the text of a payload begins with. -/
def Payload.word {α : Type} : Payload α → String
  | .empty => "Empty"
  | .expression _ => "Expression"
  | .symbol _ => "Symbol"
  | .definition .. => "Definition"
  | .header .. => "Header"
  | .clauses _ => "Clauses"
  | .raw _ => "Raw"

/-- What stands between the parentheses of a payload. -/
def Payload.entries : Payload String → List String
  | .empty => []
  | .expression value => [value]
  | .symbol name => [quote name]
  | .definition name value => quote name :: value.toList
  | .header path form => [quote path, form.dump]
  | .clauses list => [quoteList (list.map Clause.text)]
  | .raw text => [quote text]

theorem Payload.dump_eq {p : Payload String} (h : p ≠ .empty) :
    p.dump = p.word ++ "(" ++ commaList p.entries ++ ")" := by
  cases p with
  | empty => exact absurd rfl h
  | definition name value =>
      cases value <;> simp [dump, entries, word, commaList, ← String.toList_inj]
  | expression | symbol | header | clauses | raw =>
      simp [dump, entries, word, commaList, ← String.toList_inj]

theorem Payload.word_ordinary {α : Type} (p : Payload α) : p.word.toList.all isOrdinary = true := by
  cases p <;> rw [word] <;> decide

theorem Payload.sealed_entries {p : Payload String} (h : ∀ e ∈ p.expressions, Sealed e ∧ e ≠ "") :
    ∀ x ∈ p.entries, Sealed x ∧ x ≠ "" := by
  have hquote : ∀ text, Sealed (quote text) ∧ quote text ≠ "" :=
    fun text => ⟨sealed_quote text, quote_ne (by decide)⟩
  cases p with
  | empty => exact fun x hx => absurd hx List.not_mem_nil
  | expression value => simpa [entries, expressions] using h
  | symbol name | raw name => simpa [entries] using hquote name
  | definition name value =>
      intro x hx
      rcases List.mem_cons.1 hx with rfl | hx
      · exact hquote name
      · exact h x hx
  | header path form =>
      have hform : Sealed form.dump ∧ form.dump ≠ "" := by
        cases form <;> exact ⟨sealed_ordinary (by decide), by decide⟩
      simpa [entries] using ⟨hquote path, hform⟩
  | clauses list =>
      have hlist : quoteList (list.map Clause.text) ≠ "" := by simp [quoteList]
      simpa [entries] using ⟨sealed_quoteList _, hlist⟩

/-- The text of a payload tells where it ends when those of its expressions do. -/
theorem Payload.sealed_dump {p : Payload String} (h : ∀ e ∈ p.expressions, Sealed e ∧ e ≠ "") :
    Sealed p.dump := by
  by_cases hempty : p = .empty
  · rw [hempty]
    exact sealed_ordinary (by decide)
  · rw [dump_eq hempty]
    exact sealed_call p.word _ rfl p.word_ordinary
      (bracketable_commaList fun x hx => (sealed_entries h x hx).1)

theorem HeaderForm.dump_inj {form form' : HeaderForm} (h : form.dump = form'.dump) : form = form' := by
  cases form <;> cases form' <;> first | rfl | exact absurd h (by decide)

/-- Lists that look the same in one view look the same in another that can be told by it. -/
theorem map_eq_of_map_eq {α β γ : Type} {f : α → β} {g : α → γ} {xs ys : List α}
    (htold : ∀ x ∈ xs, ∀ y ∈ ys, f x = f y → g x = g y) (h : xs.map f = ys.map f) :
    xs.map g = ys.map g := by
  induction xs generalizing ys with
  | nil =>
      obtain rfl : ys = [] := by simpa using h.symm
      rfl
  | cons x xs ih =>
      cases ys with
      | nil => simp at h
      | cons y ys =>
          obtain ⟨hhead, htail⟩ := List.cons.inj h
          rw [List.map_cons, List.map_cons, htold x List.mem_cons_self y List.mem_cons_self hhead,
            ih (fun a ha b hb => htold a (List.mem_cons_of_mem x ha) b (List.mem_cons_of_mem y hb))
              htail]

theorem clauses_inj {list list' : List Clause} (h : ∀ clause ∈ list, '(' ∉ clause.name.toList)
    (h' : ∀ clause ∈ list', '(' ∉ clause.name.toList)
    (heq : list.map Clause.text = list'.map Clause.text) : list = list' := by
  have hsame : list.map id = list'.map id := map_eq_of_map_eq
    (fun clause hmem clause' hmem' => Clause.text_inj (h clause hmem) (h' clause' hmem')) heq
  simpa using hsame

theorem Payload.dump_ne_empty {p : Payload String} (h : p ≠ .empty) :
    p.dump ≠ (Payload.empty : Payload String).dump := by
  intro heq
  have hmem : '(' ∈ p.dump.toList := by simp [dump_eq h]
  rw [heq] at hmem
  exact absurd hmem (by decide)

/-- A payload can be read off its text when its expressions tell where they end. -/
theorem Payload.dump_inj {p p' : Payload String} (hp : ∀ e ∈ p.expressions, Sealed e ∧ e ≠ "")
    (hp' : ∀ e ∈ p'.expressions, Sealed e ∧ e ≠ "")
    (hnames : ∀ clause ∈ p.clauseList, '(' ∉ clause.name.toList)
    (hnames' : ∀ clause ∈ p'.clauseList, '(' ∉ clause.name.toList) (h : p.dump = p'.dump) :
    p = p' := by
  by_cases hempty : p = .empty
  · by_cases hempty' : p' = .empty
    · rw [hempty, hempty']
    · exact absurd (hempty ▸ h).symm (dump_ne_empty hempty')
  by_cases hempty' : p' = .empty
  · exact absurd (hempty' ▸ h) (dump_ne_empty hempty)
  rw [dump_eq hempty, dump_eq hempty'] at h
  obtain ⟨hword, hentries⟩ := call_inj p.word_ordinary p'.word_ordinary (sealed_entries hp)
    (sealed_entries hp') h
  cases p <;> cases p' <;> try (simp only [word, String.reduceEq] at hword; done)
  case empty.empty => rfl
  case expression.expression => simpa [entries] using hentries
  case symbol.symbol | raw.raw => simpa [entries, quote_inj] using hentries
  case definition.definition name value name' value' =>
    obtain ⟨hname, hvalue⟩ := List.cons.inj hentries
    rw [quote_inj.1 hname]
    cases value <;> cases value' <;> simp_all
  case header.header path form path' form' =>
    obtain ⟨hpath, hform⟩ := List.cons.inj hentries
    rw [quote_inj.1 hpath, HeaderForm.dump_inj (List.cons.inj hform).1]
  case clauses.clauses list list' =>
    exact congrArg Payload.clauses
      (clauses_inj hnames hnames' (quoteList_inj (List.cons.inj hentries).1))

/-! ### Trees can be read off their dumps -/

/-- A text that can be the dump of a node. -/
structure IsEntry (text : String) : Prop where
  isSealed : Sealed text
  ne_empty : text ≠ ""
  ne_none : text ≠ "None"

theorem IsEntry.filled {text : String} (h : IsEntry text) : Sealed text ∧ text ≠ "" :=
  ⟨h.isSealed, h.ne_empty⟩

/-- The children of a field can be read off its text. -/
theorem Field.text_inj {field : Field} (hxs : ∀ x ∈ xs, IsEntry x) (hys : ∀ y ∈ ys, IsEntry y)
    (fits : field.shape.Admits xs) (fits' : field.shape.Admits ys)
    (h : field.text xs = field.text ys) : xs = ys := by
  obtain ⟨name, shape, operands⟩ := field
  cases shape with
  | sequence =>
      refine bracketed_inj (fun x hx => (hxs x hx).filled) (fun y hy => (hys y hy).filled) ?_
      simpa [text, isSequence] using h
  | one =>
      obtain ⟨x, rfl⟩ := fits
      obtain ⟨y, rfl⟩ := fits'
      simpa [text, isSequence] using h
  | optional =>
      obtain ⟨x, rfl⟩ := fits
      obtain ⟨y, rfl⟩ := fits'
      cases x with
      | none =>
          cases y with
          | none => rfl
          | some y =>
              have hnone : "None" = y := by simpa [text, isSequence] using h
              exact absurd hnone.symm (hys y (by simp)).ne_none
      | some x =>
          cases y with
          | none =>
              have hnone : x = "None" := by simpa [text, isSequence] using h
              exact absurd hnone (hxs x (by simp)).ne_none
          | some y => simpa [text, isSequence] using h

theorem zipWith_text_inj {fields : List Field} (hxs : ∀ xs ∈ contents, ∀ x ∈ xs, IsEntry x)
    (hys : ∀ ys ∈ contents', ∀ y ∈ ys, IsEntry y) (fits : Kind.Fits fields contents)
    (fits' : Kind.Fits fields contents')
    (h : List.zipWith Field.text fields contents = List.zipWith Field.text fields contents') :
    contents = contents' := by
  induction fields generalizing contents contents' with
  | nil => rw [fits, fits']
  | cons field fields ih =>
      obtain ⟨xs, rest, rfl, admits, fits⟩ := fits
      obtain ⟨ys, rest', rfl, admits', fits'⟩ := fits'
      obtain ⟨hfield, hrest⟩ := List.cons.inj h
      rw [Field.text_inj (hxs xs List.mem_cons_self) (hys ys List.mem_cons_self) admits admits' hfield,
        ih (List.forall_mem_cons.1 hxs).2
          (List.forall_mem_cons.1 hys).2 fits fits' hrest]

namespace Kind

variable {α : Type} {k k' : Kind α} {payload : String}

theorem eq_ifStmt_or_directive (h : k.label = "If") :
    (∃ test body orelse, k = .ifStmt test body orelse) ∨ ∃ d, k = .directive d := by
  cases k with
  | ifStmt test body orelse => exact .inl ⟨test, body, orelse, rfl⟩
  | directive d => exact .inr ⟨d, rfl⟩
  | _ => simp [label] at h

/-- A statement and a directive that are both called `If` differ in what comes first. -/
theorem texts_directive_ne {d : Directive α} {test : α} {body orelse : List α} :
    (Kind.directive d).texts payload contents ≠
      (Kind.ifStmt test body orelse).texts payload' contents' := by
  intro h
  cases contents' with
  | nil => simp [texts, attributes, fields] at h
  | cons xs contents' =>
      have hfirst := (List.cons.inj h).1
      have hheads := congrArg (fun text : String => text.toList.head?) hfirst
      simp [Field.text, Field.one] at hheads

/-- Kinds that are written alike are of one form. -/
theorem ctorIdx_of_texts (hlabel : k.label = k'.label)
    (htexts : k.texts payload contents = k'.texts payload' contents') : k.ctorIdx = k'.ctorIdx := by
  have hclash : ∀ family ∈ Family.all, ∀ label ∈ kindLabels, family.name = label → label = "If" := by
    decide +kernel
  rcases k.label_cases with ⟨d, rfl⟩ | hk
  · rcases k'.label_cases with ⟨d', rfl⟩ | hk'
    · rfl
    · have hif := hclash d.family d.family.mem_all _ (List.mem_of_getElem? hk') hlabel
      rcases eq_ifStmt_or_directive hif with ⟨test, body, orelse, rfl⟩ | ⟨d', rfl⟩
      · exact absurd htexts texts_directive_ne
      · rfl
  · rcases k'.label_cases with ⟨d', rfl⟩ | hk'
    · have hif := hclash d'.family d'.family.mem_all _ (List.mem_of_getElem? hk) hlabel.symm
      rcases eq_ifStmt_or_directive hif with ⟨test, body, orelse, rfl⟩ | ⟨d, rfl⟩
      · exact absurd htexts.symm texts_directive_ne
      · rfl
    · have hnodup : kindLabels.Nodup := by decide +kernel
      have hbound := (List.getElem?_eq_some_iff.1 hk).1
      exact (List.getElem?_inj hbound hnodup).1 (by rw [hk, hk', hlabel])

theorem fields_of_ctorIdx (h : k.ctorIdx = k'.ctorIdx) :
    k.fields = k'.fields ∧ ∀ payload payload',
      (k.attributes payload).length = (k'.attributes payload').length := by
  cases k <;> cases k' <;> cases h
  case keyword.keyword.refl arg _ arg' _ =>
    exact ⟨rfl, fun _ _ => by cases arg <;> cases arg' <;> simp only [attributes, List.length_cons]⟩
  all_goals exact ⟨rfl, fun _ _ => by simp only [attributes, List.length_cons]⟩

theorem eq_directive_of_ctorIdx {d : Directive α} (h : (Kind.directive d).ctorIdx = k.ctorIdx) :
    ∃ d', k = .directive d' := by
  cases k with
  | directive d' => exact ⟨d', rfl⟩
  | _ => cases h

/-- Only directives have a payload and a marker. -/
theorem eraseMarker_mapAll (hcode : ∀ d, k ≠ .directive d) (f : α → α) :
    (k.mapAll f).eraseMarker = k.withContents (k.contents.map (·.map f)) := by
  cases k with
  | directive d => exact absurd rfl (hcode d)
  | _ => rfl

theorem named_inj {name text text' : String} (h : [name ++ text] = [name ++ text']) : text = text' := by
  simpa using h

theorem keywordName_inj {id id' : Option String} {value value' : α}
    (h : (Kind.keyword id value).attributes payload = (Kind.keyword id' value').attributes payload') :
    id = id' := by
  cases id with
  | none =>
      cases id' with
      | none => rfl
      | some name' => simp [attributes, ← String.toList_inj] at h
  | some name =>
      cases id' with
      | none => simp [attributes, ← String.toList_inj] at h
      | some name' =>
          have hname : quote name = quote name' := by simpa [attributes] using h
          rw [quote_inj.1 hname]

theorem commentTexts_inj {c c' : Comment}
    (h : (Kind.comment c : Kind α).attributes payload =
      (Kind.comment c' : Kind α).attributes payload') : c = c' := by
  obtain ⟨text, endOfLine⟩ := c
  obtain ⟨text', endOfLine'⟩ := c'
  obtain ⟨htext, hflag⟩ := List.cons.inj h
  have htext : quote text = quote text' := by simpa using htext
  have hflag : endOfLine = endOfLine' := by
    cases endOfLine <;> cases endOfLine' <;> simp at hflag ⊢
  rw [quote_inj.1 htext, hflag]

/-- All of a kind but its children can be read off its attributes. -/
theorem withContents_of_attributes (h : k.ctorIdx = k'.ctorIdx)
    (hcode : ∀ d, k ≠ .directive d) (hspelled : ∀ value, k = .constant value → value.IsSpelled)
    (hspelled' : ∀ value, k' = .constant value → value.IsSpelled)
    (hattributes : k.attributes payload = k'.attributes payload') :
    k.withContents k'.contents = k' := by
  cases k <;> cases k' <;> cases h
  case module | assign | forLoop | whileLoop | ifStmt | exprStmt | pass | breakStmt | continueStmt |
      ifExp | call | subscript | starred | list | tuple | set | dict => rfl
  case returnStmt.returnStmt | slice.slice | arguments.arguments => simp [withContents, contents]
  case functionDef.functionDef | name.name | arg.arg =>
    simp [withContents, contents, quote_inj.1 (named_inj hattributes)]
  case augAssign.augAssign | binOp.binOp =>
    simp [withContents, contents, BinaryOp.name_inj (named_inj hattributes)]
  case boolOp.boolOp => simp [withContents, contents, BoolOp.name_inj (named_inj hattributes)]
  case unaryOp.unaryOp => simp [withContents, contents, UnaryOp.name_inj (named_inj hattributes)]
  case compare.compare ops _ _ ops' _ =>
    have hops : commaList (ops.map CompareOp.name) = commaList (ops'.map CompareOp.name) := by
      simpa [attributes] using hattributes
    simp [withContents, contents, compareOps_inj hops]
  case constant.constant value value' =>
    exact congrArg constant
      (Constant.dump_inj (hspelled value rfl) (hspelled' value' rfl) (named_inj hattributes))
  case keyword.keyword id _ id' _ =>
    simp [withContents, contents, keywordName_inj hattributes]
  case comment.comment c c' => exact congrArg comment (commentTexts_inj hattributes)
  case directive.directive d _ => exact absurd rfl (hcode d)
  -- what is left are the members of values
  simp [withContents, contents, quote_inj.1 (named_inj hattributes)]

end Kind

theorem Kind.fits_map {α β : Type} (f : α → β) : ∀ {fields : List Field} {contents : List (List α)},
    Kind.Fits fields contents → Kind.Fits fields (contents.map (·.map f))
  | [], _, fits => by rw [fits]; rfl
  | field :: fields, _, fits => by
      obtain ⟨cs, rest, rfl, admits, fits⟩ := fits
      exact ⟨cs.map f, _, rfl, admits.map f, fits_map f fits⟩

namespace Node

theorem fits_childTexts (n : Node) : Kind.Fits n.kind.fields n.childTexts :=
  Kind.fits_map _ n.kind.fits_contents

/-- The numbers and payloads of the tree tell where their texts end. -/
structure Readable (n : Node) : Prop where
  spelled : n.Spelled
  payloads : ∀ m ∈ n.preorder, Sealed (payloadText m.kind.payload)

theorem Readable.of_mem {n c : Node} (h : n.Readable) (hc : c ∈ n.children) : c.Readable :=
  ⟨h.spelled.of_mem hc, fun m hm => h.payloads m (mem_preorder_iff.2 (.inr ⟨c, hc, hm⟩))⟩

theorem Readable.sealed_texts {n : Node} (h : n.Readable)
    (hchildren : ∀ c ∈ n.children, IsEntry (c.dump .standard)) :
    ∀ x ∈ n.kind.texts (payloadText n.kind.payload) n.childTexts, Sealed x ∧ x ≠ "" := by
  refine Kind.sealed_texts (h.payloads n n.self_mem_preorder)
    (h.spelled n n.self_mem_preorder) fun xs hxs x hx => ?_
  obtain ⟨cs, hcs, rfl⟩ := List.mem_map.1 hxs
  obtain ⟨c, hc, rfl⟩ := List.mem_map.1 hx
  exact (hchildren c (List.mem_flatten.2 ⟨cs, hcs, hc⟩)).isSealed

/-- The dump of a tree tells where it ends. -/
theorem Readable.isEntry_dump {n : Node} (h : n.Readable) : IsEntry (n.dump .standard) := by
  induction n with
  | step n ih =>
      have htexts := h.sealed_texts fun c hc => ih c hc (h.of_mem hc)
      have hparen : '(' ∈ (n.dump .standard).toList := by simp [dump_standard]
      refine ⟨?_, ?_, ?_⟩
      · rw [dump_standard]
        exact sealed_call n.label _ rfl n.kind.label_ordinary
          (bracketable_commaList fun x hx => (htexts x hx).1)
      · intro hempty
        simp [hempty] at hparen
      · intro hnone
        rw [hnone] at hparen
        exact absurd hparen (by decide)

theorem Readable.isEntry_childTexts {n : Node} (h : n.Readable) :
    ∀ xs ∈ n.childTexts, ∀ x ∈ xs, IsEntry x := by
  intro xs hxs x hx
  obtain ⟨cs, hcs, rfl⟩ := List.mem_map.1 hxs
  obtain ⟨c, hc, rfl⟩ := List.mem_map.1 hx
  exact (h.of_mem (List.mem_flatten.2 ⟨cs, hcs, hc⟩)).isEntry_dump

/-- What the directives of two trees say can be told by its text. -/
def PayloadsTold (n m : Node) : Prop :=
  ∀ a ∈ n.preorder, ∀ b ∈ m.preorder,
    payloadText a.kind.payload = payloadText b.kind.payload →
      a.kind.payload.map shown = b.kind.payload.map shown

/-- Layers that are written alike show the same. -/
theorem shown_of_texts {n m : Node} (hn : n.Readable) (hm : m.Readable) (told : PayloadsTold n m)
    (hlabel : n.label = m.label) (hidx : n.kind.ctorIdx = m.kind.ctorIdx)
    (hattributes : n.kind.attributes (payloadText n.kind.payload) =
      m.kind.attributes (payloadText m.kind.payload))
    (hcontents : n.kind.contents.map (·.map shown) = m.kind.contents.map (·.map shown)) :
    n.shown = m.shown := by
  have hspelled := hn.spelled n n.self_mem_preorder
  have hspelled' := hm.spelled m m.self_mem_preorder
  have htold := told n n.self_mem_preorder m m.self_mem_preorder
  rw [shown_eq, shown_eq]
  refine congrArg (Node.mk · none) ?_
  obtain ⟨k, _⟩ := n
  obtain ⟨k', _⟩ := m
  by_cases hdirective : ∃ d, k = .directive d
  · obtain ⟨d, rfl⟩ := hdirective
    obtain ⟨d', rfl⟩ := Kind.eq_directive_of_ctorIdx hidx
    obtain ⟨hkeywords, hpayload⟩ := List.cons.inj hattributes
    have hkeywords : quoteList d.keywords = quoteList d'.keywords := by simpa using hkeywords
    have hpayload : d.payload.map shown = d'.payload.map shown := htold (Kind.named_inj hpayload)
    show Kind.directive ⟨d.family, d.keywords, d.payload.map shown, ⟨false, false⟩⟩ =
      .directive ⟨d'.family, d'.keywords, d'.payload.map shown, ⟨false, false⟩⟩
    rw [Family.name_inj hlabel, quoteList_inj hkeywords, hpayload]
  · have hcode : ∀ d, k ≠ .directive d := fun d hd => hdirective ⟨d, hd⟩
    have hcode' : ∀ d, k' ≠ .directive d := by
      rintro d rfl
      exact hdirective (Kind.eq_directive_of_ctorIdx hidx.symm)
    have hsame := Kind.withContents_of_attributes hidx hcode hspelled hspelled' hattributes
    have hfits := Kind.fits_map shown k'.fits_contents
    rw [← (Kind.fields_of_ctorIdx hidx).1] at hfits
    calc (k.mapAll shown).eraseMarker
      _ = k.withContents (k.contents.map (·.map shown)) := Kind.eraseMarker_mapAll hcode shown
      _ = k.withContents (k'.contents.map (·.map shown)) := by rw [hcontents]
      _ = (k.withContents k'.contents).withContents (k'.contents.map (·.map shown)) :=
        (k.withContents_withContents hfits).symm
      _ = k'.withContents (k'.contents.map (·.map shown)) := by rw [hsame]
      _ = (k'.mapAll shown).eraseMarker := (Kind.eraseMarker_mapAll hcode' shown).symm

/-- A tree can be read off its dump when what its directives say can be told by its text. -/
theorem shown_of_dump (n : Node) : ∀ {m : Node}, n.Readable → m.Readable → PayloadsTold n m →
    n.dump .standard = m.dump .standard → n.shown = m.shown := by
  induction n with
  | step n ih =>
      intro m hn hm told h
      rw [dump_standard, dump_standard] at h
      obtain ⟨hlabel, htexts⟩ := call_inj n.kind.label_ordinary m.kind.label_ordinary
        (hn.sealed_texts fun c hc => (hn.of_mem hc).isEntry_dump)
        (hm.sealed_texts fun c hc => (hm.of_mem hc).isEntry_dump) h
      have hidx := Kind.ctorIdx_of_texts hlabel htexts
      obtain ⟨hfields, hlengths⟩ := Kind.fields_of_ctorIdx hidx
      obtain ⟨hattributes, hchildren⟩ := List.append_inj htexts (hlengths _ _)
      rw [hfields] at hchildren
      have hsame := zipWith_text_inj hn.isEntry_childTexts hm.isEntry_childTexts
        (hfields ▸ n.fits_childTexts) m.fits_childTexts hchildren
      refine shown_of_texts hn hm told hlabel hidx hattributes ?_
      refine map_eq_of_map_eq (fun cs hcs ds hds htexts => ?_) hsame
      refine map_eq_of_map_eq (fun c hc d hd => ?_) htexts
      have hc : c ∈ n.children := List.mem_flatten.2 ⟨cs, hcs, hc⟩
      have hd : d ∈ m.children := List.mem_flatten.2 ⟨ds, hds, hd⟩
      exact ih c hc (hn.of_mem hc) (hm.of_mem hd) fun a ha b hb =>
        told a (mem_preorder_iff.2 (.inr ⟨c, hc, ha⟩)) b (mem_preorder_iff.2 (.inr ⟨d, hd, hb⟩))

theorem payload_of_code {n : Node} (h : n.isTrivia = false) : n.kind.payload = .empty := by
  obtain ⟨kind, span⟩ := n
  cases kind <;> first | rfl | cases h

theorem IsCode.readable {e : Node} (h : e.IsCode) : e.Readable := by
  refine ⟨h.spelled, fun m hm => ?_⟩
  rw [payload_of_code (h.plain m hm)]
  exact sealed_ordinary (by decide)

/-- Code can be read off its dump. -/
theorem IsCode.shown_of_dump {e e' : Node} (h : e.IsCode) (h' : e'.IsCode)
    (heq : e.dump .codeOnly = e'.dump .codeOnly) : e.shown = e'.shown := by
  rw [dump_codeOnly_of_plain e h.plain, dump_codeOnly_of_plain e' h'.plain] at heq
  refine Node.shown_of_dump e h.readable h'.readable ?_ heq
  intro a ha b hb _
  rw [payload_of_code (h.plain a ha), payload_of_code (h'.plain b hb)]

end Node

namespace Payload

theorem expressions_map {α β : Type} (f : α → β) (p : Payload α) :
    (p.map f).expressions = p.expressions.map f := by
  cases p with
  | definition name value => cases value <;> rfl
  | _ => rfl

theorem clauseList_map {α β : Type} (f : α → β) (p : Payload α) :
    (p.map f).clauseList = p.clauseList := by
  cases p with
  | definition name value => cases value <;> rfl
  | _ => rfl

theorem map_told {α β γ : Type} {f : α → β} {g : α → γ} {p p' : Payload α}
    (told : ∀ e ∈ p.expressions, ∀ e' ∈ p'.expressions, f e = f e' → g e = g e')
    (h : p.map f = p'.map f) : p.map g = p'.map g := by
  have hexpressions : p.expressions.map g = p'.expressions.map g :=
    map_eq_of_map_eq told (by rw [← expressions_map, h, expressions_map])
  have hrest : p.map (fun _ => ()) = p'.map (fun _ => ()) := by
    rw [← map_map (fun _ => ()) f p, h, map_map]
  cases p with
  | definition name value =>
      cases p' with
      | definition name' value' =>
          cases value <;> cases value' <;> simp_all [map, mapMem, expressions]
      | _ => cases value <;> cases hrest
  | _ =>
      cases p' with
      | definition name' value' => cases value' <;> cases hrest
      | _ => simp_all [map, mapMem, expressions]

variable {p p' : Payload Node}

theorem Legible.isEntry (h : p.Legible) :
    ∀ x ∈ (p.map (·.dump .codeOnly)).expressions, Sealed x ∧ x ≠ "" := by
  intro x hx
  rw [expressions_map] at hx
  obtain ⟨e, he, rfl⟩ := List.mem_map.1 hx
  rw [e.dump_codeOnly_of_plain (h.code e he).plain]
  exact (h.code e he).readable.isEntry_dump.filled

/-- What a directive says can be told by its text. -/
theorem Legible.told (h : p.Legible) (h' : p'.Legible)
    (heq : Node.payloadText p = Node.payloadText p') : p.map Node.shown = p'.map Node.shown := by
  refine map_told (fun e he e' he' => ?_) (dump_inj h.isEntry h'.isEntry ?_ ?_ heq)
  · exact (h.code e he).shown_of_dump (h'.code e' he')
  · rw [clauseList_map]
    exact h.names
  · rw [clauseList_map]
    exact h'.names

end Payload

namespace Node.Legible

variable {n m : Node}

theorem payload (h : n.Legible) {a : Node} (ha : a ∈ n.preorder) : a.kind.payload.Legible := by
  have hdirective := h.payloads a ha
  obtain ⟨kind, span⟩ := a
  cases kind with
  | directive d => exact hdirective d rfl
  | _ => exact ⟨by simp [Kind.payload, Payload.expressions], by simp [Kind.payload, Payload.clauseList]⟩

theorem readable (h : n.Legible) : n.Readable :=
  ⟨h.spelled, fun _ ha => Payload.sealed_dump (h.payload ha).isEntry⟩

/-- A legible tree can be read off its dump, but for spans and markers. -/
theorem shown_eq (h : n.Legible) (h' : m.Legible) (heq : n.dump .standard = m.dump .standard) :
    n.shown = m.shown :=
  shown_of_dump n h.readable h'.readable
    (fun _ ha _ hb => (h.payload ha).told (h'.payload hb)) heq

end Node.Legible

end TriviaTree
