import Mathlib
import TriviaTree.Proofs.Printing.Agreement
import TriviaTree.Proofs.Tree.Stripping

/-!
Printing with trivia writes each of them once.

Every comment and every directive starts with a mark `#`, and nothing else writes one when the strings
of a tree have none. `Action.AddsMarks` counts the marks that an action adds to a page, whatever the page;
the count is a sum over what the action is put together from, and regrouping the entries of a
dictionary keeps the sum (`Carries.dictItems`). By induction on the tree, rendering a node adds one mark
for each of its trivia (`counted`), provided that no layer leaves part of itself unwritten
(`Kind.Written`): a dictionary stops at the end of its keys or values, a comparison at the end of its
operators.
-/

set_option autoImplicit false

namespace TriviaTree

/-! ### Marks -/

namespace Action

/-- The action adds `count` marks to a page. -/
def AddsMarks (count : Nat) (action : Action) : Prop :=
  ∀ page : Page, (action page).written.count '#' = page.written.count '#' + count

/-- The marks that an action puts on a blank page. -/
def marks (action : Action) : Nat :=
  (action (.blank .standard)).written.count '#'

namespace AddsMarks

variable {i j : Nat} {a : Action} {xs ys : List Action}

theorem marks_eq (h : AddsMarks i a) : a.marks = i := by
  simpa [Page.blank, marks] using h (.blank .standard)

theorem cast (h : AddsMarks i a) (heq : i = j) : AddsMarks j a :=
  heq ▸ h

protected theorem skip : AddsMarks 0 Action.skip := fun _ => rfl

theorem text_count (s : String) : AddsMarks (s.toList.count '#') (.text s) := fun page => by
  simp [Action.text, Page.write, Nat.add_comm]

protected theorem text {s : String} (h : '#' ∉ s.toList := by decide) : AddsMarks 0 (.text s) :=
  (text_count s).cast (List.count_eq_zero.2 h)

theorem newline (page : Page) (level : Nat) :
    (page.newline level).written.count '#' = page.written.count '#' := by
  simp [Page.newline, Page.spaces, List.count_replicate]

protected theorem fill {s : String} (h : '#' ∉ s.toList := by decide) : AddsMarks 0 (.fill s) :=
  fun page => (AddsMarks.text h (page.newline page.indentLevel)).trans (by rw [newline])

theorem done : AddsMarks 0 (.all []) := fun _ => rfl

theorem next (h : AddsMarks i a) (hs : AddsMarks j (.all xs)) : AddsMarks (i + j) (.all (a :: xs)) :=
  fun page => (hs (a page)).trans (by rw [h page, Nat.add_assoc])

theorem last (h : AddsMarks i a) : AddsMarks i (.all [a]) :=
  (h.next done).cast (Nat.add_zero i)

/-- A text without marks first. -/
theorem word {s : String} (hs : AddsMarks j (.all xs)) (h : '#' ∉ s.toList := by decide) :
    AddsMarks j (.all (.text s :: xs)) :=
  ((AddsMarks.text h).next hs).cast (Nat.zero_add j)

/-- A new line first. -/
theorem line {s : String} (hs : AddsMarks j (.all xs)) (h : '#' ∉ s.toList := by decide) :
    AddsMarks j (.all (.fill s :: xs)) :=
  ((AddsMarks.fill h).next hs).cast (Nat.zero_add j)

theorem append (hxs : AddsMarks i (.all xs)) (hys : AddsMarks j (.all ys)) :
    AddsMarks (i + j) (.all (xs ++ ys)) := fun page => by
  rw [all, List.foldl_append]
  exact (hys _).trans (by rw [← Nat.add_assoc, ← hxs page]; rfl)

theorem map {α : Type} {f : α → Action} {w : α → Nat} {zs : List α}
    (h : ∀ z ∈ zs, AddsMarks (w z) (f z)) : AddsMarks (zs.map w).sum (.all (zs.map f)) := by
  induction zs with
  | nil => exact done
  | cons z zs ih =>
      exact (h z List.mem_cons_self).next (ih fun y hy => h y (List.mem_cons_of_mem z hy))

theorem parens (needed : Bool) (h : AddsMarks i a) : AddsMarks i (.parens needed a) := by
  cases needed with
  | true => exact (h.next done.word).word.cast (Nat.add_zero i)
  | false => exact h

theorem indented (h : AddsMarks i a) : AddsMarks i (.indented a) := fun page => h page.indent

theorem separated {separator : String} (hseparator : '#' ∉ separator.toList) {α : Type}
    {f : α → Action} {w : α → Nat} :
    ∀ {zs : List α}, (∀ z ∈ zs, AddsMarks (w z) (f z)) →
      AddsMarks (zs.map w).sum (.separated separator (zs.map f))
  | [], _ => AddsMarks.skip
  | [z], h => (h z List.mem_cons_self).cast (by simp)
  | z :: y :: zs, h =>
      have hrest := separated hseparator fun x hx => h x (List.mem_cons_of_mem z hx)
      (h z List.mem_cons_self).next ((hrest.next done).word hseparator)

end AddsMarks

end Action

/-! ### Lists with commas -/

open TriviaTree.Action (AddsMarks)

/-- The entries add marks whatever the page, and `total` together. -/
structure Carries (total : Nat) (entries : List Item) : Prop where
  each : ∀ item ∈ entries, AddsMarks item.write.marks item.write
  sum_eq : (entries.map (·.write.marks)).sum = total

namespace Carries

variable {i j : Nat} {entries more : List Item}

theorem nil : Carries 0 [] := ⟨by simp, rfl⟩

theorem one {item : Item} (h : AddsMarks i item.write) : Carries i [item] := by
  refine ⟨fun other hother => ?_, by simp [h.marks_eq]⟩
  obtain rfl := List.mem_singleton.1 hother
  exact h.cast h.marks_eq.symm

theorem append (h : Carries i entries) (h' : Carries j more) : Carries (i + j) (entries ++ more) :=
  ⟨List.forall_mem_append.2 ⟨h.each, h'.each⟩, by simp [h.sum_eq, h'.sum_eq]⟩

theorem cast (h : Carries i entries) (heq : i = j) : Carries j entries :=
  heq ▸ h

theorem of_append (h : Carries i (entries ++ more)) :
    ∃ a b, Carries a entries ∧ Carries b more ∧ a + b = i := by
  obtain ⟨heach, hsum⟩ := h
  rw [List.forall_mem_append] at heach
  exact ⟨_, _, ⟨heach.1, rfl⟩, ⟨heach.2, rfl⟩, by simpa using hsum⟩

theorem write {item : Item} (h : Carries i [item]) : AddsMarks i item.write :=
  (h.each item List.mem_cons_self).cast (by simpa using h.sum_eq)

theorem writes (h : Carries i entries) : AddsMarks i (.all (entries.map (·.write))) :=
  (AddsMarks.map h.each).cast h.sum_eq

theorem map {α : Type} {f : α → Item} {w : α → Nat} {zs : List α}
    (h : ∀ z ∈ zs, AddsMarks (w z) (f z).write) : Carries (zs.map w).sum (zs.map f) := by
  induction zs with
  | nil => exact nil
  | cons z zs ih =>
      exact (one (h z List.mem_cons_self)).append (ih fun y hy => h y (List.mem_cons_of_mem z hy))

theorem joinItems (h : Carries i entries) : AddsMarks i (joinItems entries) := by
  induction entries generalizing i with
  | nil => exact AddsMarks.skip.cast h.sum_eq
  | cons item entries ih =>
      have hfirst := h.each item List.mem_cons_self
      have hrest := ih ⟨fun other hother => h.each other (List.mem_cons_of_mem item hother), rfl⟩
      have hsum := h.sum_eq
      rw [List.map_cons, List.sum_cons] at hsum
      cases entries with
      | nil => exact hfirst.cast (by simpa using hsum)
      | cons next entries =>
          have hcomma : AddsMarks 0 (if item.isTrivia then Action.skip else .text ", ") := by
            split
            · exact AddsMarks.skip
            · exact AddsMarks.text
          exact (hfirst.next (hcomma.next (hrest.next .done))).cast (by omega)

theorem writeTuple (h : Carries i entries) (parenthesize : Bool) :
    AddsMarks i (writeTuple .trivia parenthesize entries) := by
  refine AddsMarks.parens _ ((h.joinItems.next (AddsMarks.next (i := 0) ?_ .done)).cast (by simp))
  split
  · exact AddsMarks.text
  · exact AddsMarks.skip

end Carries

/-- Groups of entries, one after the other. -/
def flatGroups (groups : List (List Item × Item)) : List Item :=
  groups.flatMap fun group => group.1 ++ [group.2]

/-- Grouping loses nothing and makes a group for each entry that is no trivia. -/
theorem groupTrivia_flat (pending entries : List Item) :
    flatGroups (groupTrivia pending entries).1 ++ (groupTrivia pending entries).2 =
        pending ++ entries ∧
      (groupTrivia pending entries).1.length = entries.countP (!·.isTrivia) := by
  induction entries generalizing pending with
  | nil => simp [groupTrivia, flatGroups]
  | cons item entries ih =>
      by_cases htrivia : item.isTrivia = true
      · have hstep : groupTrivia pending (item :: entries) = groupTrivia (pending ++ [item]) entries := by
          simp [groupTrivia, htrivia]
        obtain ⟨hflat, hlength⟩ := ih (pending ++ [item])
        rw [hstep, hflat, hlength]
        simp [htrivia]
      · obtain ⟨hflat, hlength⟩ := ih []
        simp only [flatGroups, List.nil_append] at hflat
        simp [groupTrivia, htrivia, flatGroups, hflat, hlength]

namespace Carries

variable {i j : Nat}

/-- A key and its value with the trivia around them are one entry. -/
theorem pair {before between : List Item} {key value : Item} (h : Carries i (before ++ [key]))
    (h' : Carries j (between ++ [value])) :
    Carries (i + j) (before ++ [⟨false, .all ([key.write, .text ": "] ++ between.map (·.write) ++
      [value.write])⟩]) := by
  obtain ⟨_, _, hbefore, hkey, rfl⟩ := h.of_append
  obtain ⟨_, _, hbetween, hvalue, rfl⟩ := h'.of_append
  refine (hbefore.append (one ?_)).cast (Nat.add_assoc ..).symm
  have hwords : AddsMarks _ (.all [key.write, .text ": "]) := hkey.write.next (.word .done)
  exact ((hwords.append hbetween.writes).append (hvalue.write.next .done)).cast (by omega)

theorem pairs {groups groups' : List (List Item × Item)} (h : Carries i (flatGroups groups))
    (h' : Carries j (flatGroups groups')) (hpaired : groups.length = groups'.length ∨ i + j = 0) :
    Carries (i + j) ((groups.zip groups').flatMap fun ((keyTrivia, key), (valueTrivia, value)) =>
      keyTrivia ++ [⟨false, .all ([key.write, .text ": "] ++ valueTrivia.map (·.write) ++
        [value.write])⟩]) := by
  induction groups generalizing i j groups' with
  | nil =>
      cases groups' with
      | nil => exact nil.cast (by rw [← h.sum_eq, ← h'.sum_eq]; rfl)
      | cons group' groups' => exact nil.cast (hpaired.resolve_left (by simp)).symm
  | cons group groups ih =>
      cases groups' with
      | nil => exact nil.cast (hpaired.resolve_left (by simp)).symm
      | cons group' groups' =>
          obtain ⟨_, _, hfirst, hrest, rfl⟩ := h.of_append
          obtain ⟨_, _, hfirst', hrest', rfl⟩ := h'.of_append
          refine ((hfirst.pair hfirst').append (ih hrest hrest' ?_)).cast (by omega)
          rcases hpaired with hlength | hnone
          · exact .inl (by simpa using hlength)
          · exact .inr (by omega)

/-- The marks of a dictionary are those of its keys and its values, when each key has a value or there
are none at all. -/
theorem dictItems {keys values : List Item} (hkeys : Carries i keys) (hvalues : Carries j values)
    (hpaired : keys.countP (!·.isTrivia) = values.countP (!·.isTrivia) ∨ i + j = 0) :
    Carries (i + j) (dictItems .trivia keys values) := by
  obtain ⟨hflat, hlength⟩ := groupTrivia_flat [] keys
  obtain ⟨hflat', hlength'⟩ := groupTrivia_flat [] values
  rw [List.nil_append] at hflat hflat'
  rw [← hflat] at hkeys
  rw [← hflat'] at hvalues
  obtain ⟨_, _, hgroups, htail, rfl⟩ := hkeys.of_append
  obtain ⟨_, _, hgroups', htail', rfl⟩ := hvalues.of_append
  refine (((hgroups.pairs hgroups' ?_).append htail).append htail').cast (by omega)
  rcases hpaired with hcount | hnone
  · exact .inl (by rw [hlength, hlength', hcount])
  · exact .inr (by omega)

end Carries

/-! ### Comments and directives -/

/-- Leaving out other characters at the start. -/
theorem count_dropWhile {c d : Char} (h : c ≠ d) (cs : List Char) :
    (cs.dropWhile (· = d)).count c = cs.count c := by
  induction cs with
  | nil => rfl
  | cons e cs ih =>
      by_cases he : e = d
      · subst he
        rw [List.dropWhile_cons_of_pos (by simp), ih, List.count_cons_of_ne h.symm]
      · rw [List.dropWhile_cons_of_neg (by simpa using he)]

namespace Action.AddsMarks

variable {i : Nat} {a : Action}

theorem bracketed (endOfLine : Bool) (h : AddsMarks i a) : AddsMarks i (writeBracketed endOfLine a) := by
  intro page
  have hspaces : (Page.spaces page.options.eolPadding).count '#' = 0 := by
    simp [Page.spaces, List.count_replicate]
  rw [writeBracketed, Page.continuation, newline, h]
  congr 1
  split
  · rfl
  · split
    · rw [List.count_append, Page.trimTrailingSpaces, hspaces, count_dropWhile (by decide),
        Nat.zero_add]
    · rw [Page.continuation, newline, Page.trimTrailingSpaces, count_dropWhile (by decide)]

theorem trivia (place : Place) (endOfLine : Bool) {statement : Action} (h : AddsMarks i a)
    (h' : AddsMarks i statement) : AddsMarks i (writeTrivia .trivia place endOfLine a statement) := by
  rw [writeTrivia]
  split
  · exact h.bracketed endOfLine
  · exact h'

theorem comment {c : Comment} (h : '#' ∉ c.payload.toList) (place : Place) :
    AddsMarks 1 (writeTrivia .trivia place c.endOfLine (.text c.line) (writeComment c)) := by
  have hline : c.line.toList.count '#' = 1 := by
    simp [Comment.line, List.count_eq_zero.2 h]
  refine trivia _ _ ((text_count c.line).cast hline) fun page => ?_
  have hspaces : (Page.spaces page.options.eolPadding).count '#' = 0 := by
    simp [Page.spaces, List.count_replicate]
  rw [writeComment]
  split
  · simp [Page.writePadded, Page.write, hline, hspaces, Nat.add_comm]
  · exact ((text_count c.line).cast hline (page.newline _)).trans (by rw [newline])

end Action.AddsMarks

/-! ### Strings -/

def Constant.strings : Constant → List String
  | .int text => [text]
  | .float text => [text]
  | .str value => [value]
  | _ => []

def Payload.strings {α : Type} : Payload α → List String
  | .symbol name => [name]
  | .definition name _ => [name]
  | .header path _ => [path]
  | .clauses list => list.flatMap fun clause => clause.name :: clause.arguments.toList
  | .raw text => [text]
  | _ => []

/-- The strings of a layer. -/
def Kind.strings {α : Type} : Kind α → List String
  | .functionDef id _ _ => [id]
  | .attribute _ attr => [attr]
  | .name id => [id]
  | .constant value => value.strings
  | .arg id _ => [id]
  | .keyword id _ => id.toList
  | .comment c => [c.payload]
  | .directive d => d.keywords ++ d.payload.strings
  | _ => []

theorem Text.mark_notMem_literalChar {quote c : Char} (hc : c ≠ '#') : '#' ∉ literalChar quote c := by
  have hdigit : ∀ n < 16, '#' ≠ Nat.digitChar n := by decide
  by_cases hcontrol : isControl c = true
  · have hlow : c.toNat / 16 < 16 := by
      simp only [isControl, Bool.or_eq_true, Bool.and_eq_true, decide_eq_true_eq] at hcontrol
      omega
    have hhigh := hdigit _ (Nat.mod_lt c.toNat (by decide : 0 < 16))
    unfold literalChar
    split_ifs <;> simp [hdigit _ hlow, hhigh, hc.symm]
  · unfold literalChar
    split_ifs <;> simp [hc.symm]

theorem Constant.mark_notMem_source {value : Constant}
    (h : ∀ s ∈ value.strings, '#' ∉ s.toList) : '#' ∉ value.source.toList := by
  cases value with
  | int text | float text => exact h text List.mem_cons_self
  | str value =>
      have hvalue := h value List.mem_cons_self
      have hquote : '#' ≠ Text.quoteFor value.toList := by
        unfold Text.quoteFor
        split <;> decide
      have hbody : '#' ∉ value.toList.flatMap (Text.literalChar (Text.quoteFor value.toList)) := by
        rw [List.mem_flatMap]
        rintro ⟨c, hc, hmark⟩
        exact Text.mark_notMem_literalChar (fun heq => hvalue (heq ▸ hc)) hmark
      simp [source, Text.quoteString, hquote, hbody]
  | bool value => cases value <;> decide
  | nothing => decide

theorem Clause.mark_notMem_text {clause : Clause} (hname : '#' ∉ clause.name.toList)
    (harguments : ∀ s ∈ clause.arguments, '#' ∉ s.toList) : '#' ∉ clause.text.toList := by
  obtain ⟨called, arguments⟩ := clause
  cases arguments with
  | none => exact hname
  | some arguments =>
      have hinside := harguments arguments rfl
      simp [text, hname, hinside]

/-- A directive has one mark, its first. -/
theorem Action.AddsMarks.directive {d : Directive Node} {payload : Payload Action}
    (hkeywords : ∀ s ∈ d.keywords, '#' ∉ s.toList) (hstrings : ∀ s ∈ payload.strings, '#' ∉ s.toList)
    (hexpressions : ∀ a ∈ payload.expressions, AddsMarks 0 a) : AddsMarks 1 (writeDirective d payload) := by
  have hcolon : ∀ s : String, '#' ∉ s.toList →
      '#' ∉ (s ++ (if d.marker.colon then ":" else "")).toList := by
    intro s hs
    cases d.marker.colon <;> simp [hs]
  have hspace : ∀ s : String, '#' ∉ s.toList → '#' ∉ (" " ++ s).toList := by
    intro s hs
    simp [hs]
  refine AddsMarks.cast (.append (.append (i := 1) (j := 0) ?_ ?_) (j := 0) ?_) rfl
  · refine ((text_count _).next .done).cast ?_
    cases d.marker.padded <;> rfl
  · cases hwords : d.keywords with
    | nil => exact .word .done (by simpa using hcolon "" (by decide))
    | cons first rest =>
        rw [hwords] at hkeywords
        refine .word ?_ (hcolon first (hkeywords first List.mem_cons_self))
        refine (AddsMarks.map (w := fun _ => 0) fun word hword => AddsMarks.text (hspace word ?_)).cast (by simp)
        exact hkeywords word (List.mem_cons_of_mem first hword)
  · cases payload with
    | empty => exact .done
    | expression value => exact .word ((hexpressions value List.mem_cons_self).next .done)
    | symbol called => exact .word .done (hspace _ (hstrings called List.mem_cons_self))
    | definition called value =>
        have hname := hstrings called List.mem_cons_self
        cases value with
        | none => exact .word .done (hspace _ hname)
        | some value =>
            exact .word ((hexpressions value List.mem_cons_self).next .done) (by simp [hname])
    | header path form =>
        have hpath := hstrings path List.mem_cons_self
        cases form <;> exact .word .done (by simp [hpath])
    | clauses list =>
        refine (AddsMarks.map (w := fun _ => 0) fun clause hclause => AddsMarks.text (hspace _ ?_)).cast
          (by simp)
        have hmem : ∀ s ∈ clause.name :: clause.arguments.toList, '#' ∉ s.toList := fun s hs =>
          hstrings s (List.mem_flatMap.2 ⟨clause, hclause, hs⟩)
        refine Clause.mark_notMem_text (hmem _ List.mem_cons_self) fun s hs => hmem s ?_
        exact List.mem_cons_of_mem _ (Option.mem_toList.2 hs)
    | raw text => exact .word .done (hspace _ (hstrings text List.mem_cons_self))

/-! ### Statements -/

/-- The children add a mark for each of their trivia, wherever they are written. -/
def Weighed (children : List Child) : Prop :=
  ∀ c ∈ children, ∀ place, AddsMarks c.node.triviaCount (c.write place)

/-- The trivia of all children. -/
def weight (children : List Child) : Nat :=
  (children.map (·.node.triviaCount)).sum

namespace Weighed

variable {children : List Child}

theorem lines (h : Weighed children) : AddsMarks (weight children) (.all (children.map (·.write .line))) :=
  AddsMarks.map fun c hc => h c hc .line

theorem block (h : Weighed children) : AddsMarks (weight children) (writeBlock children) :=
  h.lines.indented

theorem items (h : Weighed children) : Carries (weight children) (items children) :=
  Carries.map fun c hc => h c hc (.inline .test)

theorem writeElse (h : Weighed children) : AddsMarks (weight children) (writeElse children) := by
  rw [TriviaTree.writeElse]
  split
  · exact .line (h.block.next .done)
  · exact h.lines

/-- An `elif` stands for all that is left of an `orelse`. -/
theorem eq_singleton_of_elifOf? {rest : List Child} {c : Child} (h : elifOf? .trivia rest = some c) :
    rest = [c] := by
  simp only [elifOf?] at h
  split at h
  · split at h
    · cases h
      rfl
    · cases h
  · cases h

theorem writeOrelse {orelse : List Child} (h : Weighed orelse) (conditions : Bool) (body : List Child) :
    AddsMarks (weight orelse) (writeOrelse .trivia conditions body orelse) := by
  let count := hoisted .trivia body orelse
  have hfront : Weighed (orelse.take count) := fun c hc => h c (List.mem_of_mem_take hc)
  have hback : Weighed (orelse.drop count) := fun c hc => h c (List.mem_of_mem_drop hc)
  have hsum : weight (orelse.take count) + weight (orelse.drop count) = weight orelse := by
    rw [weight, weight, ← List.sum_append, ← List.map_append, List.take_append_drop, weight]
  refine (hfront.lines.append (AddsMarks.next (i := weight (orelse.drop count)) ?_ .done)).cast hsum
  split
  · next c helif =>
    have honly : orelse.drop count = [c] := by
      cases conditions with
      | false => cases helif
      | true => exact eq_singleton_of_elifOf? helif
    have hc := hback c (honly ▸ List.mem_cons_self) .elif
    exact hc.cast (by simp [honly, weight])
  · exact hback.writeElse

end Weighed

/-! ### Trees -/

/-- A dictionary has as many values as keys, and a comparison as many operands as operators. -/
def Kind.isPaired : Kind Node → Bool
  | .dict keys values => keys.countP (!·.isTrivia) = values.countP (!·.isTrivia)
  | .compare _ ops comparators => ops.length = comparators.length
  | _ => true

/-- All trivia of a layer are written, and only they have marks. -/
structure Kind.Written (k : Kind Node) : Prop where
  strings : ∀ s ∈ k.strings, '#' ∉ s.toList
  operands : ∀ entry ∈ k.entries, entry.1.operands = true → ∀ c ∈ entry.2, c.isTrivia = false
  paired : k.isPaired = true ∨ ∀ c ∈ k.children, c.triviaCount = 0
  payload : ∀ e ∈ k.payload.expressions, ∀ place, AddsMarks 0 (render .trivia e place)

/-- Writing the node adds a mark for each of its trivia. -/
structure Counted (n : Node) : Prop where
  render : ∀ place, AddsMarks n.triviaCount (TriviaTree.render .trivia n place)
  subscript : AddsMarks n.triviaCount (writeSubscript .trivia n)

section Layer

variable {ns : List Node}

theorem weighed_renderAll (h : ∀ n ∈ ns, Counted n) : Weighed (renderAll .trivia ns) := by
  intro c hc place
  rw [renderAll_eq] at hc
  obtain ⟨n, hn, rfl⟩ := List.mem_map.1 hc
  exact (h n hn).render place

theorem weight_renderAll (ns : List Node) :
    weight (renderAll .trivia ns) = (ns.map Node.triviaCount).sum := by
  rw [weight, renderAll_eq, List.map_map]
  rfl

theorem marks_block (h : ∀ n ∈ ns, Counted n) :
    AddsMarks (ns.map Node.triviaCount).sum (writeBlock (renderAll .trivia ns)) :=
  (weighed_renderAll h).block.cast (weight_renderAll ns)

theorem marks_orelse (h : ∀ n ∈ ns, Counted n) (conditions : Bool) (body : List Child) :
    AddsMarks (ns.map Node.triviaCount).sum
      (writeOrelse .trivia conditions body (renderAll .trivia ns)) :=
  ((weighed_renderAll h).writeOrelse conditions body).cast (weight_renderAll ns)

theorem carries_items (h : ∀ n ∈ ns, Counted n) :
    Carries (ns.map Node.triviaCount).sum (items (renderAll .trivia ns)) :=
  (weighed_renderAll h).items.cast (weight_renderAll ns)

theorem marks_option {n : Option Node} (h : ∀ m ∈ n, Counted m) {f : Child → Action}
    {none : Action} (hnone : AddsMarks 0 none)
    (hsome : ∀ c : Child, (∀ place, AddsMarks c.node.triviaCount (c.write place)) →
      AddsMarks c.node.triviaCount (f c)) :
    AddsMarks (n.toList.map Node.triviaCount).sum
      (match renderOption .trivia n with
        | some c => f c
        | Option.none => none) := by
  cases n with
  | none => exact hnone
  | some m => exact (hsome _ (h m rfl).render).cast (by simp)

theorem carries_starred {n : Option Node} (h : ∀ m ∈ n, Counted m) {star : String}
    (hstar : '#' ∉ star.toList) :
    Carries (n.toList.map Node.triviaCount).sum ((renderOption .trivia n).map fun c =>
      (⟨false, .all [.text star, c.inline .test]⟩ : Item)).toList := by
  cases n with
  | none => exact Carries.nil
  | some m => exact (Carries.one (.word (AddsMarks.last ((h m rfl).render _)) hstar)).cast (by simp)

theorem carries_parameters {args kwonlyargs : List Node} {vararg kwarg : Option Node}
    (hargs : ∀ n ∈ args, Counted n) (hvararg : ∀ n ∈ vararg, Counted n)
    (hkwonlyargs : ∀ n ∈ kwonlyargs, Counted n) (hkwarg : ∀ n ∈ kwarg, Counted n) :
    Carries ((args.map Node.triviaCount).sum + ((vararg.toList.map Node.triviaCount).sum +
      ((kwonlyargs.map Node.triviaCount).sum + (kwarg.toList.map Node.triviaCount).sum)))
      (parameterItems (renderAll .trivia args) (renderOption .trivia vararg)
        (renderAll .trivia kwonlyargs) (renderOption .trivia kwarg)) := by
  refine (Carries.append (Carries.append (Carries.append (carries_items hargs)
    (j := (vararg.toList.map Node.triviaCount).sum) ?_) (carries_items hkwonlyargs))
      (carries_starred hkwarg (by decide))).cast (by omega)
  cases vararg with
  | none =>
      show Carries 0 (if _ then _ else _)
      split
      · exact Carries.one AddsMarks.text
      · exact Carries.nil
  | some m => exact carries_starred (n := some m) hvararg (by decide)

/-- The operands that are written, one for each operator. -/
theorem marks_comparisons {ops : List CompareOp} (h : ∀ n ∈ ns, Counted n)
    (hcode : ∀ n ∈ ns, n.isTrivia = false)
    (hpaired : ops.length = ns.length ∨ ∀ n ∈ ns, n.triviaCount = 0) :
    AddsMarks (ns.map Node.triviaCount).sum
      (.all ((ops.zip (solid (renderAll .trivia ns))).map fun (op, c) =>
        Action.all [.text (" " ++ op.symbol ++ " "), c.inline Precedence.compare.next])) := by
  rw [solid_renderAll .trivia hcode, List.zip_map_right, List.map_map]
  refine (AddsMarks.map (w := fun pair => pair.2.triviaCount) fun pair hpair => ?_).cast ?_
  · refine .word (AddsMarks.last ((h pair.2 (List.of_mem_zip hpair).2).render _)) ?_
    cases pair.1 <;> decide
  · rcases hpaired with hlength | hnone
    · have hsnd := congrArg (List.map Node.triviaCount) (List.map_snd_zip hlength.ge)
      rw [List.map_map] at hsnd
      exact congrArg List.sum hsnd
    · have hzero : ∀ {m : Nat}, m ∈ ns.map Node.triviaCount → m = 0 := by
        simpa using hnone
      rw [List.sum_eq_zero fun _ hm => hzero hm]
      refine List.sum_eq_zero fun m hm => ?_
      obtain ⟨pair, hpair, rfl⟩ := List.mem_map.1 hm
      exact hnone _ (List.of_mem_zip hpair).2

theorem countP_items (ns : List Node) :
    (items (renderAll .trivia ns)).countP (!·.isTrivia) = ns.countP (!·.isTrivia) := by
  rw [items, renderAll_eq, List.map_map, List.countP_map]
  rfl

theorem strings_renderPayload (p : Payload Node) : (renderPayload p).strings = p.strings := by
  cases p with
  | definition called value => cases value <;> rfl
  | _ => rfl

theorem exists_of_mem_renderPayload {p : Payload Node} {a : Action}
    (h : a ∈ (renderPayload p).expressions) :
    ∃ e ∈ p.expressions, a = render .trivia e (.inline .tuple) := by
  cases p with
  | expression value =>
      exact ⟨value, List.mem_cons_self, by simpa [renderPayload, Payload.expressions] using h⟩
  | definition called value =>
      cases value with
      | none => simp [renderPayload, Payload.expressions] at h
      | some value =>
          exact ⟨value, List.mem_cons_self, by simpa [renderPayload, Payload.expressions] using h⟩
  | _ => simp [renderPayload, Payload.expressions] at h

end Layer

/-- Writing a layer adds the marks of its children, and one more if it is trivia. -/
theorem marks_render {kind : Kind Node} (written : kind.Written)
    (h : ∀ c ∈ kind.children, Counted c) (span : Option Span) (place : Place) :
    AddsMarks (kind.isTrivia.toNat + (kind.children.map Node.triviaCount).sum)
      (render .trivia ⟨kind, span⟩ place) := by
  obtain ⟨strings, operands, paired, payload⟩ := written
  cases kind <;>
    simp [Kind.children, Kind.contents, Kind.isTrivia, Kind.strings, or_imp, forall_and,
      Kind.entries, Kind.fields, Field.one, Field.optional, Field.sequence,
      Field.operandSequence] at h operands strings ⊢
  case module body =>
    rw [render]
    exact (weighed_renderAll h).lines.cast (weight_renderAll body)
  case functionDef called args body =>
    rw [render]
    exact .line (.word (.word ((h.1.render _).next (.word (AddsMarks.last (marks_block h.2))))) strings)
  case returnStmt value =>
    rw [render]
    cases value with
    | none => exact .fill
    | some value => exact .line (.word (AddsMarks.last ((h value rfl).render _)))
  case assign targets value =>
    rw [render, solid_renderAll .trivia operands, List.map_map]
    refine .append (.line (AddsMarks.map fun n hn => ?_)) (AddsMarks.last (h.2.render _))
    exact ((h.1 n hn).render _).next (.word .done)
  case augAssign target op value =>
    rw [render]
    refine .line ((h.1.render _).next (.word (AddsMarks.last (h.2.render _)) ?_))
    cases op <;> decide
  case forLoop target iter body orelse =>
    rw [render]
    exact .line ((h.1.render _).next (.word ((h.2.1.render _).next (.word
      ((marks_block h.2.2.1).next (AddsMarks.last (marks_orelse h.2.2.2 _ _)))))))
  case whileLoop test body orelse =>
    rw [render]
    exact .line ((h.1.render _).next (.word ((marks_block h.2.1).next
      (AddsMarks.last (marks_orelse h.2.2 _ _)))))
  case ifStmt test body orelse =>
    rw [render]
    refine .line ((h.1.render _).next (.word ((marks_block h.2.1).next
      (AddsMarks.last (marks_orelse h.2.2 _ _))))) ?_
    split <;> decide
  case exprStmt value =>
    rw [render]
    exact .line (AddsMarks.last (h.render _))
  case boolOp op values =>
    rw [render, solid_renderAll .trivia operands, List.map_map]
    refine .parens _ (.separated ?_ fun n hn => (h n hn).render _)
    cases op <;> decide
  case binOp left op right =>
    rw [render]
    split
    refine .parens _ ((h.1.render _).next (.word (AddsMarks.last (h.2.render _)) ?_))
    cases op <;> decide
  case unaryOp op operand =>
    rw [render]
    refine .parens _ (.word (AddsMarks.last (h.render _)) ?_)
    cases op <;> decide
  case compare left ops comparators =>
    rw [render]
    refine .parens _ ((h.1.render _).next (marks_comparisons h.2 operands ?_))
    exact paired.imp (by simp [Kind.isPaired]) fun hnone n hn =>
      hnone n (by simp [Kind.children, Kind.contents, hn])
  case ifExp test body orelse =>
    rw [render]
    exact .parens _ (((h.2.1.render _).next (.word ((h.1.render _).next
      (.word (AddsMarks.last (h.2.2.render _)))))).cast (by omega))
  case call func args keywords =>
    rw [render]
    exact (h.1.render _).next (.word (((carries_items h.2.1).append
      (carries_items h.2.2)).joinItems.next (.word .done)))
  case «attribute» value attr =>
    rw [render]
    exact (((h.render _).parens _).next (.word (.word .done strings)))
  case subscript value index =>
    rw [render_subscript]
    exact (h.1.render _).next (.word (h.2.subscript.next (.word .done)))
  case slice lower upper step =>
    rw [render]
    exact (marks_option h.1 .skip fun c hc => hc _).next (.word ((marks_option h.2.1 .skip fun c hc =>
      hc _).next (AddsMarks.last (marks_option h.2.2 .skip fun c hc =>
        .word (AddsMarks.last (hc _))))))
  case starred value =>
    rw [render]
    exact .word (AddsMarks.last (h.render _))
  case name called =>
    rw [render]
    exact .text strings
  case constant value =>
    rw [render]
    exact .text (Constant.mark_notMem_source strings)
  case list elts =>
    rw [render]
    exact .word ((carries_items h).joinItems.next (.word .done))
  case tuple elts =>
    rw [render]
    exact (carries_items h).writeTuple true
  case set elts =>
    rw [render]
    exact .word ((carries_items h).joinItems.next (.word .done))
  case dict keys values =>
    rw [render]
    refine .word (((carries_items h.1).dictItems (carries_items h.2) ?_).joinItems.next
      (.word .done))
    rw [countP_items, countP_items]
    refine paired.imp (by simp [Kind.isPaired]) fun hnone => ?_
    rw [← List.sum_append, ← List.map_append]
    refine List.sum_eq_zero fun m hm => ?_
    obtain ⟨n, hn, rfl⟩ := List.mem_map.1 hm
    exact hnone n (by simpa [Kind.children, Kind.contents] using hn)
  case arguments args vararg kwonlyargs kwarg =>
    rw [render]
    exact (carries_parameters h.1 h.2.1 h.2.2.1 h.2.2.2).joinItems
  case arg called default =>
    rw [render]
    cases default with
    | none => exact .text strings
    | some value =>
        exact .word (.word (AddsMarks.last ((h value rfl).render _))) strings
  case keyword called value =>
    cases called with
    | none =>
        rw [render]
        exact .word (AddsMarks.last (h.render _))
    | some called =>
        rw [render]
        exact .word (.word (AddsMarks.last (h.render _))) (strings called rfl)
  case comment c =>
    rw [render]
    exact .comment strings place
  case directive d =>
    rw [render]
    have hline : AddsMarks 1 (writeDirective d (renderPayload d.payload)) := by
      refine .directive strings.1 (strings_renderPayload d.payload ▸ strings.2) fun a ha => ?_
      obtain ⟨e, he, rfl⟩ := exists_of_mem_renderPayload ha
      exact payload e he _
    exact hline.trivia place false (.line hline.last)
  all_goals
    rw [render]
    exact .fill

theorem counted (n : Node) (written : ∀ m ∈ n.preorder, m.kind.Written) : Counted n := by
  induction n with
  | step n ih =>
    obtain ⟨kind, span⟩ := n
    have hchildren : ∀ c ∈ kind.children, Counted c := fun c hc =>
      ih c hc fun m hm => written m (Node.mem_preorder_iff.2 (.inr ⟨c, hc, hm⟩))
    have hrender : ∀ place, AddsMarks (Node.mk kind span).triviaCount (render .trivia ⟨kind, span⟩ place) :=
      fun place => (marks_render (written _ (Node.mem_preorder_iff.2 (.inl rfl))) hchildren span
        place).cast (Node.triviaCount_eq _).symm
    refine ⟨hrender, ?_⟩
    cases kind with
    | tuple elts =>
        -- a tuple between brackets is written without its parentheses
        have helts : ∀ c ∈ elts, Counted c := fun c hc =>
          hchildren c (by simpa [Kind.children, Kind.contents] using hc)
        refine ((carries_items helts).writeTuple _).cast ?_
        simp [Node.triviaCount_eq ⟨.tuple elts, span⟩, Node.isTrivia, Kind.isTrivia, Node.children,
          Kind.children, Kind.contents]
    | _ => exact hrender (.inline .tuple)

/-- Code without marks in its strings is written without marks. -/
theorem Node.Plain.marks_render {e : Node} (plain : e.Plain)
    (unmarked : ∀ m ∈ e.preorder, ∀ s ∈ m.kind.strings, '#' ∉ s.toList) (place : Place) :
    AddsMarks 0 (render .trivia e place) := by
  refine ((counted e fun m hm => ?_).render place).cast plain.triviaCount_eq
  have hplain := plain.of_mem_preorder m hm
  have hchildren := (Node.plain_iff.1 hplain).2
  refine ⟨unmarked m hm, fun entry hentry _ c hc => ?_, .inr fun c hc => ?_, fun e he => ?_⟩
  · exact (Node.plain_iff.1 (hchildren c (Kind.mem_children_of_mem_entries hentry hc))).1
  · exact (hchildren c hc).triviaCount_eq
  · rw [Node.payload_of_code (Node.plain_iff.1 hplain).1] at he
    cases he

theorem Page.count_finish (page : Page) : page.finish.toList.count '#' = page.written.count '#' := by
  have hstart : (page.written.reverse.dropWhile (· = '\n')).count '#' = page.written.count '#' := by
    rw [count_dropWhile (by decide), List.count_reverse]
  rw [finish]
  split
  · next hnil =>
    rw [← hstart, hnil]
    rfl
  · rw [String.toList_ofList, List.count_append, List.count_reverse, count_dropWhile (by decide),
      List.count_reverse, hstart]
    rfl

/-- All strings of a tree, those of the expressions in its directives too. -/
def Node.strings (n : Node) : List String :=
  n.preorder.flatMap fun m => m.kind.strings ++
    m.kind.payload.expressions.flatMap fun e => e.preorder.flatMap (·.kind.strings)

/-- Printing with trivia writes every comment and every directive once, wherever it stands. -/
theorem count_marks_source {n : Node} (placed : n.WellPlaced)
    (paired : ∀ m ∈ n.preorder, m.kind.isPaired = true)
    (plain : ∀ m ∈ n.preorder, ∀ e ∈ m.kind.payload.expressions, e.Plain)
    (unmarked : ∀ s ∈ n.strings, '#' ∉ s.toList) (options : PageOptions) :
    (n.source .trivia options).toList.count '#' = n.flatten.triviaCount := by
  have hstrings : ∀ m ∈ n.preorder, (∀ s ∈ m.kind.strings, '#' ∉ s.toList) ∧
      ∀ e ∈ m.kind.payload.expressions, ∀ a ∈ e.preorder, ∀ s ∈ a.kind.strings, '#' ∉ s.toList := by
    refine fun m hm => ⟨fun s hs => unmarked s ?_, fun e he a ha s hs => unmarked s ?_⟩ <;>
      refine List.mem_flatMap.2 ⟨m, hm, List.mem_append.2 ?_⟩
    · exact .inl hs
    · exact .inr (List.mem_flatMap.2 ⟨e, he, List.mem_flatMap.2 ⟨a, ha, hs⟩⟩)
  have written : ∀ m ∈ n.preorder, m.kind.Written := by
    intro m hm
    refine ⟨(hstrings m hm).1, fun entry hentry hoperands c hc => ?_, .inl (paired m hm), fun e he =>
      (plain m hm e he).marks_render ((hstrings m hm).2 e he)⟩
    have hown := Node.ownProblems_eq_nil_iff.1 ((Node.wellPlaced_iff.1 placed).2 m hm)
    by_contra htrivia
    have haccepts := hown.1 entry.1 entry.2 hentry c hc (by simpa using htrivia)
    simp [Field.acceptsTrivia, hoperands] at haccepts
  have hmarks := (counted n written).render .line (.blank options)
  rw [Node.source, Page.count_finish, hmarks, Node.triviaCount_flatten]
  simp [Page.blank]

/-- Comments before an `else` and an `elif`, on both sides of a dictionary's colons, among parameters,
and a directive with an expression. -/
theorem count_marks_source_all_routes :
    let remark (endOfLine : Bool) : Node := ⟨.comment ⟨" c", endOfLine⟩, none⟩
    let x : Node := ⟨.name "x", none⟩
    let table : Node := ⟨.dict [remark true, x, x, remark false] [x, remark false, x], none⟩
    let line : Node := ⟨.exprStmt table, none⟩
    let last : Node := ⟨.ifStmt x [line] [remark false], none⟩
    let cond : Node := ⟨.ifStmt x [line] [remark true, last], none⟩
    let loop : Node := ⟨.whileLoop x [cond] [remark false, line], none⟩
    let parameters : Node := ⟨.arguments [remark true] none [⟨.arg "a" none, none⟩, remark true] none, none⟩
    let directive : Node := ⟨.directive ⟨.cond, ["if"], .expression x, ⟨true, true⟩⟩, none⟩
    let tree : Node := ⟨.module [directive, ⟨.functionDef "f" parameters [loop], none⟩], none⟩
    tree.WellPlaced ∧ tree.flatten.triviaCount = 15 ∧
      (tree.source .trivia .standard).toList.count '#' = tree.flatten.triviaCount := by
  intro remark x table line last cond loop parameters directive tree
  have hplaced : tree.WellPlaced := by decide +kernel
  refine ⟨hplaced, by decide +kernel, count_marks_source hplaced (by decide +kernel) ?_
    (by decide +kernel) .standard⟩
  show ∀ m ∈ tree.preorder, ∀ e ∈ m.kind.payload.expressions, ∀ a ∈ e.preorder, a.isTrivia = false
  decide +kernel

end TriviaTree
