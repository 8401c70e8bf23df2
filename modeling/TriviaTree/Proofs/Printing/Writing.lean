import Mathlib
import TriviaTree.Proofs.Printing.Agreement
import TriviaTree.Proofs.Printing.Pieces

/-!
Printing puts the pieces on the page.

`Piece.putAll` puts pieces on a page one after the other, and `putRows` the lines of a statement. A
dressed expression is printed by putting its pieces on the page (`render_pieces`), and a dressed
statement by putting its lines (`render_rows`). A space before trivia is taken back when they are
written, so it makes no difference that the pieces have none (`put_remark_write_space`).
-/

set_option autoImplicit false

namespace TriviaTree

variable {detail : Detail} {n : Node} {body ns orelse : List Node} {chunks : List Chunk}
  {action : Action} (page : Page) (ps : List Piece) (rows : List Row)

/-! ### Actions -/

namespace Action

@[simp] theorem all_nil : all [] page = page := rfl

@[simp] theorem all_cons (action : Action) (actions : List Action) (page : Page) :
    all (action :: actions) page = all actions (action page) := rfl

@[simp] theorem all_append (actions more : List Action) (page : Page) :
    all (actions ++ more) page = all more (all actions page) :=
  List.foldl_append

@[simp] theorem text_apply (s : String) (page : Page) : text s page = page.write s := rfl

@[simp] theorem skip_apply : skip page = page := rfl

@[simp] theorem fill_apply (s : String) (page : Page) :
    fill s page = (page.newline page.indentLevel).write s := rfl

end Action

namespace Page

@[simp] theorem write_append (s t : String) : page.write (s ++ t) = (page.write s).write t := by
  simp [write, Nat.add_assoc]

theorem write_of_eq {s t text : String} (h : text = s ++ t) :
    page.write text = (page.write s).write t := by
  rw [h, write_append]

theorem write_spaced {s text : String} (h : text = " " ++ s ++ " ") :
    page.write text = ((page.write " ").write s).write " " := by
  rw [h, write_append, write_append]

@[simp] theorem write_comma : page.write ", " = (page.write ",").write " " :=
  page.write_of_eq (by decide)

@[simp] theorem write_colon : page.write ": " = (page.write ":").write " " :=
  page.write_of_eq (by decide)

theorem with_indentLevel {page : Page} {level : Nat} (h : page.indentLevel = level) :
    { page with indentLevel := level } = page := by
  subst h
  rfl

@[simp] theorem write_empty : page.write "" = page := rfl

end Page

namespace Piece

/-- Put a piece on the page. -/
def put : Piece → Action
  | .word _ text => .text text
  | .space => .text " "
  | .remark endOfLine text => writeBracketed endOfLine (.text text)

/-- Put pieces on the page, one after the other. -/
def putAll (ps : List Piece) : Action :=
  .all (ps.map put)

@[simp] theorem putAll_nil : putAll [] page = page := rfl

@[simp] theorem putAll_append (qs : List Piece) (page : Page) :
    putAll (ps ++ qs) page = putAll qs (putAll ps page) := by
  simp [putAll]

@[simp] theorem putAll_word (kind : TokenKind) (text : String) (ps : List Piece) (page : Page) :
    putAll (.word kind text :: ps) page = putAll ps (page.write text) := rfl

@[simp] theorem putAll_sign (symbol : String) (ps : List Piece) (page : Page) :
    putAll (sign symbol :: ps) page = putAll ps (page.write symbol) := rfl

@[simp] theorem putAll_term (text : String) (ps : List Piece) (page : Page) :
    putAll (term text :: ps) page = putAll ps (page.write text) := rfl

@[simp] theorem putAll_space (page : Page) :
    putAll (.space :: ps) page = putAll ps (page.write " ") := rfl

/-- A space before trivia is taken back, unless the line has only just begun. -/
theorem put_remark_write_space (endOfLine : Bool) (text : String) {page : Page}
    (h : page.atLineStart = false) :
    (remark endOfLine text).put (page.write " ") = (remark endOfLine text).put page := by
  have hspace : (page.write " ").atLineStart = false := by
    simpa [Page.atLineStart, Page.write] using h
  have htrim : (page.write " ").trimTrailingSpaces = page.trimTrailingSpaces := by
    simp [Page.trimTrailingSpaces, Page.write]
  simp only [put, writeBracketed, h, hspace, htrim, Bool.false_eq_true, if_false]

theorem atLineStart_write {symbol : String} (h : symbol = "," ∨ symbol = ":") :
    (page.write symbol).atLineStart = false := by
  rcases h with rfl | rfl <;> simp [Page.atLineStart, Page.write]

theorem putAll_enclosed (needed : Bool) (ps : List Piece) (h : action = putAll ps) :
    .parens needed action = putAll (enclosed needed ps) := by
  subst h
  cases needed with
  | false => rfl
  | true => exact funext fun page => by simp [Action.parens, enclosed]

theorem separated_eq (separator : String) (between : List Piece)
    (hbetween : Action.text separator = putAll between) (parts : List (List Piece)) :
    .separated separator (parts.map putAll) = putAll (joined between parts) := by
  induction parts using joined.induct with
  | case1 => rfl
  | case2 ps => rfl
  | case3 ps rest hne ih =>
      obtain ⟨next, rest, rfl⟩ := List.exists_cons_of_ne_nil hne
      refine funext fun page => ?_
      rw [List.map_cons] at ih
      rw [List.map_cons, List.map_cons, Action.separated, joined, ih, hbetween] <;> simp

end Piece

open Piece

/-! ### Lists with commas -/

namespace Chunk

/-- The entry that puts the pieces on the page. -/
def item (c : Chunk) : Item :=
  ⟨c.isTrivia, putAll c.pieces⟩

/-- Trivia are one remark. -/
def Fit (c : Chunk) : Prop :=
  c.isTrivia = true → ∃ endOfLine text, c.pieces = [.remark endOfLine text]

end Chunk

theorem listed_cons (chunk : Chunk) (rest : List Chunk) :
    ∃ more, listed (chunk :: rest) = chunk.pieces ++ more := by
  cases rest with
  | nil => exact ⟨[], (List.append_nil _).symm⟩
  | cons next rest => exact ⟨_, List.append_assoc _ _ _⟩

/-- Trivia first in a list take back the space before them. -/
theorem putAll_listed_write_space {chunk : Chunk} (rest : List Chunk) {page : Page}
    (hfit : chunk.Fit) (htrivia : chunk.isTrivia = true) (hpage : page.atLineStart = false) :
    putAll (listed (chunk :: rest)) (page.write " ") = putAll (listed (chunk :: rest)) page := by
  obtain ⟨endOfLine, text, hpieces⟩ := hfit htrivia
  obtain ⟨more, hmore⟩ := listed_cons chunk rest
  rw [hmore, hpieces, putAll_append, putAll_append]
  exact congrArg (putAll more) (put_remark_write_space endOfLine text hpage)

theorem joinItems_map (hfit : ∀ c ∈ chunks, c.Fit) :
    joinItems (chunks.map Chunk.item) = putAll (listed chunks) := by
  induction chunks with
  | nil => rfl
  | cons chunk rest ih =>
      cases rest with
      | nil => rfl
      | cons next rest =>
          have ih := ih (List.forall_mem_cons.1 hfit).2
          rw [List.map_cons] at ih
          refine funext fun page => ?_
          rw [List.map_cons, List.map_cons, joinItems, ih, listed]
          · cases hchunk : chunk.isTrivia with
            | true => simp [Chunk.item, comma, hchunk]
            | false =>
                cases hnext : next.isTrivia with
                | false => simp [Chunk.item, comma, hchunk, hnext]
                | true =>
                    have hback := putAll_listed_write_space rest (hfit next (by simp)) hnext
                      (atLineStart_write (putAll chunk.pieces page) (.inl rfl))
                    simpa [Chunk.item, comma, hchunk, hnext] using hback
          · simp

/-- The entries of a tuple, between parentheses when they are asked for. -/
theorem writeTuple_eq {entries : List Item}
    (hvisible : detail.visible entries = chunks.map Chunk.item) (hfit : ∀ c ∈ chunks, c.Fit)
    (parenthesize : Bool) :
    writeTuple detail parenthesize entries = putAll (enclosed parenthesize (tupled chunks)) := by
  have hcount : (chunks.map Chunk.item).countP (!·.isTrivia) = chunks.countP (!·.isTrivia) := by
    rw [List.countP_map]
    rfl
  have hlast : (chunks.map Chunk.item).getLast?.any (!·.isTrivia) =
      chunks.getLast?.any (!·.isTrivia) := by
    rw [List.getLast?_map, Option.any_map]
    rfl
  simp only [writeTuple, hvisible, joinItems_map hfit, hcount, hlast]
  refine putAll_enclosed _ _ (funext fun page => ?_)
  rw [tupled]
  split <;> simp_all

theorem groupTrivia_map (pending chunks : List Chunk) :
    groupTrivia (pending.map Chunk.item) (chunks.map Chunk.item) =
      ((grouped pending chunks).1.map fun group => (group.1.map Chunk.item, group.2.item),
        (grouped pending chunks).2.map Chunk.item) := by
  induction chunks generalizing pending with
  | nil => rfl
  | cons chunk rest ih =>
      have hpending := ih (pending ++ [chunk])
      have hempty := ih []
      rw [List.map_append, List.map_singleton] at hpending
      rw [List.map_nil] at hempty
      cases htrivia : chunk.isTrivia <;>
        simp [groupTrivia, grouped, Chunk.item, htrivia] <;> simp_all [Chunk.item]

/-- The groups are made of the entries: trivia before an entry that is none. -/
theorem mem_grouped (pending chunks : List Chunk) (hpending : ∀ c ∈ pending, c.isTrivia = true) :
    (∀ group ∈ (grouped pending chunks).1,
      (∀ t ∈ group.1, t.isTrivia = true ∧ t ∈ pending ++ chunks) ∧
        group.2.isTrivia = false ∧ group.2 ∈ chunks) ∧
      ∀ t ∈ (grouped pending chunks).2, t.isTrivia = true ∧ t ∈ pending ++ chunks := by
  induction chunks generalizing pending with
  | nil => exact ⟨by simp [grouped], fun t ht => ⟨hpending t ht, List.mem_append_left _ ht⟩⟩
  | cons chunk rest ih =>
      cases htrivia : chunk.isTrivia with
      | true =>
          have hmore : ∀ c ∈ pending ++ [chunk], c.isTrivia = true := by
            simp only [List.mem_append, List.mem_singleton]
            rintro c (hc | rfl)
            · exact hpending c hc
            · exact htrivia
          obtain ⟨hgroups, htail⟩ := ih _ hmore
          simp only [List.append_assoc, List.singleton_append] at hgroups htail
          simp only [grouped, htrivia, if_true]
          exact ⟨fun group hgroup => ⟨(hgroups group hgroup).1, (hgroups group hgroup).2.1,
            List.mem_cons_of_mem _ (hgroups group hgroup).2.2⟩, htail⟩
      | false =>
          obtain ⟨hgroups, htail⟩ := ih [] (by simp)
          simp only [List.nil_append] at hgroups htail
          have hlater : ∀ t ∈ rest, t ∈ pending ++ chunk :: rest := fun t ht =>
            List.mem_append_right _ (List.mem_cons_of_mem _ ht)
          simp only [grouped, htrivia, Bool.false_eq_true, if_false, List.mem_cons]
          refine ⟨?_, fun t ht => ⟨(htail t ht).1, hlater t (htail t ht).2⟩⟩
          rintro group (rfl | hgroup)
          · exact ⟨fun t ht => ⟨hpending t ht, List.mem_append_left _ ht⟩, htrivia, .inl rfl⟩
          · obtain ⟨hfirst, hsecond, hmem⟩ := hgroups group hgroup
            exact ⟨fun t ht => ⟨(hfirst t ht).1, hlater t (hfirst t ht).2⟩, hsecond, .inr hmem⟩

theorem all_map_write (chunks : List Chunk) (page : Page) :
    Action.all (chunks.map fun c => putAll c.pieces) page =
      putAll (chunks.flatMap (·.pieces)) page := by
  induction chunks generalizing page with
  | nil => rfl
  | cons chunk rest ih => simp [ih]

/-- A key and its value, with the trivia between them. -/
theorem write_pair {trivia : List Chunk} (key value : Chunk)
    (htrivia : ∀ t ∈ trivia, t.isTrivia = true ∧ t.Fit) :
    Action.all ([key.item.write, .text ": "] ++ (trivia.map Chunk.item).map (·.write) ++
      [value.item.write]) = putAll (pair key trivia value).pieces := by
  refine funext fun page => ?_
  cases trivia with
  | nil => simp [pair, Chunk.item]
  | cons t trivia =>
      obtain ⟨endOfLine, text, hpieces⟩ :=
        (htrivia t List.mem_cons_self).2 (htrivia t List.mem_cons_self).1
      have hback := put_remark_write_space endOfLine text
        (atLineStart_write (putAll key.pieces page) (.inr rfl))
      simp only [pair, Chunk.item, hpieces, List.map_cons, List.map_map, Function.comp_def,
        List.isEmpty_cons, List.flatMap_cons, Bool.false_eq_true, if_false, Action.all_append,
        Action.all_cons, Action.all_nil, putAll_append, all_map_write, Action.text_apply,
        Page.write_colon]
      exact congrArg (fun page => putAll value.pieces (putAll (trivia.flatMap (·.pieces)) page))
        hback

theorem dictItems_eq {keys values : List Item} {keyChunks valueChunks : List Chunk}
    (hkeys : detail.visible keys = keyChunks.map Chunk.item)
    (hvalues : detail.visible values = valueChunks.map Chunk.item)
    (hfit : ∀ c ∈ valueChunks, c.Fit) :
    dictItems detail keys values = (paired keyChunks valueChunks).map Chunk.item := by
  have hgroups := (mem_grouped [] valueChunks (by simp)).1
  have hgroupKeys := groupTrivia_map [] keyChunks
  have hgroupValues := groupTrivia_map [] valueChunks
  rw [List.map_nil] at hgroupKeys hgroupValues
  simp only [dictItems, hkeys, hvalues, hgroupKeys, hgroupValues, paired, List.map_append,
    List.zip_map, List.flatMap_map, List.map_flatMap]
  congr 2
  refine List.flatMap_congr fun entry hentry => ?_
  have hmem := List.of_mem_zip (show (entry.1, entry.2) ∈ _ from hentry)
  have hpair := write_pair entry.1.2 entry.2.2
    fun t ht => ⟨((hgroups _ hmem.2).1 t ht).1, hfit t (by simpa using ((hgroups _ hmem.2).1 t ht).2)⟩
  simp only [Prod.map_fst, Prod.map_snd, List.map_cons, List.map_nil, hpair]
  rfl

/-- An entry of a dictionary is trivia, or a key with its value and the trivia between them. -/
theorem mem_paired {keys values : List Chunk} {c : Chunk} (hc : c ∈ paired keys values) :
    c ∈ keys ∨ c ∈ values ∨ ∃ key ∈ keys, ∃ value ∈ values, ∃ trivia : List Chunk,
      key.isTrivia = false ∧ value.isTrivia = false ∧
        (∀ t ∈ trivia, t.isTrivia = true ∧ t ∈ values) ∧ c = pair key trivia value := by
  obtain ⟨hkeyGroups, hkeyTail⟩ := mem_grouped [] keys (by simp)
  obtain ⟨hvalueGroups, hvalueTail⟩ := mem_grouped [] values (by simp)
  simp only [paired, List.mem_append, List.mem_flatMap, List.mem_singleton] at hc
  rcases hc with (⟨entry, hentry, hc⟩ | hc) | hc
  · have hmem := List.of_mem_zip (show (entry.1, entry.2) ∈ _ from hentry)
    obtain ⟨hbefore, hkeySolid, hkey⟩ := hkeyGroups _ hmem.1
    obtain ⟨hbetween, hvalueSolid, hvalue⟩ := hvalueGroups _ hmem.2
    rcases hc with hc | hc
    · exact .inl (hbefore c hc).2
    · exact .inr (.inr ⟨_, hkey, _, hvalue, _, hkeySolid, hvalueSolid, hbetween, hc⟩)
  · exact .inl (hkeyTail c hc).2
  · exact .inr (.inl (hvalueTail c hc).2)

theorem fit_solid (ps : List Piece) : Chunk.Fit ⟨false, ps⟩ :=
  nofun

theorem fit_paired {keys values : List Chunk} (hkeys : ∀ c ∈ keys, c.Fit)
    (hvalues : ∀ c ∈ values, c.Fit) : ∀ c ∈ paired keys values, c.Fit := by
  intro c hc
  rcases mem_paired hc with hc | hc | ⟨_, -, _, -, _, -, -, -, rfl⟩
  · exact hkeys c hc
  · exact hvalues c hc
  · exact fit_solid _

/-! ### Expressions -/

theorem Node.IsRemark.inscribe_eq (h : n.IsRemark) : n.inscribe = .text n.remark := by
  obtain ⟨text, htext, -⟩ := h
  simp [Node.remark, htext, Page.write, Page.blank]

theorem render_remark (htrivia : n.isTrivia = true) (h : n.IsRemark) (strength : Precedence) :
    render .trivia n (.inline strength) = putAll (n.pieces .trivia strength) := by
  have hinscribe := h.inscribe_eq
  obtain ⟨kind, span⟩ := n
  cases kind <;> cases htrivia
  all_goals
    rw [render, Node.pieces]
    exact congrArg (writeBracketed _) hinscribe

theorem fit_chunk (detail : Detail) (n : Node) : (n.chunk detail).Fit := by
  obtain ⟨kind, span⟩ := n
  intro htrivia
  cases kind <;> cases htrivia <;> exact ⟨_, _, rfl⟩

namespace Detail

theorem shown_append (detail : Detail) (xs ys : List Chunk) :
    detail.shown (xs ++ ys) = detail.shown xs ++ detail.shown ys := by
  cases detail <;> simp [shown]

theorem mem_of_mem_shown {c : Chunk} (h : c ∈ detail.shown chunks) : c ∈ chunks := by
  cases detail with
  | code => exact List.mem_of_mem_filter h
  | trivia => exact h

end Detail

/-- Entries are written as their chunks. -/
theorem visible_items
    (hcode : ∀ n ∈ Node.code ns, render detail n (.inline .test) = putAll (n.pieces detail .test))
    (hremarks : ∀ r ∈ ns, r.isTrivia = true → r.IsRemark) :
    detail.visible (items (renderAll detail ns)) =
      (detail.shown (chunksAll detail ns)).map Chunk.item := by
  rw [renderAll_eq, chunksAll_eq, items, List.map_map]
  cases detail with
  | code =>
      simp only [Detail.visible, Detail.shown, List.filter_map, List.map_map]
      refine List.map_congr_left fun n hn => ?_
      exact congrArg (Item.mk n.isTrivia) (hcode n hn)
  | trivia =>
      simp only [Detail.visible, Detail.shown, List.map_map]
      refine List.map_congr_left fun n hn => congrArg (Item.mk n.isTrivia) ?_
      cases htrivia : n.isTrivia with
      | false => exact hcode n (Node.mem_code.2 ⟨hn, htrivia⟩)
      | true => exact render_remark htrivia (hremarks n hn htrivia) .test

theorem fit_chunksAll : ∀ c ∈ chunksAll detail ns, c.Fit := by
  intro c hc
  rw [chunksAll_eq] at hc
  obtain ⟨n, _, rfl⟩ := List.mem_map.1 hc
  exact fit_chunk detail n

theorem fit_shown : ∀ c ∈ detail.shown (chunksAll detail ns), c.Fit :=
  fun c hc => fit_chunksAll c (Detail.mem_of_mem_shown hc)

/-- An expression whose trivia are remarks among the entries of lists. -/
inductive Inlined : Node → Prop
  | name {id : String} {span : Option Span} : Inlined ⟨.name id, span⟩
  | constant {value : Constant} {span : Option Span} : Inlined ⟨.constant value, span⟩
  | boolOp {op : BoolOp} {values : List Node} {span : Option Span}
      (hvalues : ∀ v ∈ values, Inlined v) : Inlined ⟨.boolOp op values, span⟩
  | binOp {left right : Node} {op : BinaryOp} {span : Option Span} (hleft : Inlined left)
      (hright : Inlined right) : Inlined ⟨.binOp left op right, span⟩
  | unaryOp {op : UnaryOp} {operand : Node} {span : Option Span} (hoperand : Inlined operand) :
      Inlined ⟨.unaryOp op operand, span⟩
  | compare {left : Node} {ops : List CompareOp} {comparators : List Node} {span : Option Span}
      (hleft : Inlined left) (hcomparators : ∀ c ∈ comparators, Inlined c) :
      Inlined ⟨.compare left ops comparators, span⟩
  | ifExp {test body orelse : Node} {span : Option Span} (htest : Inlined test)
      (hbody : Inlined body) (horelse : Inlined orelse) : Inlined ⟨.ifExp test body orelse, span⟩
  | call {func : Node} {args keywords : List Node} {span : Option Span} (hfunc : Inlined func)
      (hargs : ∀ a ∈ Node.code args, Inlined a) (hkeywords : ∀ k ∈ Node.code keywords, Inlined k)
      (hremarks : ∀ r ∈ args ++ keywords, r.isTrivia = true → r.IsRemark) :
      Inlined ⟨.call func args keywords, span⟩
  | member {value : Node} {attr : String} {span : Option Span} (hvalue : Inlined value) :
      Inlined ⟨.attribute value attr, span⟩
  | subscript {value index : Node} {span : Option Span} (hvalue : Inlined value)
      (hindex : Inlined index) : Inlined ⟨.subscript value index, span⟩
  | list {elts : List Node} {span : Option Span} (helts : ∀ e ∈ Node.code elts, Inlined e)
      (hremarks : ∀ r ∈ elts, r.isTrivia = true → r.IsRemark) : Inlined ⟨.list elts, span⟩
  | tuple {elts : List Node} {span : Option Span} (helts : ∀ e ∈ Node.code elts, Inlined e)
      (hremarks : ∀ r ∈ elts, r.isTrivia = true → r.IsRemark) : Inlined ⟨.tuple elts, span⟩
  | set {elts : List Node} {span : Option Span} (helts : ∀ e ∈ Node.code elts, Inlined e)
      (hremarks : ∀ r ∈ elts, r.isTrivia = true → r.IsRemark) : Inlined ⟨.set elts, span⟩
  | dict {keys values : List Node} {span : Option Span} (hkeys : ∀ k ∈ Node.code keys, Inlined k)
      (hvalues : ∀ v ∈ Node.code values, Inlined v)
      (hremarks : ∀ r ∈ keys ++ values, r.isTrivia = true → r.IsRemark) :
      Inlined ⟨.dict keys values, span⟩
  | starred {value : Node} {span : Option Span} (hvalue : Inlined value) :
      Inlined ⟨.starred value, span⟩
  | slice {lower upper step : Option Node} {span : Option Span} (hlower : ∀ n ∈ lower, Inlined n)
      (hupper : ∀ n ∈ upper, Inlined n) (hstep : ∀ n ∈ step, Inlined n) :
      Inlined ⟨.slice lower upper step, span⟩
  | keyword {arg : Option String} {value : Node} {span : Option Span} (hvalue : Inlined value) :
      Inlined ⟨.keyword arg value, span⟩

theorem Inlined.isTrivia (h : Inlined n) : n.isTrivia = false := by
  cases h <;> rfl

theorem Dressed.inlined {part : Part} (h : Dressed part n) : Inlined n := by
  induction h with
  | item _ ih | index _ ih | single _ _ ih => exact ih
  | several _ _ hremarks ih => exact .tuple ih hremarks
  | _ => constructor <;> assumption

theorem Printable.inlined {strict : Bool} {part : Part} (h : Printable strict part n) :
    Inlined n := by
  have entries : ∀ {ns : List Node}, (∀ n ∈ ns, Inlined n) →
      (∀ n ∈ Node.code ns, Inlined n) ∧ ∀ r ∈ ns, r.isTrivia = true → r.IsRemark :=
    fun h => ⟨fun n hn => h n (Node.mem_code.1 hn).1, fun r hr htrivia => by
      rw [(h r hr).isTrivia] at htrivia
      cases htrivia⟩
  induction h with
  | item _ ih | index _ ih | single _ _ ih => exact ih
  | call _ _ _ ihfunc ihargs ihkeywords =>
      exact .call ihfunc (entries ihargs).1 (entries ihkeywords).1
        (entries (List.forall_mem_append.2 ⟨ihargs, ihkeywords⟩)).2
  | dict _ _ _ ihkeys ihvalues =>
      exact .dict (entries ihkeys).1 (entries ihvalues).1
        (entries (List.forall_mem_append.2 ⟨ihkeys, ihvalues⟩)).2
  | list _ ih => exact .list (entries ih).1 (entries ih).2
  | tuple _ ih | several _ _ ih => exact .tuple (entries ih).1 (entries ih).2
  | set _ _ ih => exact .set (entries ih).1 (entries ih).2
  | bracketed _ _ ih => exact .starred ih
  | _ => constructor <;> assumption

/-- Printing a node puts its pieces on the page, also between the brackets of a subscript. -/
structure Puts (detail : Detail) (n : Node) : Prop where
  inline : ∀ strength, render detail n (.inline strength) = putAll (n.pieces detail strength)
  subscript : writeSubscript detail n = putAll (n.subscriptPieces detail)

/-- Only tuples look different in a subscript. -/
theorem puts_of_inline (hkind : ∀ elts, n.kind ≠ .tuple elts)
    (h : ∀ strength, render detail n (.inline strength) = putAll (n.pieces detail strength)) :
    Puts detail n := by
  refine ⟨h, ?_⟩
  obtain ⟨kind, span⟩ := n
  cases kind with
  | tuple elts => exact absurd rfl (hkind elts)
  | _ => exact h .tuple

theorem write_compareOp (op : CompareOp) (page : Page) :
    page.write op.symbol = putAll op.pieces page := by
  cases op with
  | isNot | notIn =>
      simp only [CompareOp.pieces, putAll_term, putAll_space, putAll_nil, ← Page.write_append]
      exact congrArg page.write (by decide)
  | _ => rfl

theorem write_unaryOp (op : UnaryOp) (page : Page) :
    page.write op.symbol = putAll op.pieces page := by
  cases op with
  | not => exact page.write_of_eq (by decide)
  | _ => rfl

theorem compareTail_eq (ops : List CompareOp) (h : ∀ n ∈ ns, Puts detail n) (page : Page) :
    Action.all ((ops.zip (ns.map fun n => (⟨n, render detail n⟩ : Child))).map fun entry =>
      Action.all [.text (" " ++ entry.1.symbol ++ " "), entry.2.inline Precedence.compare.next])
        page =
      putAll ((ops.zip (ns.map (·.pieces detail .bitOr))).flatMap fun entry =>
        .space :: entry.1.pieces ++ .space :: entry.2) page := by
  induction ops generalizing ns page with
  | nil => rfl
  | cons op ops ih =>
      cases ns with
      | nil => rfl
      | cons n ns =>
          have hn : Child.inline Precedence.compare.next ⟨n, render detail n⟩ = _ :=
            (h n List.mem_cons_self).inline .bitOr
          have hrest := ih (List.forall_mem_cons.1 h).2
          simp only [List.map_cons, List.zip_cons_cons, Action.all_cons, Action.all_nil,
            Action.text_apply, Page.write_append, write_compareOp, hn, hrest, List.flatMap_cons,
            putAll_append, putAll_space, List.cons_append]

/-- A node that may be absent, with a sign in front of it. -/
theorem renderOption_eq {n : Option Node} (h : ∀ m ∈ n, Puts detail m) (before : String) :
    (match renderOption detail n with
      | some c => .all [.text before, c.inline .test]
      | none => Action.skip) = putAll (piecesOption detail n [sign before]) := by
  cases n with
  | none => rfl
  | some n =>
      have hn : Child.inline .test ⟨n, render detail n⟩ = _ := (h n rfl).inline .test
      exact funext fun page => by simp [renderOption, hn, piecesOption]

theorem renderOption_bare {n : Option Node} (h : ∀ m ∈ n, Puts detail m) :
    (match renderOption detail n with
      | some c => c.inline .test
      | none => Action.skip) = putAll (piecesOption detail n []) := by
  cases n with
  | none => rfl
  | some n => exact (h n rfl).inline .test

/-- An expression is printed by putting its pieces on the page. -/
theorem puts_of_inlined (detail : Detail) (h : Inlined n) : Puts detail n := by
  induction h with
  | name => exact puts_of_inline (by simp) fun _ => rfl
  | @constant value =>
      refine puts_of_inline (by simp) fun strength => ?_
      rw [render, Node.pieces]
      cases value with
      | bool b => cases b <;> rfl
      | _ => rfl
  | @boolOp op values _ hvalues ih =>
      refine puts_of_inline (by simp) fun strength => ?_
      have hsolid := solid_renderAll detail fun v hv => (hvalues v hv).isTrivia
      have hparts : (values.map fun n => (⟨n, render detail n⟩ : Child)).map
          (Child.inline op.precedence.next) =
          (values.map (·.pieces detail op.precedence.next)).map putAll := by
        rw [List.map_map, List.map_map]
        exact List.map_congr_left fun v hv => (ih v hv).inline _
      have hbetween : Action.text (" " ++ op.symbol ++ " ") =
          putAll [.space, term op.symbol, .space] := funext fun page => by simp
      rw [render, Node.pieces, hsolid, piecesAll_eq]
      refine putAll_enclosed _ _ ?_
      rw [← separated_eq _ _ hbetween, ← hparts]
  | @binOp left right op span hleft hright ihleft ihright =>
      refine puts_of_inline (by simp) fun strength => ?_
      have hrender : render detail ⟨.binOp left op right, span⟩ (.inline strength) =
          .parens (op.precedence < strength)
            (.all [render detail left (.inline op.operandStrengths.1),
              .text (" " ++ op.symbol ++ " "),
              render detail right (.inline op.operandStrengths.2)]) := by
        cases op <;> rfl
      rw [hrender, Node.pieces, ihleft.inline, ihright.inline]
      exact putAll_enclosed _ _ (funext fun page => by simp)
  | @unaryOp op operand _ hoperand ih =>
      refine puts_of_inline (by simp) fun strength => ?_
      rw [render, Node.pieces, ih.inline]
      exact putAll_enclosed _ _ (funext fun page => by simp [write_unaryOp])
  | @compare left ops comparators _ hleft hcomparators ihleft ih =>
      refine puts_of_inline (by simp) fun strength => ?_
      have hsolid := solid_renderAll detail fun v hv => (hcomparators v hv).isTrivia
      rw [render, Node.pieces, hsolid, piecesAll_eq, ihleft.inline]
      refine putAll_enclosed _ _ (funext fun page => ?_)
      rw [Action.all_cons, compareTail_eq ops ih, putAll_append]
      rfl
  | ifExp htest hbody horelse ihtest ihbody ihorelse =>
      refine puts_of_inline (by simp) fun strength => ?_
      have hif : ∀ page : Page, page.write " if " = ((page.write " ").write "if").write " " :=
        fun page => page.write_spaced (by decide)
      have helse : ∀ page : Page, page.write " else " = ((page.write " ").write "else").write " " :=
        fun page => page.write_spaced (by decide)
      rw [render, Node.pieces, ihbody.inline, ihtest.inline, ihorelse.inline]
      refine putAll_enclosed _ _ (funext fun page => ?_)
      simp [hif, helse, Precedence.next]
  | @call func args keywords _ hfunc hargs hkeywords hremarks ihfunc ihargs ihkeywords =>
      refine puts_of_inline (by simp) fun strength => ?_
      have hitems : detail.visible (items (renderAll detail args) ++ items (renderAll detail keywords)) =
          (detail.shown (chunksAll detail args ++ chunksAll detail keywords)).map Chunk.item := by
        rw [Detail.visible_append, Detail.shown_append, List.map_append,
          visible_items (fun a ha => (ihargs a ha).inline .test) fun r hr => hremarks r (by simp [hr]),
          visible_items (fun k hk => (ihkeywords k hk).inline .test) fun r hr => hremarks r (by simp [hr])]
      have hfit : ∀ c ∈ detail.shown (chunksAll detail args ++ chunksAll detail keywords), c.Fit := by
        rw [Detail.shown_append]
        exact fun c hc => (List.mem_append.1 hc).elim (fit_shown c) (fit_shown c)
      rw [render, Node.pieces, ihfunc.inline, writeItems, hitems, joinItems_map hfit]
      exact funext fun page => by simp
  | member hvalue ih =>
      refine puts_of_inline (by simp) fun strength => ?_
      rw [render, Node.pieces, putAll_enclosed _ _ (ih.inline .atom)]
      exact funext fun page => by simp
  | subscript hvalue hindex ihvalue ihindex =>
      refine puts_of_inline (by simp) fun strength => ?_
      rw [render_subscript, pieces_subscript, ihvalue.inline, ihindex.subscript]
      exact funext fun page => by simp
  | list helts hremarks ih =>
      refine puts_of_inline (by simp) fun strength => ?_
      have hitems := visible_items (fun e he => (ih e he).inline .test) hremarks
      rw [render, Node.pieces, writeItems, hitems, joinItems_map fit_shown]
      exact funext fun page => by simp
  | tuple helts hremarks ih =>
      have hitems := visible_items (fun e he => (ih e he).inline .test) hremarks
      refine ⟨fun strength => ?_, writeTuple_eq hitems fit_shown _⟩
      rw [render, Node.pieces, writeTuple_eq hitems fit_shown]
      exact funext fun page => by simp [enclosed]
  | set helts hremarks ih =>
      refine puts_of_inline (by simp) fun strength => ?_
      have hitems := visible_items (fun e he => (ih e he).inline .test) hremarks
      rw [render, Node.pieces, writeItems, hitems, joinItems_map fit_shown]
      exact funext fun page => by simp
  | dict hkeys hvalues hremarks ihkeys ihvalues =>
      refine puts_of_inline (by simp) fun strength => ?_
      have hkeyItems := visible_items (fun k hk => (ihkeys k hk).inline .test)
        (List.forall_mem_append.1 hremarks).1
      have hvalueItems := visible_items (fun v hv => (ihvalues v hv).inline .test)
        (List.forall_mem_append.1 hremarks).2
      rw [render, Node.pieces, dictItems_eq hkeyItems hvalueItems fit_shown,
        joinItems_map (fit_paired fit_shown fit_shown)]
      exact funext fun page => by simp
  | starred hvalue ih =>
      refine puts_of_inline (by simp) fun strength => ?_
      rw [render, Node.pieces, ih.inline]
      exact funext fun page => by simp
  | slice hlower hupper hstep ihlower ihupper ihstep =>
      refine puts_of_inline (by simp) fun strength => ?_
      have hparts := congr (congr
        (congrArg (fun lower upper step => Action.all [lower, .text ":", upper, step])
          (renderOption_bare ihlower)) (renderOption_bare ihupper)) (renderOption_eq ihstep ":")
      rw [render, Node.pieces]
      exact hparts.trans (funext fun page => by simp)
  | @keyword arg value _ hvalue ih =>
      refine puts_of_inline (by simp) fun strength => ?_
      cases arg with
      | none =>
          rw [render, Node.pieces, ih.inline]
          exact funext fun page => by simp
      | some name =>
          rw [render, Node.pieces, ih.inline]
          exact funext fun page => by simp

theorem render_pieces (detail : Detail) {part : Part} (h : Dressed part n) (strength : Precedence) :
    render detail n (.inline strength) = putAll (n.pieces detail strength) :=
  (puts_of_inlined detail h.inlined).inline strength

/-! ### Lines -/

namespace Row

/-- Put a line on the page, whatever the indentation of the page. -/
def put : Row → Action
  | .code level ps => fun page =>
      { putAll ps ({ page with indentLevel := level }.newline level) with
        indentLevel := page.indentLevel }
  | .comment level text => fun page => (page.newline level).write text
  | .tail text => (·.writePadded text)

end Row

/-- Put lines on the page, one after the other. -/
def putRows (rows : List Row) : Action :=
  .all (rows.map Row.put)

@[simp] theorem putRows_nil : putRows [] page = page := rfl

@[simp] theorem putRows_cons (row : Row) (rows : List Row) (page : Page) :
    putRows (row :: rows) page = putRows rows (row.put page) := rfl

@[simp] theorem putRows_append (more : List Row) (page : Page) :
    putRows (rows ++ more) page = putRows more (putRows rows page) := by
  simp [putRows]

theorem indentLevel_putAll (page : Page) : (putAll ps page).indentLevel = page.indentLevel := by
  induction ps generalizing page with
  | nil => rfl
  | cons p ps ih =>
      have hput : (p.put page).indentLevel = page.indentLevel := by
        cases p with
        | word _ _ | space => rfl
        | remark endOfLine text =>
            simp only [Piece.put, writeBracketed]
            cases page.atLineStart <;> cases endOfLine <;> rfl
      exact (ih (p.put page)).trans hput

theorem indentLevel_putRows (page : Page) : (putRows rows page).indentLevel = page.indentLevel := by
  induction rows generalizing page with
  | nil => rfl
  | cons row rows ih =>
      rw [putRows_cons, ih]
      cases row <;> rfl

/-- The indentation of the page makes no difference to the lines. -/
theorem putRows_indentLevel (page : Page) (level : Nat) :
    putRows rows { page with indentLevel := level } =
      { putRows rows page with indentLevel := level } := by
  induction rows generalizing page with
  | nil => rfl
  | cons row rows ih =>
      have hput : row.put { page with indentLevel := level } =
          { row.put page with indentLevel := level } := by
        cases row <;> rfl
      rw [putRows_cons, putRows_cons, hput, ih]

/-- A line at the indentation of the page. -/
theorem put_code (page : Page) :
    (Row.code page.indentLevel ps).put page = putAll ps (page.newline page.indentLevel) :=
  Page.with_indentLevel (indentLevel_putAll ps (page.newline page.indentLevel))

theorem indented_putRows {rows : List Row} {page : Page}
    (h : action page.indent = putRows rows page.indent) :
    Action.indented action page = putRows rows page := by
  rw [Action.indented, h, Page.indent, putRows_indentLevel]
  exact Page.with_indentLevel (indentLevel_putRows rows page)

/-! ### Statements -/

/-- Printing a statement puts its lines on the page. -/
def Lays (detail : Detail) (n : Node) : Prop :=
  ∀ page : Page, render detail n .line page = putRows (n.rows detail page.indentLevel false) page ∧
    render detail n .elif page = putRows (n.rows detail page.indentLevel true) page

theorem lays_remark (htrivia : n.isTrivia = true) (h : n.IsRemark) : Lays detail n := by
  have hinscribe := h.inscribe_eq
  obtain ⟨kind, span⟩ := n
  intro page
  cases kind <;> cases htrivia <;> cases detail
  case comment.refl.code | directive.refl.code => exact ⟨rfl, rfl⟩
  case comment.refl.trivia c =>
    have hline : render .trivia ⟨.comment c, span⟩ .line page = writeComment c page := rfl
    rw [show render .trivia ⟨.comment c, span⟩ .elif page = writeComment c page from rfl, hline,
      Node.rows, Node.rows, Node.lay, Node.lay, writeComment]
    cases c.endOfLine <;> exact ⟨rfl, rfl⟩
  case directive.refl.trivia d =>
    have hline : render .trivia ⟨.directive d, span⟩ .line page =
        Node.inscribe ⟨.directive d, span⟩ (page.newline page.indentLevel) := rfl
    have helif : render .trivia ⟨.directive d, span⟩ .elif page =
        Node.inscribe ⟨.directive d, span⟩ (page.newline page.indentLevel) := rfl
    rw [hline, helif, hinscribe]
    exact ⟨rfl, rfl⟩

theorem all_statements (ns : List Node) (h : ∀ n ∈ ns, Lays detail n) (page : Page) :
    Action.all ((renderAll detail ns).map (·.write .line)) page =
      putRows (ns.flatMap (·.rows detail page.indentLevel false)) page := by
  rw [renderAll_eq, List.map_map]
  induction ns generalizing page with
  | nil => rfl
  | cons n ns ih =>
      have hn := (h n List.mem_cons_self page).1
      have hlevel : (render detail n .line page).indentLevel = page.indentLevel := by
        rw [hn, indentLevel_putRows]
      have hrest := ih (List.forall_mem_cons.1 h).2 (render detail n .line page)
      rw [hlevel] at hrest
      rw [List.flatMap_cons, putRows_append, ← hn, ← hrest]
      rfl

theorem writeBlock_eq (h : ∀ n ∈ ns, Lays detail n) (page : Page) :
    writeBlock (renderAll detail ns) page =
      putRows (ns.flatMap (·.rows detail (page.indentLevel + 1) false)) page :=
  indented_putRows (all_statements ns h page.indent)

theorem render_parameter {defaults : Bool} (h : DressedParameter defaults n)
    (strength : Precedence) :
    render detail n (.inline strength) = putAll (n.pieces detail strength) := by
  cases h with
  | @arg name default _ hname hdefault =>
      cases default with
      | none => rfl
      | some d =>
          have hd : Child.inline .test ⟨d, render detail d⟩ = _ :=
            render_pieces detail (hdefault d rfl).2 .test
          rw [render, Node.pieces]
          exact funext fun page => by simp [renderOption, hd, piecesOption]

/-- A parameter with a star before it. -/
theorem render_starred (h : DressedParameter false n) (star : String) :
    Action.all [.text star, Child.inline .test ⟨n, render detail n⟩] =
      putAll (sign star :: n.pieces detail .test) := by
  have hn : Child.inline .test ⟨n, render detail n⟩ = _ := render_parameter h .test
  exact funext fun page => by simp [hn]

section Parameters

variable {args kwonlyargs : List Node} {vararg kwarg : Option Node} {span : Option Span}

theorem visible_parameters (h : DressedParameters ⟨.arguments args vararg kwonlyargs kwarg, span⟩) :
    detail.visible (parameterItems (renderAll detail args) (renderOption detail vararg)
      (renderAll detail kwonlyargs) (renderOption detail kwarg)) =
      (detail.shown (parameterChunks detail args vararg kwonlyargs kwarg)).map Chunk.item := by
  obtain ⟨hargs, hvararg, hkwonlyargs, hkwarg, hremarks⟩ := h
  obtain ⟨hargRemarks, hkwonlyRemarks⟩ := List.forall_mem_append.1 hremarks
  have hentry : ∀ (write : Action) (ps : List Piece), write = putAll ps →
      detail.visible [⟨false, write⟩] = (detail.shown [⟨false, ps⟩]).map Chunk.item := by
    rintro _ ps rfl
    cases detail <;> rfl
  have hempty : detail.visible [] = (detail.shown []).map Chunk.item := by cases detail <;> rfl
  have hany : (renderAll detail kwonlyargs).any (!·.isTrivia) = kwonlyargs.any (!·.isTrivia) := by
    rw [renderAll_eq, List.any_map]
    rfl
  simp only [parameterItems, parameterChunks, Detail.visible_append, Detail.shown_append,
    List.map_append, hany]
  rw [visible_items (fun a ha => render_parameter (hargs a ha) .test) hargRemarks,
    visible_items (fun a ha => render_parameter (hkwonlyargs a ha) .test) hkwonlyRemarks]
  congr 1
  · congr 2
    cases vararg with
    | some a => exact hentry _ _ (render_starred (hvararg a rfl) "*")
    | none =>
        cases kwonlyargs.any (!·.isTrivia) with
        | false => exact hempty
        | true => exact hentry _ _ rfl
  · cases kwarg with
    | none => exact hempty
    | some a => exact hentry _ _ (render_starred (hkwarg a rfl) "**")

/-- Among the parameters stand the parameters themselves and the stars. -/
theorem mem_parameterChunks {c : Chunk}
    (hc : c ∈ parameterChunks detail args vararg kwonlyargs kwarg) :
    c ∈ chunksAll detail args ∨ c ∈ chunksAll detail kwonlyargs ∨ c = ⟨false, [sign "*"]⟩ ∨
      (∃ a ∈ vararg, c = ⟨false, sign "*" :: a.pieces detail .test⟩) ∨
        ∃ a ∈ kwarg, c = ⟨false, sign "**" :: a.pieces detail .test⟩ := by
  simp only [parameterChunks, List.mem_append] at hc
  rcases hc with ((hc | hc) | hc) | hc
  · exact .inl hc
  · cases vararg with
    | some a => exact .inr (.inr (.inr (.inl ⟨a, rfl, List.mem_singleton.1 hc⟩)))
    | none =>
        dsimp only at hc
        split at hc
        · exact .inr (.inr (.inl (List.mem_singleton.1 hc)))
        · cases hc
  · exact .inr (.inl hc)
  · exact .inr (.inr (.inr (.inr (by simpa [eq_comm] using hc))))

theorem fit_parameters : ∀ c ∈ parameterChunks detail args vararg kwonlyargs kwarg, c.Fit := by
  intro c hc
  rcases mem_parameterChunks hc with hc | hc | rfl | ⟨_, -, rfl⟩ | ⟨_, -, rfl⟩
  · exact fit_chunksAll c hc
  · exact fit_chunksAll c hc
  all_goals exact fit_solid _

end Parameters

theorem render_parameters (h : DressedParameters n) (strength : Precedence) :
    render detail n (.inline strength) = putAll (n.parameterPieces detail) := by
  have hform := h
  cases hform
  rw [render, writeItems, visible_parameters h]
  exact joinItems_map fun c hc => fit_parameters c (Detail.mem_of_mem_shown hc)

/-- The comments before an `else` are trivia. -/
theorem isTrivia_of_mem_hoisted :
    ∀ n ∈ orelse.take (hoisted detail (renderAll detail body) (renderAll detail orelse)),
      n.isTrivia = true := by
  cases detail with
  | code => simp [hoisted]
  | trivia =>
      intro n hn
      simp only [hoisted, renderAll_eq, List.takeWhile_map, List.length_map] at hn
      rw [← List.prefix_iff_eq_take.1 (List.takeWhile_prefix _)] at hn
      have hbelongs := List.mem_takeWhile_imp hn
      simp only [Function.comp_apply, Bool.and_eq_true] at hbelongs
      have hcomment := hbelongs.1
      obtain ⟨kind, span⟩ := n
      cases kind <;> first | rfl | cases hcomment

theorem rows_of_trivia (htrivia : n.isTrivia = true) (level : Nat) (elif : Bool) :
    n.rows .code level elif = [] := by
  obtain ⟨kind, span⟩ := n
  cases kind <;> cases htrivia <;> rfl

theorem rows_code (ns : List Node) (level : Nat) (elif : Bool) :
    ns.flatMap (·.rows .code level elif) = (Node.code ns).flatMap (·.rows .code level elif) := by
  induction ns with
  | nil => rfl
  | cons n ns ih =>
      rw [Node.code] at ih ⊢
      cases htrivia : n.isTrivia with
      | true => simp [htrivia, ih, rows_of_trivia]
      | false => simp [htrivia, ih]

/-- An `orelse` that is printed as an `elif`. -/
theorem write_elif (h : ∀ n ∈ ns, Lays detail n) {c : Child}
    (hc : elifOf? detail (renderAll detail ns) = some c) (page : Page) :
    c.write .elif page = putRows (ns.flatMap (·.rows detail page.indentLevel true)) page := by
  cases detail with
  | code =>
      have hsolid : solid (renderAll .code ns) = (Node.code ns).map fun n => ⟨n, render .code n⟩ := by
        rw [renderAll_eq, solid, List.filter_map]
        rfl
      simp only [elifOf?, hsolid] at hc
      split at hc
      · next c' hsingle =>
        obtain ⟨n, hn, rfl⟩ := List.map_eq_singleton_iff.1 hsingle
        have hmem : n ∈ ns := (Node.mem_code.1 (hn ▸ List.mem_singleton_self n)).1
        obtain ⟨-, rfl⟩ : _ ∧ _ = c := by simpa using hc
        rw [rows_code, hn]
        simpa using (h n hmem page).2
      · cases hc
  | trivia =>
      simp only [elifOf?, renderAll_eq] at hc
      split at hc
      · next c' hsingle =>
        obtain ⟨n, rfl, rfl⟩ := List.map_eq_singleton_iff.1 hsingle
        obtain ⟨-, rfl⟩ : _ ∧ _ = c := by simpa using hc
        simpa using (h n List.mem_cons_self page).2
      · cases hc

theorem write_else (h : ∀ n ∈ ns, Lays detail n) (page : Page) :
    writeElse (renderAll detail ns) page =
      putRows (if ns.any (!·.isTrivia) then
          .code page.indentLevel [term "else", sign ":"] ::
            ns.flatMap (·.rows detail (page.indentLevel + 1) false)
        else ns.flatMap (·.rows detail page.indentLevel false)) page := by
  have hany : (renderAll detail ns).any (!·.isTrivia) = ns.any (!·.isTrivia) := by
    rw [renderAll_eq, List.any_map]
    rfl
  have helse : ∀ page : Page, page.write "else:" = (page.write "else").write ":" :=
    fun page => page.write_of_eq (by decide)
  rw [writeElse, hany]
  split
  · rw [putRows_cons, put_code, Action.all_cons, Action.all_cons, writeBlock_eq h]
    simp only [Action.fill_apply, helse, Action.all_nil, putAll_term, putAll_sign, putAll_nil]
    rfl
  · exact all_statements ns h page

/-- What follows the block of a condition or a loop. -/
theorem writeOrelse_eq (conditions : Bool) (h : ∀ n ∈ orelse, Lays detail n) (page : Page) :
    writeOrelse detail conditions (renderAll detail body) (renderAll detail orelse) page =
      putRows (layOrelse .rows (orelseShape detail conditions body orelse)
        (orelse.any (!·.isTrivia)) (layAll .rows detail orelse) page.indentLevel) page := by
  simp only [writeOrelse, layOrelse, orelseShape]
  obtain ⟨count, hcount⟩ : ∃ count,
      hoisted detail (renderAll detail body) (renderAll detail orelse) = count := ⟨_, rfl⟩
  simp only [hcount]
  have htrivia : ∀ n ∈ orelse.take count, n.isTrivia = true := hcount ▸ isTrivia_of_mem_hoisted
  have hsolid : orelse.any (!·.isTrivia) = (orelse.drop count).any (!·.isTrivia) := by
    conv_lhs => rw [← List.take_append_drop count orelse]
    rw [List.any_append, List.any_eq_false.2 fun n hn => by simp [htrivia n hn], Bool.false_or]
  have htake : (renderAll detail orelse).take count = renderAll detail (orelse.take count) := by
    rw [renderAll_eq, renderAll_eq, List.map_take]
  have hdrop : (renderAll detail orelse).drop count = renderAll detail (orelse.drop count) := by
    rw [renderAll_eq, renderAll_eq, List.map_drop]
  have hfirst := all_statements (orelse.take count) (fun n hn => h n (List.mem_of_mem_take hn)) page
  have hrest : ∀ n ∈ orelse.drop count, Lays detail n := fun n hn => h n (List.mem_of_mem_drop hn)
  rw [hsolid, htake, hdrop, Action.all_append, hfirst, putRows_append, layAll_eq, ← List.map_take,
    ← List.map_drop]
  have hrows : ∀ n level elif, Node.lay .rows detail n level elif = n.rows detail level elif :=
    fun _ _ _ => rfl
  simp only [List.flatMap_map, hrows]
  generalize hpage : putRows _ page = page'
  have hlevel : page.indentLevel = page'.indentLevel := by rw [← hpage, indentLevel_putRows]
  rw [hlevel, Action.all_cons, Action.all_nil]
  cases conditions with
  | false =>
      simp only [Bool.false_eq_true, if_false, Bool.false_and]
      exact write_else hrest page'
  | true =>
      cases helif : elifOf? detail (renderAll detail (orelse.drop count)) with
      | none =>
          simp only [if_true, Option.isSome_none, Bool.and_false, Bool.false_eq_true, if_false]
          exact write_else hrest page'
      | some c =>
          simp only [if_true, Option.isSome_some, Bool.and_self]
          exact write_elif hrest helif page'

theorem assignTargets_eq {targets : List Node} (h : ∀ t ∈ targets, Dressed .item t) (page : Page) :
    Action.all ((targets.map fun n => (⟨n, render detail n⟩ : Child)).map fun c =>
      Action.all [c.inline .tuple, .text " = "]) page =
      putAll (targets.flatMap fun t => t.pieces detail .tuple ++ [.space, sign "=", .space])
        page := by
  induction targets generalizing page with
  | nil => rfl
  | cons t targets ih =>
      have ht : Child.inline .tuple ⟨t, render detail t⟩ = _ :=
        render_pieces detail (h t List.mem_cons_self) .tuple
      have hrest := ih (List.forall_mem_cons.1 h).2
      have hequals : ∀ page : Page, page.write " = " = ((page.write " ").write "=").write " " :=
        fun page => page.write_spaced (by decide)
      simp only [List.map_cons, Action.all_cons, Action.all_nil, ht, hrest, Action.text_apply,
        hequals, List.flatMap_cons, putAll_append, putAll_space, putAll_sign, putAll_nil]

/-- A line of code and what follows it. -/
theorem putRows_line {ps : List Piece} {rows : List Row} {page page' : Page}
    (hline : page' = putAll ps (page.newline page.indentLevel))
    (haction : ∀ page' : Page, page'.indentLevel = page.indentLevel →
      action page' = putRows rows page') :
    action page' = putRows (.code page.indentLevel ps :: rows) page := by
  have hlevel : page'.indentLevel = page.indentLevel := by
    rw [hline, indentLevel_putAll]
    rfl
  rw [putRows_cons, put_code, ← hline, haction page' hlevel]

/-- The block of a condition or a loop, and what follows it. -/
theorem blocks_eq (detail : Detail) (conditions : Bool) (hbody : ∀ n ∈ body, Lays detail n)
    (horelse : ∀ n ∈ orelse, Lays detail n) (page : Page) :
    Action.all [writeBlock (renderAll detail body),
      writeOrelse detail conditions (renderAll detail body) (renderAll detail orelse)] page =
      putRows (body.flatMap (·.rows detail (page.indentLevel + 1) false) ++
        layOrelse .rows (orelseShape detail conditions body orelse) (orelse.any (!·.isTrivia))
          (layAll .rows detail orelse) page.indentLevel) page := by
  rw [Action.all_cons, Action.all_cons, Action.all_nil, writeOrelse_eq conditions horelse,
    writeBlock_eq hbody, indentLevel_putRows, putRows_append]

/-- Nodes are laid out when their code is and their trivia are remarks. -/
theorem lays_nodes (hremarks : ∀ r ∈ ns, r.isTrivia = true → r.IsRemark)
    (hcode : ∀ s ∈ Node.code ns, Lays detail s) : ∀ n ∈ ns, Lays detail n := by
  intro n hn
  cases htrivia : n.isTrivia with
  | true => exact lays_remark htrivia (hremarks n hn htrivia)
  | false => exact hcode n (Node.mem_code.2 ⟨hn, htrivia⟩)

/-- A statement that takes one line. -/
theorem lays_line {ps : List Piece} (hrows : ∀ elif level, n.rows detail level elif = [.code level ps])
    (hrender : ∀ page : Page,
      render detail n .line page = putAll ps (page.newline page.indentLevel) ∧
        render detail n .elif page = putAll ps (page.newline page.indentLevel)) :
    Lays detail n := by
  intro page
  rw [hrows, hrows, putRows_cons, put_code, (hrender page).1, (hrender page).2]
  exact ⟨rfl, rfl⟩

/-- A statement with a line, a block and what follows the block. -/
theorem lays_compound {conditions : Bool}
    (hremarks : ∀ r ∈ body ++ orelse, r.isTrivia = true → r.IsRemark)
    (hbody : ∀ s ∈ Node.code body, Lays detail s) (horelse : ∀ s ∈ Node.code orelse, Lays detail s)
    (hrender : ∀ (elif : Bool) (page : Page), render detail n (if elif then .elif else .line) page =
      Action.all [writeBlock (renderAll detail body),
        writeOrelse detail conditions (renderAll detail body) (renderAll detail orelse)]
        (putAll (n.header detail elif) (page.newline page.indentLevel)))
    (hrows : ∀ level elif, n.rows detail level elif = .code level (n.header detail elif) ::
      ((layAll .rows detail body).flatMap (· (level + 1) false) ++
        layOrelse .rows (orelseShape detail conditions body orelse) (orelse.any (!·.isTrivia))
          (layAll .rows detail orelse) level)) : Lays detail n := by
  obtain ⟨hbodyRemarks, horelseRemarks⟩ := List.forall_mem_append.1 hremarks
  have hblocks := blocks_eq detail conditions (lays_nodes hbodyRemarks hbody)
    (lays_nodes horelseRemarks horelse)
  have hplaced : ∀ (elif : Bool) (page : Page), render detail n (if elif then .elif else .line) page =
      putRows (n.rows detail page.indentLevel elif) page := fun elif page => by
    rw [hrender, hrows, layAll_rows]
    exact putRows_line rfl fun page' hlevel => hlevel ▸ hblocks page'
  exact fun page => ⟨hplaced false page, hplaced true page⟩

/-- A statement is printed by putting its lines on the page. -/
theorem render_rows (detail : Detail) (h : DressedStatement n) : Lays detail n := by
  induction h with
  | @functionDef name args body _ hname hargs hne hbody hremarks ih =>
      intro page
      have hbody := writeBlock_eq (lays_nodes hremarks ih)
      have hdef : ∀ page : Page, page.write "def " = (page.write "def").write " " :=
        fun page => page.write_of_eq (by decide)
      have hclose : ∀ page : Page, page.write "):" = (page.write ")").write ":" :=
        fun page => page.write_of_eq (by decide)
      have hline : Action.all [.fill "def ", .text name, .text "(",
          render detail args (.inline .tuple), .text "):"] page =
          putAll ([term "def", .space, term name, sign "("] ++ args.parameterPieces detail ++
            [sign ")", sign ":"]) (page.newline page.indentLevel) := by
        simp [render_parameters hargs, hdef, hclose]
      have hrows := putRows_line hline fun page' hlevel => hlevel ▸ hbody page'
      rw [Node.rows, Node.rows, Node.lay, Node.lay, layAll_eq, List.flatMap_map]
      exact ⟨hrows, hrows⟩
  | @returnStmt value _ hvalue =>
      cases value with
      | none => exact lays_line (fun _ _ => rfl) fun _ => ⟨rfl, rfl⟩
      | some v =>
          have hv : Child.inline .tuple ⟨v, render detail v⟩ = _ :=
            render_pieces detail (hvalue v rfl) .tuple
          have hline : ∀ page : Page, Action.all [.fill "return", .text " ",
              Child.inline .tuple ⟨v, render detail v⟩] page =
              putAll ([term "return", .space] ++ v.pieces detail .tuple)
                (page.newline page.indentLevel) := fun page => by simp [hv]
          exact lays_line (fun _ _ => rfl) fun page => ⟨hline page, hline page⟩
  | @assign targets value span hne htargets hvalue =>
      have hsolid := solid_renderAll detail fun t ht => (htargets t ht).isTrivia
      have hv := render_pieces detail hvalue .tuple
      refine lays_line (fun _ _ => rfl) fun page => ?_
      rw [render, render, hsolid, hv]
      simp only [Action.all_append, Action.all_cons, Action.all_nil, Action.fill_apply,
        Page.write_empty, assignTargets_eq htargets, List.append_eq, putAll_append, and_self]
  | @augAssign target value op _ htarget hvalue =>
      have ht := render_pieces detail htarget .tuple
      have hv := render_pieces detail hvalue .tuple
      have hequals : ∀ page : Page, page.write "= " = (page.write "=").write " " :=
        fun page => page.write_of_eq (by decide)
      refine lays_line (fun _ _ => rfl) fun page => ?_
      rw [render, render, ht, hv]
      simp [hequals]
  | @forLoop target iter body orelse _ htarget hstrong hiter hne hbody horelse hremarks ihbody ihorelse =>
      have ht := render_pieces detail htarget .tuple
      have hi := render_pieces detail hiter .tuple
      have hfor : ∀ page : Page, page.write "for " = (page.write "for").write " " :=
        fun page => page.write_of_eq (by decide)
      have hin : ∀ page : Page, page.write " in " = ((page.write " ").write "in").write " " :=
        fun page => page.write_spaced (by decide)
      refine lays_compound hremarks ihbody ihorelse (fun elif page => ?_) fun _ _ => rfl
      simp [render, Node.header, ht, hi, hfor, hin]
  | @whileLoop test body orelse _ htest hne hbody horelse hremarks ihbody ihorelse =>
      have ht := render_pieces detail htest .test
      have hwhile : ∀ page : Page, page.write "while " = (page.write "while").write " " :=
        fun page => page.write_of_eq (by decide)
      refine lays_compound hremarks ihbody ihorelse (fun elif page => ?_) fun _ _ => rfl
      simp [render, Node.header, ht, hwhile]
  | @ifStmt test body orelse _ htest hne hbody horelse hremarks ihbody ihorelse =>
      have ht := render_pieces detail htest .test
      have hif : ∀ page : Page, page.write "if " = (page.write "if").write " " :=
        fun page => page.write_of_eq (by decide)
      have helif : ∀ page : Page, page.write "elif " = (page.write "elif").write " " :=
        fun page => page.write_of_eq (by decide)
      refine lays_compound hremarks ihbody ihorelse (fun elif page => ?_) fun _ _ => rfl
      cases elif <;> simp [render, Node.header, ht, hif, helif]
  | @exprStmt value _ hvalue =>
      have hv := render_pieces detail hvalue .tuple
      refine lays_line (fun _ _ => rfl) fun page => ?_
      rw [render, render, hv]
      simp
  | pass => exact lays_line (fun _ _ => rfl) fun _ => ⟨rfl, rfl⟩
  | breakStmt => exact lays_line (fun _ _ => rfl) fun _ => ⟨rfl, rfl⟩
  | continueStmt => exact lays_line (fun _ _ => rfl) fun _ => ⟨rfl, rfl⟩

end TriviaTree
