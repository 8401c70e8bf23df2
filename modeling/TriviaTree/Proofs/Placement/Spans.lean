import Mathlib
import TriviaTree.Placement.Plan
import TriviaTree.Proofs.Grammar.Nesting
import TriviaTree.Proofs.Grammar.Retention
import TriviaTree.Proofs.Grammar.Shape
import TriviaTree.Proofs.Placement.Anchors
import TriviaTree.Proofs.Tree.Stripping

/-!
The spans that a natively read tree is given are those of full retention.

Taking spans off a tree changes neither its shape nor its kinds. So the code of a tree that strips to
what was read natively and the second reading of its text have the same nodes in the same order
(`twins_of_strip`), and every gap is filled by the span that was left out (`resolveSpans_of_strip`).
No comment of the text is cut by one of these spans (`nested_of_tokenize`, `Node.Nested.clear`).
-/

set_option autoImplicit false

namespace TriviaTree

namespace Kind

variable {α : Type} (f : α → α) (k : Kind α)

@[simp] theorem fields_map : (k.map f).fields = k.fields := by
  cases k <;> rfl

@[simp] theorem label_map : (k.map f).label = k.label := by
  cases k <;> rfl

@[simp] theorem isTrivia_map : (k.map f).isTrivia = k.isTrivia := by
  cases k <;> rfl

@[simp] theorem contents_map : (k.map f).contents = k.contents.map (·.map f) := by
  cases k <;> simp [map, contents, Option.toList_map]

theorem slotsOf_map (field : Field) (cs : List α) :
    slotsOf field (cs.map f) = (slotsOf field cs).map fun entry => (entry.1, f entry.2) := by
  unfold slotsOf
  split <;> simp [List.mapIdx_eq_zipIdx_map, List.zipIdx_map, Function.comp_def]

theorem slots_map : (k.map f).slots = k.slots.map fun entry => (entry.1, f entry.2) := by
  simp only [slots, entries, fields_map, contents_map, List.zip_map_right, List.flatMap_map,
    List.map_flatMap, Prod.map, id, slotsOf_map]

end Kind

namespace Node

theorem kind_native (n : Node) : n.native.kind = n.kind.map native := by
  cases n
  rw [native_mk]

theorem span_native (n : Node) : n.native.span = if n.kind.isUnplaced then none else n.span := by
  cases n
  rw [native_mk]

@[simp] theorem isTrivia_native (n : Node) : n.native.isTrivia = n.isTrivia := by
  rw [isTrivia, kind_native, Kind.isTrivia_map, isTrivia]

@[simp] theorem label_native (n : Node) : n.native.label = n.label := by
  rw [label, kind_native, Kind.label_map, label]

end Node

theorem children_native (n : Node) : n.native.children = n.children.map Node.native := by
  rw [Node.children, Node.kind_native, Kind.children, Kind.contents_map, ← List.map_flatten]
  rfl

theorem Node.Plain.native {n : Node} (plain : n.Plain) : n.native.Plain := by
  induction n with
  | step n ih =>
    obtain ⟨hself, hchildren⟩ := Node.plain_iff.1 plain
    refine Node.plain_iff.2 ⟨by rwa [Node.isTrivia_native], fun c hc => ?_⟩
    rw [children_native] at hc
    obtain ⟨d, hd, rfl⟩ := List.mem_map.1 hc
    exact ih d hd (hchildren d hd)

/-- A numbered node as native retention leaves it. -/
def FlatNode.native (f : FlatNode) : FlatNode :=
  { f with node := f.node.native }

theorem numberFrom_map {β : Type} (g : β → β) (first : Nat) (makes : List (Nat → List β)) :
    numberFrom first (makes.map fun make i => (make i).map g) = (numberFrom first makes).map g := by
  induction makes generalizing first with
  | nil => rfl
  | cons make makes ih => simp [numberFrom, ih]

theorem Node.flattenFrom_native (n : Node) : ∀ (id : Nat) (way : Path),
    n.native.flattenFrom id way = (n.flattenFrom id way).map FlatNode.native := by
  induction n with
  | step n ih =>
    intro id way
    rw [flattenFrom_eq, flattenFrom_eq, List.map_cons, ← numberFrom_map, kind_native,
      Kind.slots_map, List.map_map, List.map_map]
    congr 2
    refine List.map_congr_left fun entry hentry => ?_
    funext i
    exact ih entry.2 (Kind.mem_children_of_mem_slots hentry) i _

/-- A natively read tree has the same nodes in the same places. -/
theorem flatten_native (n : Node) : n.native.flatten.nodes = n.flatten.nodes.map FlatNode.native :=
  n.flattenFrom_native 0 []

namespace FlatTree

/-- The spans that the nodes of a flat tree are given: trivia have their own, and the nodes that are
code have those of other nodes, in turn. -/
structure Filled (fs : List FlatNode) (twins : List Node) (spans : List (Option Span)) : Prop where
  length_eq : spans.length = fs.length
  trivia : ∀ entry ∈ fs.zip spans, entry.1.node.isTrivia = true → entry.2 = entry.1.node.span
  code : ((fs.zip spans).filter (!·.1.node.isTrivia)).map (·.2) = twins.map (·.span)

/-- A node and its twin differ in what stripping and native retention take away. -/
def Twins (fs : List FlatNode) (twins : List FlatNode) : Prop :=
  List.Forall₂ (fun f twin => f.node.strip = twin.node.native)
    (fs.filter (!·.node.isTrivia)) twins

/-- Every gap is filled by the span that native retention left out. -/
theorem Twins.filled {fs twins : List FlatNode} (h : Twins fs twins) :
    Filled fs (twins.map (·.node)) (fillSpans fs twins) := by
  induction fs generalizing twins with
  | nil =>
      cases h
      exact ⟨rfl, by simp, rfl⟩
  | cons f fs ih =>
      cases htrivia : f.node.isTrivia with
      | true =>
          rw [Twins, List.filter_cons_of_neg (by simp [htrivia])] at h
          obtain ⟨hlength, hown, hcode⟩ := ih h
          have hfill : fillSpans (f :: fs) twins = f.node.span :: fillSpans fs twins := by
            cases twins <;> simp [fillSpans, htrivia]
          rw [hfill]
          refine ⟨by simp [hlength], ?_, by simpa [htrivia] using hcode⟩
          rw [List.zip_cons_cons, List.forall_mem_cons]
          exact ⟨fun _ => rfl, hown⟩
      | false =>
          rw [Twins, List.filter_cons_of_pos (by simp [htrivia])] at h
          cases h with
          | @cons _ twin _ twins htwin h =>
              obtain ⟨hlength, hown, hcode⟩ := ih h
              have hspan : f.node.span.or twin.node.span = twin.node.span := by
                have hsame : f.node.strip.span = twin.node.native.span := by rw [htwin]
                rw [Node.strip_eq, Node.span_native] at hsame
                rw [hsame]
                split <;> simp
              rw [fillSpans, if_neg (by simp [htrivia])]
              refine ⟨by simp [hlength], ?_, by simpa [htrivia, hspan] using hcode⟩
              rw [List.zip_cons_cons, List.forall_mem_cons]
              exact ⟨fun h => by simp [htrivia] at h, hown⟩

theorem Twins.firstMismatch?_eq {fs twins : List FlatNode} (h : Twins fs twins) :
    firstMismatch? ((fs.filter (!·.node.isTrivia)).zip twins) = none := by
  rw [firstMismatch?, List.find?_eq_none]
  rintro ⟨f, twin⟩ hmem
  have hlabel : f.node.strip.label = twin.node.native.label :=
    congrArg Node.label ((List.forall₂_iff_zip.1 h).2 hmem)
  rw [Node.label_strip, Node.label_native] at hlabel
  simp [hlabel]

end FlatTree

/-- A module that is read is a module node, with a span only when it has a statement. -/
theorem parseModule_kind {source : String} {keep : Grammar.Retention} {tree : Node}
    (h : parseModule source keep = .ok tree) :
    ∃ body, tree.kind = .module body ∧ (tree.span ≠ none → body ≠ []) := by
  obtain ⟨_, _, _, hrun⟩ := parseModule_ok.1 h
  simp only [Grammar.module, Grammar.bind_ok, Grammar.pure_ok] at hrun
  obtain ⟨_, _, _, body, _, _, rfl, _⟩ := hrun
  refine ⟨body, rfl, fun hspan hbody => hspan ?_⟩
  subst hbody
  cases keep <;> rfl

/-- The code of a tree that strips to what was read is, in turn, what was read. -/
theorem twins_of_strip {full n : Node} (plain : full.Plain) (h : n.strip = full.native) :
    FlatTree.Twins n.flatten.nodes full.flatten.nodes := by
  have loose := n.loose_of_plain_strip (h ▸ plain.native)
  have hcode : n.isTrivia = false := by
    rw [← Node.isTrivia_strip, h]
    exact (Node.plain_iff.1 plain.native).1
  have hleft := n.preorder_strip hcode loose
  have hflat : ∀ m : Node, m.preorder = m.flatten.nodes.map (·.node) :=
    fun m => (m.map_node_flattenFrom 0 []).symm
  rw [h, hflat, hflat, flatten_native, List.filter_map, List.map_map, List.map_map] at hleft
  rw [FlatTree.Twins, ← List.forall₂_map_right_iff (f := fun f : FlatNode => f.node.native),
    ← List.forall₂_map_left_iff (f := fun f : FlatNode => f.node.strip), List.forall₂_eq_eq_eq]
  exact hleft.symm

/-- The spans of a tree that strips to what was read are found, and they are those of full
retention. -/
theorem resolveSpans_of_strip {source : String} {full n : Node}
    (hfull : parseModule source .full = .ok full) (h : n.strip = full.native) :
    ∃ spans, n.flatten.resolveSpans source = .ok spans ∧
      FlatTree.Filled n.flatten.nodes full.preorder spans := by
  have plain := parseModule_plain hfull
  have twins := twins_of_strip plain h
  have hroot : n.span = none := by
    have hspan : n.strip.span = full.native.span := by rw [h]
    obtain ⟨body, hkind, -⟩ := parseModule_kind hfull
    rwa [Node.strip_eq, Node.span_native, hkind] at hspan
  have hgap : n.flatten.structural.all (·.node.span.isSome) = false := by
    rw [List.all_eq_false]
    refine ⟨⟨0, n, []⟩, List.mem_filter.2 ⟨FlatTree.root_mem n, ?_⟩, by simp [hroot]⟩
    rw [← Node.isTrivia_strip, h, (Node.plain_iff.1 plain.native).1]
    rfl
  have hall : full.flatten.structural = full.flatten.nodes := by
    refine List.filter_eq_self.2 fun f hf => ?_
    have hmem : f.node ∈ full.preorder := by
      rw [← full.map_node_flattenFrom 0 []]
      exact List.mem_map_of_mem hf
    simp [plain f.node hmem]
  have filled := twins.filled
  refine ⟨_, ?_, (full.map_node_flattenFrom 0 []) ▸ filled⟩
  have hlength : n.flatten.structural.length = full.flatten.nodes.length := twins.length_eq
  rw [FlatTree.resolveSpans, hgap, hfull]
  simp only [Bool.false_eq_true, if_false, hall, hlength, ne_eq, not_true_eq_false]
  rw [FlatTree.structural, twins.firstMismatch?_eq]

/-- A natively read module is given the spans of full retention. -/
theorem spanned_native {source : String} {full : Node} (h : parseModule source .full = .ok full) :
    full.native.spanned source = .ok ⟨full.native.flatten, full.flatten.ownSpans⟩ := by
  have plain := (parseModule_plain h).native
  obtain ⟨spans, hspans, filled⟩ := resolveSpans_of_strip h plain.strip_eq
  have hall : (full.native.flatten.nodes.zip spans).filter (!·.1.node.isTrivia) =
      full.native.flatten.nodes.zip spans := by
    refine List.filter_eq_self.2 fun entry hentry => ?_
    have hmem : entry.1.node ∈ full.native.preorder := by
      rw [← full.native.map_node_flattenFrom 0 []]
      exact List.mem_map_of_mem (List.of_mem_zip hentry).1
    simp [plain entry.1.node hmem]
  have hown : spans = full.flatten.ownSpans := by
    have hcode := filled.code
    rw [hall, List.map_snd_zip filled.length_eq.le, ← full.map_node_flattenFrom 0 [],
      List.map_map] at hcode
    exact hcode
  rw [Node.spanned, hspans, hown]
  rfl

/-- The spans of an augmented tree are found in the text its code was read from: one for each node,
their own for trivia, and for the code those of full retention in the order of a walk. -/
theorem resolveSpans_augmented {source : String} {n : Node}
    (h : parseModule source .native = .ok n.strip) :
    ∃ full spans, parseModule source .full = .ok full ∧
      n.flatten.resolveSpans source = .ok spans ∧
      FlatTree.Filled n.flatten.nodes full.preorder spans := by
  rw [parseModule_native] at h
  cases hfull : parseModule source .full with
  | error e => simp [hfull] at h
  | ok full =>
      have hstrip : n.strip = full.native := by simpa [hfull] using h.symm
      obtain ⟨spans, hspans⟩ := resolveSpans_of_strip hfull hstrip
      exact ⟨full, spans, rfl, hspans⟩

theorem resolveSpans_augmented_call :
    let remark : Node := ⟨.comment ⟨" c", true⟩, some ⟨⟨1, 7⟩, ⟨1, 10⟩⟩⟩
    ∃ p, parseModule "f(k=x)" .native = .ok p ∧
      let n : Node := ⟨.module (p.children ++ [remark]), p.span⟩
      parseModule "f(k=x)" .native = .ok n.strip ∧ ∃ full spans,
        parseModule "f(k=x)" .full = .ok full ∧ n.flatten.resolveSpans "f(k=x)" = .ok spans ∧
        FlatTree.Filled n.flatten.nodes full.preorder spans := by
  intro remark
  have hread : (parseModule "f(k=x)" .native).isOk = true := by decide +kernel
  cases hp : parseModule "f(k=x)" .native with
  | error e => simp [hp, Except.isOk, Except.toBool] at hread
  | ok p =>
      obtain ⟨body, hkind, -⟩ := parseModule_kind hp
      have hstrip : (Node.mk (.module (p.children ++ [remark])) p.span).strip = p := by
        obtain ⟨kind, span⟩ := p
        subst hkind
        conv_rhs => rw [← (parseModule_plain hp).strip_eq]
        simp [Node.strip_eq, Node.children, Kind.children, Kind.contents, Kind.fields,
          Kind.withContents, Field.dropTrivia, Field.sequence, Field.isSequence, Node.isTrivia,
          remark, Kind.isTrivia]
      refine ⟨p, rfl, by rw [hstrip], resolveSpans_augmented ?_⟩
      rw [hp, hstrip]

/-! ### Spans that keep clear of comments -/

/-- A span that ends outside a stretch of the text at both ends holds it, or is before or after
it. -/
theorem Span.clear_of_ends {span target : Span}
    (hstart : span.start ≤ target.start ∨ target.stop ≤ span.start)
    (hstop : span.stop ≤ target.start ∨ target.stop ≤ span.stop) :
    span.contains target = true ∨ span.endsBefore target = true ∨
      span.startsAfter target = true := by
  simp only [contains, endsBefore, startsAfter, Bool.and_eq_true, decide_eq_true_eq]
  rcases hstart with hstart | hstart
  · rcases hstop with hstop | hstop
    · exact .inr (.inl hstop)
    · exact .inl ⟨hstart, hstop⟩
  · exact .inr (.inr hstart)

section Nested

variable {B : Bounds} {full : Node}

theorem Node.Nested.of_mem_flatten (nested : full.Nested B) :
    ∀ f ∈ full.flatten.nodes, f.node.Nested B := by
  refine FlatTree.flatten_induction nested fun p _ ih f _ slot hslot _ => ?_
  exact (ih.of_mem_children (Kind.mem_children_of_mem_slots hslot)).1

/-- The spans of full retention, on the tree as native retention leaves it. -/
def Node.nativeSpanned (full : Node) : SpannedTree :=
  ⟨full.native.flatten, full.flatten.ownSpans⟩

theorem Node.spanOf?_nativeSpanned (id : Nat) :
    full.nativeSpanned.spanOf? id = (full.flatten.get? id).bind (·.node.span) := by
  simp only [SpannedTree.spanOf?, nativeSpanned, FlatTree.ownSpans, FlatTree.get?,
    List.getElem?_map]
  cases full.flatten.nodes[id]? <;> rfl

theorem Node.exists_of_spanOf? {id : Nat} {span : Span}
    (h : full.nativeSpanned.spanOf? id = some span) :
    ∃ f ∈ full.flatten.nodes, f.id = id ∧ f.node.span = some span := by
  rw [Node.spanOf?_nativeSpanned, Option.bind_eq_some_iff] at h
  obtain ⟨f, hget, hspan⟩ := h
  exact ⟨f, FlatTree.mem_of_get? hget, FlatTree.id_of_get? hget, hspan⟩

theorem Node.spanOf?_of_mem {f : FlatNode} (hf : f ∈ full.flatten.nodes) :
    full.nativeSpanned.spanOf? f.id = f.node.span := by
  rw [Node.spanOf?_nativeSpanned, FlatTree.get?_id hf]
  rfl

/-- When the ends of all spans keep clear of a stretch of the text, so do the spans. -/
theorem Node.Nested.clear {target : Span}
    (nested : full.Nested (.both fun place => place ≤ target.start ∨ target.stop ≤ place)) :
    full.nativeSpanned.Clear target := by
  intro id span hspan
  obtain ⟨f, hf, _, hspan⟩ := Node.exists_of_spanOf? hspan
  obtain ⟨_, hstart, hstop⟩ := (nested.of_mem_flatten f hf).of_span hspan
  exact Span.clear_of_ends hstart hstop

end Nested

/-! ### Comments among lexemes -/

section Comments

variable {source : String} {tokens : List Token} {comment : Token}

/-- The ends of every other lexeme keep clear of a comment. -/
theorem ends_clear (htokens : tokenize source = .ok tokens) (hmem : comment ∈ tokens)
    (hkind : comment.kind = .comment) {t : Token} (ht : t ∈ tokens) (hother : t.kind ≠ .comment) :
    let index := LineIndex.ofText source
    index.location t.stop ≤ index.location comment.start ∨
      index.location comment.stop ≤ index.location t.start := by
  obtain ⟨horder, _⟩ := inOrder_of_tokenize htokens
  have hne : t ≠ comment := fun heq => hother (heq ▸ hkind)
  have hwithin := horder.within t ht
  have hwithinComment := horder.within comment hmem
  rcases horder.apart ht hmem hne with hbefore | hafter
  · exact .inl (LineIndex.location_mono _ hbefore (by omega))
  · exact .inr (LineIndex.location_mono _ hafter (by omega))

/-- The spans of the tree of a text end outside the comments of that text. -/
theorem nested_of_tokenize (htokens : tokenize source = .ok tokens) (hmem : comment ∈ tokens)
    (hkind : comment.kind = .comment) {full : Node} (h : parseModule source .full = .ok full) :
    let target := (comment.toTrivia (.ofText source)).span
    full.Nested (.both fun place => place ≤ target.start ∨ target.stop ≤ place) := by
  obtain ⟨horder, _⟩ := inOrder_of_tokenize htokens
  refine nested_of_parseModule htokens (.inl (LineIndex.origin_le_location source _)) ?_ h
  intro t ht hother
  have hwithin := horder.within t ht
  have hroom := LineIndex.location_mono (.ofText source) hwithin.2.1 hwithin.2.2
  rcases ends_clear htokens hmem hkind ht hother with hbefore | hafter
  · exact ⟨.inl (hroom.trans hbefore), .inl hbefore⟩
  · exact ⟨.inr hafter, .inr (hafter.trans hroom)⟩

theorem room_of_tokenize (htokens : tokenize source = .ok tokens) (hmem : comment ∈ tokens)
    (hkind : comment.kind = .comment) :
    (comment.toTrivia (.ofText source)).span.start <
      (comment.toTrivia (.ofText source)).span.stop := by
  obtain ⟨horder, _⟩ := inOrder_of_tokenize htokens
  have hroom := (horder.room comment hmem).resolve_left (by simp [hkind, TokenKind.isLayout])
  exact LineIndex.location_strictMono _ hroom (horder.within comment hmem).2.2

end Comments

end TriviaTree
