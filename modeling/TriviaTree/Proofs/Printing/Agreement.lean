import Mathlib
import TriviaTree.Proofs.Tree.Walks
import TriviaTree.Render.Tree

/-!
With its trivia gone, a tree is printed the same way with its trivia and without.

Printing the code alone leaves the trivia out of every list it meets. `bare` is what it leaves of a
list of children; that list has no trivia any more, so each way of writing a list writes `bare` of it,
with whatever detail, as it writes the code of the list itself (`writeItems_bare` and its kin). By
induction on the tree, printing what `Node.strip` leaves is printing the code (`render_strip`).
-/

set_option autoImplicit false

namespace TriviaTree

/-- Leaving out actions that do nothing. -/
theorem Action.all_filter {α : Type} {p : α → Bool} {f : α → Action} {xs : List α}
    (h : ∀ x ∈ xs, p x = false → f x = skip) : all ((xs.filter p).map f) = all (xs.map f) := by
  induction xs with
  | nil => rfl
  | cons x xs ih =>
      have ih := ih fun y hy => h y (List.mem_cons_of_mem x hy)
      funext page
      cases hx : p x with
      | true =>
          rw [List.filter_cons_of_pos hx]
          exact congrFun ih (f x page)
      | false =>
          rw [List.filter_cons_of_neg (by simp [hx])]
          have hskip := h x List.mem_cons_self hx
          refine (congrFun ih page).trans ?_
          simp [all, hskip, skip]

theorem renderAll_eq (detail : Detail) (ns : List Node) :
    renderAll detail ns = ns.map fun n => ⟨n, render detail n⟩ := by
  induction ns with
  | nil => rfl
  | cons n ns ih => rw [renderAll, ih, List.map_cons]

/-- Children that are all code are all of them solid. -/
theorem solid_renderAll (detail : Detail) {ns : List Node} (h : ∀ n ∈ ns, n.isTrivia = false) :
    solid (renderAll detail ns) = ns.map fun n => ⟨n, render detail n⟩ := by
  rw [renderAll_eq, solid, List.filter_eq_self]
  intro c hc
  obtain ⟨n, hn, rfl⟩ := List.mem_map.1 hc
  simp [Child.isTrivia, h n hn]

/-- What writes the text between the brackets of a subscript. -/
def writeSubscript (detail : Detail) (index : Node) : Action :=
  match index.kind with
  | .tuple elts => writeTuple detail (!elts.any (!·.isTrivia)) (items (renderAll detail elts))
  | _ => render detail index (.inline .tuple)

theorem render_subscript (detail : Detail) (value index : Node) (span : Option Span)
    (place : Place) :
    render detail ⟨.subscript value index, span⟩ place =
      .all [render detail value (.inline .atom), .text "[", writeSubscript detail index,
        .text "]"] := by
  obtain ⟨kind, _⟩ := index
  cases kind <;> rfl

theorem Node.isEndOfLineComment_of_code {n : Node} (h : n.isTrivia = false) :
    n.isEndOfLineComment = false := by
  obtain ⟨kind, span⟩ := n
  cases kind with
  | comment c => cases h
  | _ => rfl

theorem Detail.visible_append (detail : Detail) (xs ys : List Item) :
    detail.visible (xs ++ ys) = detail.visible xs ++ detail.visible ys := by
  cases detail <;> simp [visible]

@[simp] theorem isIntLiteral_strip (n : Node) : isIntLiteral n.strip = isIntLiteral n := by
  obtain ⟨kind, span⟩ := n
  rw [Node.strip_eq]
  cases kind <;> rfl

/-! ### Lists of children -/

/-- The child that is left of a child, written as before. -/
def Child.stripped (c : Child) : Child :=
  ⟨c.node.strip, c.write⟩

/-- What is left of a list of children. -/
def bare (children : List Child) : List Child :=
  (solid children).map Child.stripped

/-- Trivia write nothing. -/
def Quiet (children : List Child) : Prop :=
  ∀ c ∈ children, c.isTrivia = true → ∀ place, c.write place = .skip

namespace Child

@[simp] theorem isTrivia_stripped (c : Child) : c.stripped.isTrivia = c.isTrivia :=
  Node.isTrivia_strip c.node

@[simp] theorem isIf_stripped (c : Child) : c.stripped.isIf = c.isIf := by
  obtain ⟨⟨kind, span⟩, write⟩ := c
  simp only [isIf, stripped, Node.strip_eq]
  cases kind <;> rfl

@[simp] theorem item_stripped (c : Child) : c.stripped.item = c.item := by
  rw [item, isTrivia_stripped]
  rfl

end Child

section Bare

variable {children : List Child} {detail : Detail}

theorem isTrivia_of_mem_bare {c : Child} (h : c ∈ bare children) : c.isTrivia = false := by
  obtain ⟨c, hc, rfl⟩ := List.mem_map.1 h
  simpa using (List.mem_filter.1 hc).2

@[simp] theorem solid_bare : solid (bare children) = bare children :=
  List.filter_eq_self.2 fun c hc => by simp [isTrivia_of_mem_bare hc]

theorem items_bare : items (bare children) = (items children).filter (!·.isTrivia) := by
  rw [items, items, bare, solid, List.map_map, List.filter_map]
  exact List.map_congr_left fun c _ => c.item_stripped

/-- All that is left is visible, and it is what is visible of the code. -/
theorem visible_items_bare : detail.visible (items (bare children)) =
    Detail.visible .code (items children) := by
  rw [items_bare]
  cases detail <;> simp [Detail.visible]

theorem any_bare : (bare children).any (!·.isTrivia) = children.any (!·.isTrivia) := by
  rw [bare, List.any_map, solid, List.any_filter]
  congr 1
  funext c
  simp [Bool.and_self]

theorem all_lines_bare (quiet : Quiet children) :
    Action.all ((bare children).map (·.write .line)) = .all (children.map (·.write .line)) := by
  rw [bare, List.map_map]
  exact Action.all_filter fun c hc htrivia => quiet c hc (by simpa using htrivia) .line

theorem writeBlock_bare (quiet : Quiet children) : writeBlock (bare children) = writeBlock children := by
  rw [writeBlock, all_lines_bare quiet]
  rfl

/-- Without trivia nothing is written before an `else`. -/
theorem hoisted_bare (body : List Child) : hoisted detail body (bare children) = 0 := by
  cases detail with
  | code => rfl
  | trivia =>
      cases hbare : bare children with
      | nil => rfl
      | cons c rest =>
          have hcode : c.isTrivia = false := isTrivia_of_mem_bare (hbare ▸ List.mem_cons_self)
          have hremark := Node.isEndOfLineComment_of_code hcode
          simp [hoisted, hremark]

theorem elifOf?_bare : elifOf? detail (bare children) = (elifOf? .code children).map Child.stripped := by
  have hshown : elifOf? detail (bare children) = elifOf? .code (bare children) := by
    cases detail <;> simp [elifOf?]
  rw [hshown]
  simp only [elifOf?, solid_bare]
  rw [bare]
  match solid children with
  | [] => rfl
  | [c] => by_cases hif : c.isIf = true <;> simp [hif]
  | c :: d :: rest => rfl

theorem writeElse_bare (quiet : Quiet children) : writeElse (bare children) = writeElse children := by
  rw [writeElse, writeElse, any_bare, writeBlock_bare quiet, all_lines_bare quiet]

theorem writeOrelse_bare {body orelse : List Child} (conditions : Bool) (quiet : Quiet orelse) :
    writeOrelse detail conditions (bare body) (bare orelse) =
      writeOrelse .code conditions body orelse := by
  have hnone : hoisted .code body orelse = 0 := rfl
  simp only [writeOrelse, hoisted_bare, hnone, List.drop_zero, List.take_zero, List.map_nil,
    List.nil_append, elifOf?_bare, writeElse_bare quiet]
  cases conditions with
  | false => rfl
  | true => cases elifOf? .code orelse <;> rfl

theorem writeItems_bare : writeItems detail (items (bare children)) =
    writeItems .code (items children) := by
  rw [writeItems, visible_items_bare]
  rfl

theorem writeItems_append_bare {more : List Child} :
    writeItems detail (items (bare children) ++ items (bare more)) =
      writeItems .code (items children ++ items more) := by
  rw [writeItems, Detail.visible_append, visible_items_bare, visible_items_bare,
    ← Detail.visible_append]
  rfl

theorem writeTuple_bare (parenthesize : Bool) :
    writeTuple detail parenthesize (items (bare children)) =
      writeTuple .code parenthesize (items children) := by
  rw [writeTuple, visible_items_bare]
  rfl

theorem dictItems_bare {values : List Child} :
    dictItems detail (items (bare children)) (items (bare values)) =
      dictItems .code (items children) (items values) := by
  rw [dictItems, visible_items_bare, visible_items_bare]
  rfl

theorem writeItems_parameterItems_bare {args kwonlyargs : List Child} {vararg kwarg : Option Child} :
    writeItems detail (parameterItems (bare args) (vararg.map Child.stripped) (bare kwonlyargs)
      (kwarg.map Child.stripped)) =
      writeItems .code (parameterItems args vararg kwonlyargs kwarg) := by
  -- stars are no trivia, so they are visible in every detail
  have hcode : ∀ {xs : List Item}, (∀ x ∈ xs, x.isTrivia = false) →
      detail.visible xs = Detail.visible .code xs := by
    intro xs hxs
    have hall : xs.filter (!·.isTrivia) = xs := List.filter_eq_self.2 fun x hx => by simp [hxs x hx]
    cases detail <;> simp [Detail.visible, hall]
  simp only [writeItems, parameterItems, Detail.visible_append, visible_items_bare, any_bare]
  refine congrArg joinItems (congrArg₂ (· ++ ·) (congrArg₂ (· ++ ·) (congrArg₂ (· ++ ·) rfl ?_) rfl) ?_)
  · cases vararg with
    | some c => exact hcode (by simp)
    | none =>
        refine hcode ?_
        cases kwonlyargs.any fun c => !c.isTrivia <;> simp
  · cases kwarg <;> exact hcode (by simp)

end Bare

/-! ### Trees -/

/-- Trivia write nothing among code. -/
theorem quiet_renderAll (ns : List Node) : Quiet (renderAll .code ns) := by
  intro c hc htrivia place
  rw [renderAll_eq] at hc
  obtain ⟨⟨kind, span⟩, _, rfl⟩ := List.mem_map.1 hc
  cases kind with
  | comment c => rfl
  | directive d => rfl
  | _ => cases htrivia

/-- What is left of a sequence. -/
def stripAll (ns : List Node) : List Node :=
  (ns.map Node.strip).filter (!·.isTrivia)

/-- The tree prints as its code when its trivia are gone. -/
structure StripsTo (detail : Detail) (n : Node) : Prop where
  render : ∀ place, TriviaTree.render detail n.strip place = TriviaTree.render .code n place
  subscript : writeSubscript detail n.strip = writeSubscript .code n

theorem renderAll_strip {detail : Detail} {ns : List Node}
    (h : ∀ n ∈ ns, n.isTrivia = false → StripsTo detail n) :
    renderAll detail (stripAll ns) = bare (renderAll .code ns) := by
  rw [stripAll, renderAll_eq, renderAll_eq, bare, solid, List.filter_map, List.filter_map, List.map_map,
    List.map_map]
  have hsame : ns.filter ((!·.isTrivia) ∘ Node.strip) =
      ns.filter ((!·.isTrivia) ∘ fun n => (⟨n, render .code n⟩ : Child)) :=
    List.filter_congr fun n _ => by simp [Child.isTrivia]
  rw [hsame]
  refine List.map_congr_left fun n hn => ?_
  obtain ⟨hn, hcode⟩ := List.mem_filter.1 hn
  have hrender := (h n hn (by simpa [Child.isTrivia] using hcode)).render
  exact congrArg (Child.mk n.strip) (funext hrender)

theorem renderOption_strip {detail : Detail} {n : Option Node} (h : ∀ m ∈ n, StripsTo detail m) :
    renderOption detail (n.map Node.strip) = (renderOption .code n).map Child.stripped := by
  cases n with
  | none => rfl
  | some n => exact congrArg (fun write => some (Child.mk n.strip write)) (funext (h n rfl).render)

/-- The code among the children of a well placed tree is well placed, and only sequences hold trivia. -/
theorem Node.WellPlaced.of_mem {n c : Node} (h : n.WellPlaced) (hc : c ∈ n.children)
    (hcode : c.isTrivia = false) : c.WellPlaced :=
  wellPlaced_iff.2 ⟨hcode, fun m hm =>
    (wellPlaced_iff.1 h).2 m (mem_preorder_iff.2 (.inr ⟨c, hc, hm⟩))⟩

theorem Node.WellPlaced.isTrivia_of_single {n : Node} (h : n.WellPlaced) {field : Field}
    {cs : List Node} (hentry : (field, cs) ∈ n.kind.entries) (hsingle : field.isSequence = false) :
    ∀ c ∈ cs, c.isTrivia = false := by
  intro c hc
  have hown := ownProblems_eq_nil_iff.1 ((wellPlaced_iff.1 h).2 n (mem_preorder_iff.2 (.inl rfl)))
  by_contra htrivia
  have haccepts := hown.1 field cs hentry c hc (by simpa using htrivia)
  simp [Field.acceptsTrivia, hsingle] at haccepts

theorem any_stripAll (ns : List Node) : (stripAll ns).any (!·.isTrivia) = ns.any (!·.isTrivia) := by
  rw [stripAll, List.any_filter, List.any_map]
  congr 1
  funext n
  simp

/-- What is left of a node is printed as its code when what is left of the code in it is. -/
theorem render_strip_of_children {detail : Detail} {kind : Kind Node} {s : Option Span}
    (several : ∀ cs ∈ kind.contents, renderAll detail (stripAll cs) = bare (renderAll .code cs))
    (single : ∀ entry ∈ kind.entries, entry.1.isSequence = false →
      ∀ c ∈ entry.2, StripsTo detail c) (hcode : kind.isTrivia = false) (place : Place) :
    render detail (Node.mk kind s).strip place = render .code ⟨kind, s⟩ place := by
  rw [Node.strip_eq]
  cases kind <;> simp [Kind.entries, Kind.fields, Kind.contents, Field.isSequence, Field.one,
    Field.optional, Field.sequence, Field.operandSequence] at single several
  case module body =>
    show render detail ⟨.module (stripAll body), s⟩ place = _
    rw [render, several, all_lines_bare (quiet_renderAll body)]
    rfl
  case functionDef name args body =>
    show render detail ⟨.functionDef name args.strip (stripAll body), s⟩ place = _
    rw [render, several.2, single.render, writeBlock_bare (quiet_renderAll body)]
    rfl
  case returnStmt value =>
    show render detail ⟨.returnStmt (value.toList.map Node.strip).head?, s⟩ place = _
    rw [List.head?_map, Option.head?_toList, render, render, renderOption_strip single]
    cases value <;> rfl
  case assign targets value =>
    show render detail ⟨.assign (stripAll targets) value.strip, s⟩ place = _
    rw [render, several.1, solid_bare, single.render, bare, List.map_map]
    rfl
  case augAssign target op value =>
    show render detail ⟨.augAssign target.strip op value.strip, s⟩ place = _
    rw [render, single.1.render, single.2.render]
    rfl
  case forLoop target iter body orelse =>
    show render detail ⟨.forLoop target.strip iter.strip (stripAll body) (stripAll orelse), s⟩
      place = _
    rw [render, several.2.2.1, several.2.2.2, single.1.render, single.2.render,
      writeBlock_bare (quiet_renderAll body), writeOrelse_bare false (quiet_renderAll orelse)]
    rfl
  case whileLoop test body orelse =>
    show render detail ⟨.whileLoop test.strip (stripAll body) (stripAll orelse), s⟩ place = _
    rw [render, several.2.1, several.2.2, single.render, writeBlock_bare (quiet_renderAll body),
      writeOrelse_bare false (quiet_renderAll orelse)]
    rfl
  case ifStmt test body orelse =>
    show render detail ⟨.ifStmt test.strip (stripAll body) (stripAll orelse), s⟩ place = _
    rw [render, several.2.1, several.2.2, single.render, writeBlock_bare (quiet_renderAll body),
      writeOrelse_bare true (quiet_renderAll orelse)]
    rfl
  case exprStmt value =>
    show render detail ⟨.exprStmt value.strip, s⟩ place = _
    rw [render, single.render]
    rfl
  case boolOp op values =>
    show render detail ⟨.boolOp op (stripAll values), s⟩ place = _
    rw [render, several, solid_bare, bare, List.map_map]
    rfl
  case binOp left op right =>
    show render detail ⟨.binOp left.strip op right.strip, s⟩ place = _
    simp only [render, single.1.render, single.2.render]
  case unaryOp op operand =>
    show render detail ⟨.unaryOp op operand.strip, s⟩ place = _
    rw [render, single.render]
    rfl
  case compare left ops comparators =>
    show render detail ⟨.compare left.strip ops (stripAll comparators), s⟩ place = _
    rw [render, several.2, solid_bare, single.render, bare, List.zip_map_right, List.map_map]
    rfl
  case ifExp test body orelse =>
    show render detail ⟨.ifExp test.strip body.strip orelse.strip, s⟩ place = _
    rw [render, single.1.render, single.2.1.render, single.2.2.render]
    rfl
  case call func args keywords =>
    show render detail ⟨.call func.strip (stripAll args) (stripAll keywords), s⟩ place = _
    rw [render, several.2.1, several.2.2, single.render, writeItems_append_bare]
    rfl
  case «attribute» value attr =>
    show render detail ⟨.attribute value.strip attr, s⟩ place = _
    rw [render, single.render, isIntLiteral_strip]
    rfl
  case subscript value index =>
    show render detail ⟨.subscript value.strip index.strip, s⟩ place = _
    rw [render_subscript, render_subscript, single.1.render, single.2.subscript]
  case slice lower upper step =>
    show render detail ⟨.slice (lower.toList.map Node.strip).head? (upper.toList.map Node.strip).head?
      (step.toList.map Node.strip).head?, s⟩ place = _
    simp only [List.head?_map, Option.head?_toList]
    rw [render, render, renderOption_strip single.1, renderOption_strip single.2.1,
      renderOption_strip single.2.2]
    cases lower <;> cases upper <;> cases step <;> rfl
  case starred value =>
    show render detail ⟨.starred value.strip, s⟩ place = _
    rw [render, single.render]
    rfl
  case list elts =>
    show render detail ⟨.list (stripAll elts), s⟩ place = _
    rw [render, several, writeItems_bare]
    rfl
  case tuple elts =>
    show render detail ⟨.tuple (stripAll elts), s⟩ place = _
    rw [render, several, writeTuple_bare]
    rfl
  case set elts =>
    show render detail ⟨.set (stripAll elts), s⟩ place = _
    rw [render, several, writeItems_bare]
    rfl
  case dict keys values =>
    show render detail ⟨.dict (stripAll keys) (stripAll values), s⟩ place = _
    rw [render, several.1, several.2, dictItems_bare]
    rfl
  case arguments args vararg kwonlyargs kwarg =>
    show render detail ⟨.arguments (stripAll args) (vararg.toList.map Node.strip).head?
      (stripAll kwonlyargs) (kwarg.toList.map Node.strip).head?, s⟩ place = _
    simp only [List.head?_map, Option.head?_toList]
    rw [render, several.1, several.2.2.1, renderOption_strip single.1, renderOption_strip single.2,
      writeItems_parameterItems_bare]
    rfl
  case arg name default =>
    show render detail ⟨.arg name (default.toList.map Node.strip).head?, s⟩ place = _
    rw [List.head?_map, Option.head?_toList, render, render, renderOption_strip single]
    cases default <;> rfl
  case keyword name value =>
    show render detail ⟨.keyword name value.strip, s⟩ place = _
    cases name <;>
    · rw [render, single.render]
      rfl
  case comment => cases hcode
  case directive => cases hcode
  all_goals rfl

theorem stripsTo (detail : Detail) (n : Node) (placed : n.WellPlaced) : StripsTo detail n := by
  induction n with
  | step n ih =>
    obtain ⟨kind, span⟩ := n
    have child : ∀ c ∈ kind.children, c.isTrivia = false → StripsTo detail c := fun c hc hcode =>
      ih c hc (placed.of_mem hc hcode)
    have several : ∀ cs ∈ kind.contents, renderAll detail (stripAll cs) = bare (renderAll .code cs) :=
      fun cs hcs => renderAll_strip fun c hc => child c (List.mem_flatten.2 ⟨cs, hcs, hc⟩)
    have single : ∀ entry ∈ kind.entries, entry.1.isSequence = false →
        ∀ c ∈ entry.2, StripsTo detail c := fun entry hentry hsingle c hc =>
      child c (Kind.mem_children_of_mem_entries hentry hc)
        (placed.isTrivia_of_single hentry hsingle c hc)
    have hcode : kind.isTrivia = false := (Node.wellPlaced_iff.1 placed).1
    refine ⟨render_strip_of_children several single hcode, ?_⟩
    have hrender := render_strip_of_children (s := span) several single hcode (.inline .tuple)
    rw [Node.strip_eq] at hrender ⊢
    cases kind with
    | tuple elts =>
        -- a tuple between brackets is written without its parentheses
        show writeSubscript detail ⟨.tuple (stripAll elts), span⟩ = _
        simp only [writeSubscript, any_stripAll, several elts (by simp [Kind.contents]),
          writeTuple_bare]
    | _ => exact hrender

/-- Once the trivia of a tree are gone, it is printed with trivia as it is printed without, and that is
how its code was printed before. -/
theorem source_strip_agrees {n : Node} (h : n.WellPlaced) (options : PageOptions) :
    n.strip.source .trivia options = n.strip.source .code options ∧
      n.strip.source .code options = n.source .code options := by
  have htrivia := (stripsTo .trivia n h).render .line
  have hcode := (stripsTo .code n h).render .line
  simp only [Node.source, htrivia, hcode, and_self]

/-- A comment in a tuple of one, and one in front of what is printed as an `elif` without it. -/
theorem source_strip_agrees_elif :
    let remark : Node := ⟨.comment ⟨" c", false⟩, none⟩
    let name : Node := ⟨.name "x", none⟩
    let line : Node := ⟨.exprStmt ⟨.tuple [name, remark], none⟩, none⟩
    let tree : Node :=
      ⟨.module [⟨.ifStmt name [line] [remark, ⟨.ifStmt name [line] [], none⟩], none⟩], none⟩
    tree.WellPlaced ∧ tree.triviaCount = 3 ∧
      tree.source .code .standard = "if x:\n    (x,)\nelif x:\n    (x,)\n" ∧
      tree.strip.source .trivia .standard = tree.strip.source .code .standard ∧
      tree.strip.source .code .standard = tree.source .code .standard := by
  intro remark name line tree
  have hplaced : tree.WellPlaced := by decide +kernel
  exact ⟨hplaced, by decide +kernel, by decide +kernel, source_strip_agrees hplaced .standard⟩

end TriviaTree
