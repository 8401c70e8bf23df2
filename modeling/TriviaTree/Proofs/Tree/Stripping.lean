import Mathlib
import TriviaTree.Proofs.Tree.Dump
import TriviaTree.Proofs.Tree.Walks

/-!
What stripping leaves of a tree.

Stripping takes trivia out of sequences only. Where they stand nowhere else (`Node.Loose`), the nodes
that are left are those that are no trivia, each stripped, in the order they had (`preorder_strip`).
Counts and lists of nodes follow from that, and a dump that leaves trivia out shows what is left
(`dump_strip`).
-/

set_option autoImplicit false

namespace TriviaTree

variable {n : Node}

theorem keepsShape_strip (fields : List Field) :
    Kind.KeepsShape fields fun field cs => field.dropTrivia (cs.map Node.strip) := by
  rintro ⟨name, shape, operands⟩ - cs admits
  cases shape with
  | sequence => trivial
  | _ => exact admits.map Node.strip

namespace Kind

variable {α : Type}

@[simp] theorem payload_mapFields (k : Kind α) (change : Field → List α → List α) :
    (k.mapFields change).payload = k.payload := by
  cases k <;> simp only [mapFields, withContents] <;> (try split) <;> rfl

@[simp] theorem attributes_mapFields (payload : String) (k : Kind α)
    (change : Field → List α → List α) :
    (k.mapFields change).attributes payload = k.attributes payload := by
  cases k
  case keyword arg value => cases arg <;> simp only [mapFields, withContents] <;> split <;> rfl
  all_goals simp only [mapFields, withContents] <;> (try split) <;> rfl

/-- The kind and the attributes of a node: its layer with nothing in the sequences, and the same node
wherever it must have one. -/
def head (k : Kind Node) : Kind Node :=
  k.mapFields fun field _ => if field.shape = .one then [default] else []

theorem head_mapFields (k : Kind Node) {change : Field → List Node → List Node}
    (keeps : KeepsShape k.fields change) : (k.mapFields change).head = k.head := by
  refine mapFields_mapFields k keeps ?_
  rintro ⟨name, shape, operands⟩ - cs -
  cases shape with
  | one => exact ⟨default, rfl⟩
  | optional => exact ⟨none, rfl⟩
  | sequence => trivial

end Kind

namespace Node

/-- All of a node but its children. -/
def head (n : Node) : Kind Node × Option Span :=
  (n.kind.head, n.span)

@[simp] theorem head_strip (n : Node) : n.strip.head = n.head := by
  rw [strip_eq_mapFields, head, Kind.head_mapFields _ (keepsShape_strip _), head]

theorem entries_strip (n : Node) : n.strip.kind.entries =
    n.kind.entries.map fun entry => (entry.1, entry.1.dropTrivia (entry.2.map strip)) := by
  rw [strip_eq_mapFields, Kind.entries_mapFields _ (keepsShape_strip _)]

/-! ### Trivia that are taken out -/

/-- Those of a node's children that are trivia stand in sequences. -/
def Loose (n : Node) : Prop :=
  ∀ field cs, (field, cs) ∈ n.kind.entries → ∀ c ∈ cs, c.isTrivia = true → field.isSequence = true

theorem loose_of_ownProblems (h : n.ownProblems = []) : n.Loose := by
  intro field cs hentry c hc htrivia
  have haccepts := (ownProblems_eq_nil_iff.1 h).1 field cs hentry c hc htrivia
  rw [Field.acceptsTrivia, Bool.and_eq_true] at haccepts
  exact haccepts.1

theorem loose_of_isTrivia (h : n.isTrivia = true) : n.Loose := by
  intro field cs hentry c hc
  have hmem : c ∈ n.children := Kind.mem_children_of_mem_entries hentry hc
  rw [children_eq_nil_of_isTrivia h] at hmem
  cases hmem

theorem WellPlaced.loose (placed : n.WellPlaced) : ∀ m ∈ n.preorder, m.Loose :=
  fun m hm => loose_of_ownProblems ((wellPlaced_iff.1 placed).2 m hm)

theorem Loose.children_strip (loose : n.Loose) :
    n.strip.children = (n.children.filter (!·.isTrivia)).map strip := by
  rw [children, children, Kind.children_eq, Kind.children_eq, entries_strip, List.flatMap_map,
    List.filter_flatMap, List.map_flatMap]
  refine List.flatMap_congr fun entry hentry => ?_
  obtain ⟨field, cs⟩ := entry
  have hcode : cs.filter ((!·.isTrivia) ∘ strip) = cs.filter (!·.isTrivia) :=
    List.filter_congr fun c _ => by simp
  simp only [Field.dropTrivia]
  split
  · rw [List.filter_map, hcode]
  · next hsingle =>
    congr 1
    refine (List.filter_eq_self.2 fun c hc => ?_).symm
    cases htrivia : c.isTrivia with
    | false => rfl
    | true => exact absurd (loose field cs hentry c hc htrivia) hsingle

/-- What is left of a tree are its nodes that are no trivia. -/
theorem preorder_strip (n : Node) (hcode : n.isTrivia = false) (loose : ∀ m ∈ n.preorder, m.Loose) :
    n.strip.preorder = (n.preorder.filter (!·.isTrivia)).map strip := by
  induction n with
  | step n ih =>
    have hchild : ∀ c ∈ n.children, ((c.preorder.filter (!·.isTrivia)).map strip) =
        if c.isTrivia then [] else c.strip.preorder := by
      intro c hc
      split
      · next htrivia => simp [preorder_of_isTrivia htrivia, htrivia]
      · next hcode =>
        refine (ih c hc (by simpa using hcode) fun m hm => ?_).symm
        exact loose m (mem_preorder_iff.2 (.inr ⟨c, hc, hm⟩))
    rw [preorder_eq, preorder_eq n, List.filter_cons_of_pos (by simp [hcode]), List.map_cons,
      (loose n n.self_mem_preorder).children_strip, List.filter_flatten, List.map_flatten]
    refine congrArg (n.strip :: ·) ?_
    simp only [List.map_map]
    generalize n.children = cs at hchild
    induction cs with
    | nil => rfl
    | cons c cs ih' =>
        have hrest := ih' fun d hd => hchild d (List.mem_cons_of_mem c hd)
        have hfirst := hchild c List.mem_cons_self
        cases htrivia : c.isTrivia <;> simp_all

/-- Trivia that are still there after stripping stood outside sequences. -/
theorem loose_of_plain_strip (n : Node) (plain : n.strip.Plain) : ∀ m ∈ n.preorder, m.Loose := by
  induction n with
  | step n ih =>
    have hleft : ∀ field cs, (field, cs) ∈ n.kind.entries → ∀ c ∈ cs,
        field.isSequence = false ∨ c.isTrivia = false → c.strip.Plain := by
      intro field cs hentry c hc hkept
      have hstripped : (field, field.dropTrivia (cs.map strip)) ∈ n.strip.kind.entries := by
        rw [entries_strip]
        exact List.mem_map.2 ⟨(field, cs), hentry, rfl⟩
      refine (plain_iff.1 plain).2 c.strip (Kind.mem_children_of_mem_entries hstripped ?_)
      have hmem : c.strip ∈ cs.map strip := List.mem_map_of_mem hc
      rw [Field.dropTrivia]
      split
      · next hsequence =>
        refine List.mem_filter.2 ⟨hmem, ?_⟩
        simpa [hsequence] using hkept
      · exact hmem
    intro m hm
    rcases mem_preorder_iff.1 hm with rfl | ⟨c, hc, hm⟩
    · intro field cs hentry c hc htrivia
      by_contra hsingle
      have hplain := hleft field cs hentry c hc (.inl (by simpa using hsingle))
      have hcode := (plain_iff.1 hplain).1
      rw [isTrivia_strip, htrivia] at hcode
      cases hcode
    · cases htrivia : c.isTrivia with
      | true =>
          rw [preorder_of_isTrivia htrivia] at hm
          obtain rfl : m = c := by simpa using hm
          exact loose_of_isTrivia htrivia
      | false =>
          rw [children, Kind.children_eq] at hc
          obtain ⟨⟨field, cs⟩, hentry, hc'⟩ := List.mem_flatMap.1 hc
          exact ih c (Kind.mem_children_of_mem_entries hentry hc')
            (hleft field cs hentry c hc' (.inr htrivia)) m hm

theorem WellPlaced.plain_strip (placed : n.WellPlaced) : n.strip.Plain := by
  intro m hm
  rw [preorder_strip n (wellPlaced_iff.1 placed).1 placed.loose] at hm
  obtain ⟨original, horiginal, rfl⟩ := List.mem_map.1 hm
  simpa using (List.mem_filter.1 horiginal).2

/-! ### Counting what is taken out -/

/-- Every node but the root is a child of one node. -/
theorem countP_preorder (p : Node → Bool) (n : Node) :
    n.preorder.countP p = (p n).toNat + (n.preorder.map (·.children.countP p)).sum := by
  induction n with
  | step n ih =>
    have hbelow : ∀ cs : List Node, (∀ c ∈ cs, c ∈ n.children) →
        ((cs.map preorder).flatten).countP p =
          cs.countP p + (((cs.map preorder).flatten).map (·.children.countP p)).sum := by
      intro cs hcs
      induction cs with
      | nil => rfl
      | cons c cs ih' =>
          have hfirst := ih c (hcs c List.mem_cons_self)
          have hrest := ih' fun d hd => hcs d (List.mem_cons_of_mem c hd)
          have hcount : (c :: cs).countP p = (p c).toNat + cs.countP p := by
            rw [List.countP_cons, Nat.add_comm]
            cases p c <;> rfl
          simp only [List.map_cons, List.flatten_cons, List.countP_append, List.map_append,
            List.sum_append]
          omega
    have hroot := hbelow n.children fun _ hc => hc
    rw [preorder_eq, List.countP_cons, List.map_cons, List.sum_cons, hroot]
    cases p n <;> simp [Nat.add_comm]

theorem strippedCount_eq (loose : ∀ m ∈ n.preorder, m.Loose) :
    n.strippedCount = (n.preorder.map (·.children.countP isTrivia)).sum := by
  rw [strippedCount, List.length_flatMap]
  refine congrArg List.sum (List.map_congr_left fun m hm => ?_)
  rw [children, Kind.children_eq, List.countP_flatMap, List.length_flatMap]
  refine congrArg List.sum (List.map_congr_left fun entry hentry => ?_)
  obtain ⟨field, cs⟩ := entry
  simp only [Function.comp_apply]
  split
  · exact (List.countP_eq_length_filter ..).symm
  · next hsingle =>
    refine (List.countP_eq_zero.2 fun c hc htrivia => ?_).symm
    exact hsingle (loose m hm field cs hentry c hc htrivia)

theorem WellPlaced.strippedCount_eq (placed : n.WellPlaced) : n.strippedCount = n.triviaCount := by
  rw [Node.strippedCount_eq placed.loose, triviaCount, countP_preorder, (wellPlaced_iff.1 placed).1]
  simp

theorem Plain.of_mem_preorder (plain : n.Plain) : ∀ m ∈ n.preorder, m.Plain := by
  induction n with
  | step n ih =>
    intro m hm
    rcases mem_preorder_iff.1 hm with rfl | ⟨c, hc, hm⟩
    · exact plain
    · exact ih c hc ((plain_iff.1 plain).2 c hc) m hm

theorem Plain.wellPlaced (plain : n.Plain) : n.WellPlaced := by
  refine wellPlaced_iff.2 ⟨(plain_iff.1 plain).1, fun m hm => ?_⟩
  obtain ⟨hself, hchildren⟩ := plain_iff.1 (plain.of_mem_preorder m hm)
  refine ownProblems_eq_nil_iff.2 ⟨fun field cs hentry c hc htrivia => ?_, ?_⟩
  · have hplain := hchildren c (Kind.mem_children_of_mem_entries hentry hc)
    rw [(plain_iff.1 hplain).1] at htrivia
    cases htrivia
  · obtain ⟨kind, _⟩ := m
    cases kind <;> trivial

theorem Plain.triviaCount_eq (plain : n.Plain) : n.triviaCount = 0 :=
  List.countP_eq_zero.2 fun m hm => by simp [plain m hm]

/-! ### Dumps -/

theorem dump_entries (n : Node) (style : DumpStyle) : n.dump style =
    n.label ++ n.spanSuffix style ++ "(" ++ commaList (n.kind.attributes (payloadText n.kind.payload) ++
      n.kind.entries.map fun entry =>
        entry.1.dump style (entry.2.map fun c => (c.isTrivia, c.dump style))) ++ ")" := by
  rw [dump_eq, List.zipWith_map_right, Kind.entries, List.zip, List.map_zipWith]

theorem label_strip (n : Node) : n.strip.label = n.label := by
  rw [strip_eq_mapFields]
  exact Kind.label_withContents _ _

/-- A dump without trivia shows what stripping leaves. -/
theorem dump_strip (n : Node) (spans : Bool) : n.strip.dump ⟨true, spans⟩ = n.dump ⟨false, spans⟩ := by
  induction n with
  | step n ih =>
    have hfields : (n.strip.kind.entries.map fun entry =>
        entry.1.dump ⟨true, spans⟩ (entry.2.map fun c => (c.isTrivia, c.dump ⟨true, spans⟩))) =
        n.kind.entries.map fun entry =>
          entry.1.dump ⟨false, spans⟩ (entry.2.map fun c => (c.isTrivia, c.dump ⟨false, spans⟩)) := by
      rw [entries_strip, List.map_map]
      refine List.map_congr_left fun entry hentry => ?_
      obtain ⟨⟨name, shape, operands⟩, cs⟩ := entry
      have hsame : cs.map (fun c => (c.isTrivia, c.strip.dump ⟨true, spans⟩)) =
          cs.map fun c => (c.isTrivia, c.dump ⟨false, spans⟩) :=
        List.map_congr_left fun c hc => by
          rw [ih c (Kind.mem_children_of_mem_entries hentry hc)]
      rw [← hsame]
      cases shape <;>
        simp [Field.dump, Field.dropTrivia, Field.isSequence, List.filter_map, Function.comp_def]
    have hlayer : n.strip.kind.attributes (payloadText n.strip.kind.payload) =
        n.kind.attributes (payloadText n.kind.payload) := by
      rw [strip_eq_mapFields]
      simp
    have hsuffix : n.strip.spanSuffix ⟨true, spans⟩ = n.spanSuffix ⟨false, spans⟩ := by
      rw [strip_eq_mapFields]
      rfl
    rw [dump_entries, dump_entries n, hfields, hlayer, hsuffix, label_strip]

end Node

/-- Stripping, counting, flattening and dumping without trivia agree on every tree whose trivia are in
their places. -/
theorem walks_agree_on_trivia {n : Node} (placed : n.WellPlaced) :
    n.strippedCount = n.flatten.triviaCount ∧
      n.strip.flatten.nodes.map (·.node.head) =
        (n.flatten.nodes.filter (!·.node.isTrivia)).map (·.node.head) ∧
      n.strip.strippedCount = 0 ∧ n.strip.strip = n.strip ∧
      ∀ spans, n.strip.dump ⟨true, spans⟩ = n.dump ⟨false, spans⟩ := by
  have plain := placed.plain_strip
  have hflat : ∀ m : Node, m.flatten.nodes.map (·.node) = m.preorder :=
    fun m => m.map_node_flattenFrom 0 []
  refine ⟨?_, ?_, ?_, plain.strip_eq, n.dump_strip⟩
  · rw [placed.strippedCount_eq, n.triviaCount_flatten]
  · have hleft := n.preorder_strip (Node.wellPlaced_iff.1 placed).1 placed.loose
    rw [← hflat, ← hflat, List.filter_map, List.map_map] at hleft
    have hheads := congrArg (List.map Node.head) hleft
    simpa [Function.comp_def] using hheads
  · rw [plain.wellPlaced.strippedCount_eq, plain.triviaCount_eq]

theorem walks_agree_on_trivia_loop :
    let remark (text : String) : Node := ⟨.comment ⟨text, false⟩, none⟩
    let pragma : Node := ⟨.directive ⟨.pragma, ["pragma"], .raw "once", ⟨false, false⟩⟩, none⟩
    let x : Node := ⟨.name "x", some ⟨⟨1, 4⟩, ⟨1, 5⟩⟩⟩
    let line : Node := ⟨.exprStmt ⟨.list [remark " a", x, remark " b"], none⟩, none⟩
    let n : Node := ⟨.module [pragma, ⟨.forLoop x x [line] [remark " c"], none⟩], none⟩
    n.WellPlaced ∧ n.strippedCount = 4 ∧ n.flatten.triviaCount = 4 ∧
      n.strip.flatten.nodes.map (·.node.head) =
        (n.flatten.nodes.filter (!·.node.isTrivia)).map (·.node.head) ∧
      n.strip.strippedCount = 0 ∧ n.strip.strip = n.strip ∧
      ∀ spans, n.strip.dump ⟨true, spans⟩ = n.dump ⟨false, spans⟩ := by
  intro remark pragma x line n
  have placed : n.WellPlaced := by decide +kernel
  obtain ⟨hcount, hrest⟩ := walks_agree_on_trivia placed
  have hfour : n.strippedCount = 4 := by decide +kernel
  exact ⟨placed, hfour, hcount ▸ hfour, hrest⟩

end TriviaTree
