import Mathlib
import TriviaTree.Proofs.Tree.Walks

/-!
Numbers, parents and ways of the nodes of a tree.

The tree below a node is numbered without a gap, from the number of the node on (`mem_below_iff`), and it
is made of the nodes whose path leads through the node (`mem_below_iff_line`). So whether a node is above
another can be told from its number and its size, and a path can be followed step by step
(`FlatTree.coherent`).
-/

set_option autoImplicit false

namespace TriviaTree

namespace FlatNode

/-- The node and all that is below it, numbered as in the whole tree. -/
def below (f : FlatNode) : List FlatNode :=
  f.node.flattenFrom f.id f.way

/-- The numbers on the path to the node, its own last. -/
def line (f : FlatNode) : List Nat :=
  f.path.map (·.node)

/-- The steps that lead to the node. -/
def steps (f : FlatNode) : List (String × Option Nat) :=
  f.way.filterMap (·.step?)

variable {f p : FlatNode} {slot : Slot}

theorem self_mem_below (f : FlatNode) : f ∈ f.below := by
  rw [below, Node.flattenFrom_eq]
  exact List.mem_cons_self

theorem line_child (hway : f.way = p.way ++ [⟨p.id, some slot.field, slot.index⟩]) :
    f.line = p.line ++ [f.id] := by
  simp [line, path, hway]

theorem map_id_below (f : FlatNode) :
    f.below.map (·.id) = List.range' f.id f.node.preorder.length := by
  rw [below, Node.map_id_flattenFrom, ← f.node.map_node_flattenFrom f.id f.way, List.length_map]

end FlatNode

namespace FlatTree

variable {n : Node} {f g p : FlatNode} {slot : Slot}

theorem below_subset : ∀ g ∈ n.flatten.nodes, ∀ f ∈ g.below, f ∈ n.flatten.nodes := by
  refine flatten_induction (fun f hf => hf) ?_
  intro p _ ih g hg slot hslot hway f hf
  obtain ⟨i, hi⟩ := exists_mem_numberFrom (List.mem_map.2 ⟨(slot, g.node), hslot, rfl⟩) (p.id + 1)
  have hall : ∀ x ∈ g.node.flattenFrom i g.way, x ∈ n.flatten.nodes := by
    intro x hx
    refine ih x ?_
    rw [FlatNode.below, Node.flattenFrom_eq]
    exact List.mem_cons_of_mem _ (hi x (hway ▸ hx))
  -- the child has its number from the numbering below its parent
  have hsame : ⟨i, g.node, g.way⟩ = g :=
    eq_of_way_eq (hall _ (FlatNode.self_mem_below ⟨i, g.node, g.way⟩)) hg rfl
  obtain rfl : i = g.id := congrArg FlatNode.id hsame
  exact hall f hf

/-- The numbers below a node have no gap. -/
theorem mem_below_iff (hf : f ∈ n.flatten.nodes) (hg : g ∈ n.flatten.nodes) :
    f ∈ g.below ↔ g.id ≤ f.id ∧ f.id < g.id + g.node.preorder.length := by
  rw [← List.mem_range'_1, ← g.map_id_below]
  refine ⟨List.mem_map_of_mem, fun h => ?_⟩
  obtain ⟨f', hf', hid⟩ := List.mem_map.1 h
  rwa [← eq_of_id_eq (below_subset g hg f' hf') hf hid]

/-- What is below a node is the node itself, or stands in a slot of something below it. -/
theorem mem_below_child (hg : g ∈ n.flatten.nodes) (hp : p ∈ n.flatten.nodes)
    (hf : f ∈ n.flatten.nodes) (hslot : (slot, f.node) ∈ p.node.kind.slots)
    (hway : f.way = p.way ++ [⟨p.id, some slot.field, slot.index⟩]) :
    f ∈ g.below ↔ p ∈ g.below ∨ g.id = f.id := by
  constructor
  · intro h
    rcases g.node.exists_parent g.id g.way f h with rfl | ⟨p', hp', slot', _, hway'⟩
    · exact .inr rfl
    · have hsame : p'.way = p.way := (List.append_inj' (hway'.symm.trans hway) rfl).1
      rw [eq_of_way_eq (below_subset g hg p' hp') hp hsame] at hp'
      exact .inl hp'
  · rintro (h | h)
    · obtain ⟨f', hf', _, hway'⟩ := g.node.exists_child g.id g.way p h hslot
      rwa [eq_of_way_eq (below_subset g hg f' hf') hf (hway'.trans hway.symm)] at hf'
    · rw [eq_of_id_eq hg hf h]
      exact f.self_mem_below

/-- The nodes below a node are those whose path leads through it. -/
theorem mem_below_iff_line (hg : g ∈ n.flatten.nodes) :
    ∀ f ∈ n.flatten.nodes, f ∈ g.below ↔ g.id ∈ f.line := by
  refine flatten_induction ?_ ?_
  · have hsize : 0 < g.node.preorder.length := by simp [Node.preorder_eq]
    rw [mem_below_iff (root_mem n) hg]
    simp only [FlatNode.line, FlatNode.path, List.nil_append, List.map_cons, List.map_nil,
      List.mem_singleton]
    omega
  · intro p hp ih f hf slot hslot hway
    rw [mem_below_child hg hp hf hslot hway, ih, FlatNode.line_child hway, List.mem_append,
      List.mem_singleton]

/-- A node comes after its parent. -/
theorem id_lt_of_child (hp : p ∈ n.flatten.nodes) (hf : f ∈ n.flatten.nodes)
    (hslot : (slot, f.node) ∈ p.node.kind.slots)
    (hway : f.way = p.way ++ [⟨p.id, some slot.field, slot.index⟩]) : p.id < f.id := by
  have hbelow := (mem_below_child hp hp hf hslot hway).2 (.inl p.self_mem_below)
  refine lt_of_le_of_ne ((mem_below_iff hf hp).1 hbelow).1 fun hid => ?_
  have hlength := congrArg (·.way.length) (eq_of_id_eq hp hf hid)
  simp [hway] at hlength

theorem exists_of_mem_line : ∀ f ∈ n.flatten.nodes, ∀ id ∈ f.line, ∃ g ∈ n.flatten.nodes, g.id = id := by
  refine flatten_induction ?_ ?_
  · intro id hid
    obtain rfl : id = 0 := by simpa [FlatNode.line, FlatNode.path] using hid
    exact ⟨_, root_mem n, rfl⟩
  · intro p _ ih f hf slot _ hway id hid
    rw [FlatNode.line_child hway, List.mem_append, List.mem_singleton] at hid
    exact hid.elim (ih id) fun hid => ⟨f, hf, hid.symm⟩

/-- Every entry of a way takes a step. -/
theorem map_step?_way : ∀ f ∈ n.flatten.nodes, f.way.map (·.step?) = f.steps.map some := by
  refine flatten_induction rfl ?_
  intro p _ ih f _ slot _ hway
  have hsteps : f.steps = p.steps ++ [(slot.field.name, slot.index)] := by
    simp [FlatNode.steps, hway, PathEntry.step?]
  rw [hway, List.map_append, ih, hsteps, List.map_append]
  rfl

/-- The first steps of a path lead to the node that the next entry names. -/
theorem exists_at_entry (hf : f ∈ n.flatten.nodes) {k : Nat} {entry : PathEntry}
    (hentry : f.path[k]? = some entry) : ∃ g ∈ n.flatten.nodes, g.id = entry.node ∧
      g.way = f.path.take k ∧ n.descend? (f.steps.take k) = some g.node := by
  obtain ⟨g, hg, hid, hway⟩ : ∃ g ∈ n.flatten.nodes, g.id = entry.node ∧ g.way = f.way.take k := by
    rcases Nat.lt_or_ge k f.way.length with hk | hk
    · rw [FlatNode.path, List.getElem?_append_left hk] at hentry
      obtain ⟨hlt, rfl⟩ := List.getElem?_eq_some_iff.1 hentry
      have hsplit : f.way = f.way.take k ++ f.way[k] :: f.way.drop (k + 1) := by simp
      obtain ⟨g, hg, hway, _, _, _, hnode⟩ := exists_ancestor f hf _ _ _ hsplit
      exact ⟨g, hg, by rw [hnode], hway⟩
    · rw [FlatNode.path, List.getElem?_append_right hk] at hentry
      have hlast := List.mem_singleton.1 (List.mem_of_getElem? hentry)
      exact ⟨f, hf, by rw [hlast], (List.take_of_length_le hk).symm⟩
  have hk : k ≤ f.way.length := by
    have hlt := (List.getElem?_eq_some_iff.1 hentry).1
    rw [FlatNode.path, List.length_append, List.length_singleton] at hlt
    exact Nat.lt_succ_iff.1 hlt
  refine ⟨g, hg, hid, by rw [hway, FlatNode.path, List.take_append_of_le_length hk], ?_⟩
  have hsteps : f.steps.take k = g.steps := by
    have htake := congrArg (List.take k) (map_step?_way f hf)
    rw [← List.map_take, ← List.map_take, ← hway, map_step?_way g hg] at htake
    exact (List.map_injective_iff.2 (Option.some_injective _) htake).symm
  rw [hsteps]
  exact descend?_way g hg

theorem isAncestor_iff (hf : f ∈ n.flatten.nodes) {a : Nat} :
    n.flatten.isAncestor a f.id = true ↔ a ∈ f.line := by
  simp [isAncestor, pathTo, get?_id hf, FlatNode.line]

/-- Parents come before their children and one level above them, a path has an entry for each level and
leads, step by step, through the nodes that it names, and the nodes below a node are numbered right
after it. -/
theorem coherent (n : Node) {id : Nat} (hid : id < n.flatten.size) :
    ∃ f, n.flatten.get? id = some f ∧ (f.parent? = none ↔ id = 0) ∧
      (∀ parent, f.parent? = some parent → parent < id ∧
        ∃ p, n.flatten.get? parent = some p ∧ f.depth = p.depth + 1) ∧
      (n.flatten.pathTo id).length = f.depth + 1 ∧
      (∃ steps, (n.flatten.pathTo id).map (·.step?) = steps.map some ++ [none] ∧
        n.descend? steps = some f.node ∧
        ∀ k entry, (n.flatten.pathTo id)[k]? = some entry → ∃ g, n.flatten.get? entry.node = some g ∧
          g.way = (n.flatten.pathTo id).take k ∧ n.descend? (steps.take k) = some g.node) ∧
      ∀ a, n.flatten.isAncestor a id = true ↔ ∃ g, n.flatten.get? a = some g ∧
        a ≤ id ∧ id < a + g.node.preorder.length := by
  obtain ⟨f, hget⟩ : ∃ f, n.flatten.get? id = some f := ⟨_, List.getElem?_eq_getElem hid⟩
  have hf := mem_of_get? hget
  obtain rfl := id_of_get? hget
  have hpath : n.flatten.pathTo f.id = f.path := by rw [pathTo, hget]
  rw [hpath]
  refine ⟨f, hget, ?_, ?_, by simp [FlatNode.path, FlatNode.depth], ⟨f.steps, ?_, descend?_way f hf, ?_⟩, ?_⟩
  · rw [FlatNode.parent?, Option.map_eq_none_iff, List.getLast?_eq_none_iff]
    refine ⟨fun hway => by rw [eq_root_of_way_eq_nil hf hway], fun h => ?_⟩
    rw [eq_of_id_eq hf (root_mem n) h]
  · intro parent hparent
    rcases n.exists_parent 0 [] f hf with rfl | ⟨p, hp, slot, hslot, hway⟩
    · cases hparent
    · obtain rfl : p.id = parent := by simpa [FlatNode.parent?, hway] using hparent
      exact ⟨id_lt_of_child hp hf hslot hway, p, get?_id hp, by simp [FlatNode.depth, hway]⟩
  · rw [FlatNode.path, List.map_append, map_step?_way f hf]
    rfl
  · intro k entry hentry
    obtain ⟨g, hg, hnode, hway, hsteps⟩ := exists_at_entry hf hentry
    exact ⟨g, hnode ▸ get?_id hg, hway, hsteps⟩
  · intro a
    rw [isAncestor_iff hf]
    constructor
    · intro ha
      obtain ⟨g, hg, rfl⟩ := exists_of_mem_line f hf a ha
      exact ⟨g, get?_id hg, (mem_below_iff hf hg).1 ((mem_below_iff_line hg f hf).2 ha)⟩
    · rintro ⟨g, hgget, hrange⟩
      have hg := mem_of_get? hgget
      obtain rfl := id_of_get? hgget
      exact (mem_below_iff_line hg f hf).1 ((mem_below_iff hf hg).2 hrange)

/-- The body of a condition: the fourth node, on the third level. -/
theorem coherent_body :
    let tree : Node := ⟨.module [⟨.ifStmt ⟨.name "x", none⟩ [⟨.pass, none⟩] [], none⟩], none⟩
    3 < tree.flatten.size ∧ ∃ f, tree.flatten.get? 3 = some f ∧ f.depth = 2 ∧
      (tree.flatten.pathTo 3).length = 3 ∧ ∀ a, tree.flatten.isAncestor a 3 = true ↔
        ∃ g, tree.flatten.get? a = some g ∧ a ≤ 3 ∧ 3 < a + g.node.preorder.length := by
  intro tree
  have hsize : 3 < tree.flatten.size := by decide +kernel
  have hdepth : (tree.flatten.get? 3).map (·.depth) = some 2 := by decide +kernel
  obtain ⟨f, hget, _, _, hlength, _, hline⟩ := coherent tree hsize
  rw [hget, Option.map_some, Option.some.injEq] at hdepth
  exact ⟨hsize, f, hget, hdepth, by rw [hlength, hdepth], hline⟩

end FlatTree

end TriviaTree
