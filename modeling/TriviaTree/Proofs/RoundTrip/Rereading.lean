import Mathlib
import TriviaTree.Proofs.Printing.Remarks
import TriviaTree.Proofs.Printing.Statements

/-!
Printed texts, read again.

A module that can be printed is what its text is read as, whether or not spans are kept
(`parseModule_source_eq`). The same holds of the text of an augmented tree, with its trivia or
without, as long as what is left without them can be printed (`printings_reread_alike`). Where a
starred value stands in parentheses it cannot, and a comment can change what the text is read as
(`comment_makes_tuple`).
-/

set_option autoImplicit false

namespace TriviaTree

open Grammar

theorem Node.Plain.trimmed {n : Node} (h : n.Plain) : n.Trimmed := by
  intro m hm
  refine ⟨(Node.wellPlaced_iff.1 h.wellPlaced).2 m hm, fun htrivia => ?_⟩
  rw [h m hm] at htrivia
  cases htrivia

/-- Printing, then parsing, is the identity on modules that can be printed. -/
theorem parseModule_source_eq {n : Node} (h : PrintableModule true n) (keep : Retention)
    (detail : Detail) {options : PageOptions} (hsize : 1 ≤ options.indentSize) :
    ∃ a, parseModule (n.source detail options) keep = .ok a ∧ a.eraseSpans = n.eraseSpans := by
  have plain := h.isCode.plain
  have hdressed : DressedModule n := dressedModule_of_strip plain.trimmed (by rwa [plain.strip_eq])
  obtain ⟨a, ha, hcode⟩ := parseModule_source keep detail hdressed hsize
  refine ⟨a, ha, ?_⟩
  rw [hcode, plain.strip_eq]

theorem parseModule_source_eq_elif :
    let code (kind : Kind Node) : Node := ⟨kind, none⟩
    let name (id : String) : Node := code (.name id)
    let parameters := code (.arguments [] none [code (.arg "b" (some (name "a")))] none)
    let answer := code (.unaryOp .not (code (.compare (name "a") [.notIn] [name "b"])))
    let loop := code (.forLoop (name "a") (code (.tuple [code (.starred (name "b"))]))
      [code (.returnStmt (some answer))] [])
    let condition := code (.ifStmt (name "a")
      [code (.exprStmt (code (.attribute (code (.constant (.int "1"))) "b")))]
      [code (.ifStmt (name "b") [code .pass] [])])
    let tree := code (.module [code (.functionDef "f" parameters [loop]), condition])
    PrintableModule true tree ∧
      tree.source .code .standard = "def f(*, b=a):\n    for a in (*b,):\n        return not a not in b\nif a:\n    (1).b\nelif b:\n    pass\n" ∧
      ∃ a, parseModule (tree.source .code .standard) .full = .ok a ∧
        a.eraseSpans = tree.eraseSpans := by
  intro code name parameters answer loop condition tree
  have hf : IsIdentifier "f" := ⟨by decide, by decide⟩
  have hid : IsIdentifier "b" := ⟨by decide, by decide⟩
  have ha : Printable true .whole (name "a") := .name ⟨by decide, by decide⟩
  have hb : Printable true .whole (name "b") := .name hid
  have hone : (Constant.int "1").IsSpelled :=
    ⟨⟨'1', [], by decide, .inl (by decide)⟩, by decide⟩
  have hanswer : Printable true .whole answer :=
    .unaryOp (.compare ha (by simp) rfl (by simpa using hb))
  have hloop : PrintableStatement true loop := by
    refine .forLoop ⟨.item ha, fun _ => ?_⟩ (.item (.tuple ?_)) (by simp) ?_ (by simp)
    · decide
    · simpa using Printable.starred hb
    · simpa using PrintableStatement.returnStmt (by simpa using Printable.item hanswer)
  have hparameters : PrintableParameters true parameters := by
    refine .arguments (by simp) (by simp) ?_ (by simp)
    simpa using PrintableParameter.arg hid (by simpa using ha)
  have hcondition : PrintableStatement true condition := by
    refine .ifStmt ha (by simp) ?_ ?_
    · simpa using PrintableStatement.exprStmt (.item (.member (.constant hone) hid))
    · simpa using PrintableStatement.ifStmt hb (by simp) (by simpa using .pass) (by simp)
  have hprintable : PrintableModule true tree :=
    .module (by simpa using
      ⟨.functionDef hf hparameters (by simp) (by simpa using hloop), hcondition⟩)
  exact ⟨hprintable, by decide +kernel, parseModule_source_eq hprintable .full .code (by decide)⟩

/-- The text of an augmented tree, with its trivia or without and whatever the layout, is read as
what stripping leaves of the tree, when that can be printed. -/
theorem printings_reread_alike {classifier : Classifier} {source : String} {n : Node}
    (h : parseAugmented classifier source = .ok n) (hprintable : PrintableModule true n.strip)
    {options options' : PageOptions} (hsize : 1 ≤ options.indentSize)
    (hsize' : 1 ≤ options'.indentSize) :
    ∃ a b, parseModule (n.source .trivia options) .native = .ok a ∧
      parseModule (n.source .code options') .native = .ok b ∧ a.eraseSpans = b.eraseSpans ∧
      b.eraseSpans = n.strip.eraseSpans := by
  have hdressed := dressedModule_of_strip (trimmed_of_parseAugmented h) hprintable
  obtain ⟨a, ha, hcode⟩ := parseModule_source .native .trivia hdressed hsize
  obtain ⟨b, hb, hcode'⟩ := parseModule_source .native .code hdressed hsize'
  exact ⟨a, b, ha, hb, hcode.trans hcode'.symm, hcode'⟩

set_option maxRecDepth 100000 in
theorem printings_reread_alike_comment :
    let source := "if a:\n  [b # c\n  ]"
    ∃ n, parseAugmented .standard source = .ok n ∧ PrintableModule true n.strip ∧
      n.source .trivia .standard = "if a:\n    [b,  # c\n        ]\n" ∧
      ∃ a b, parseModule (n.source .trivia .standard) .native = .ok a ∧
        parseModule (n.source .code .standard) .native = .ok b ∧ a.eraseSpans = b.eraseSpans ∧
        b.eraseSpans = n.strip.eraseSpans := by
  intro source
  have hrendered : (parseAugmented .standard source).map (·.source .trivia .standard) =
      .ok "if a:\n    [b,  # c\n        ]\n" := by
    decide +kernel
  let a : Node := ⟨.name "a", some ⟨⟨1, 3⟩, ⟨1, 4⟩⟩⟩
  let b : Node := ⟨.name "b", some ⟨⟨2, 3⟩, ⟨2, 4⟩⟩⟩
  let line : Node := ⟨.exprStmt ⟨.list [b], some ⟨⟨2, 2⟩, ⟨3, 3⟩⟩⟩, some ⟨⟨2, 2⟩, ⟨3, 3⟩⟩⟩
  have hread : parseModule source .native =
      .ok ⟨.module [⟨.ifStmt a [line] [], some ⟨⟨1, 0⟩, ⟨3, 3⟩⟩⟩], none⟩ := by
    cbv
  cases hn : parseAugmented .standard source with
  | error e => simp [hn, Except.map] at hrendered
  | ok n =>
      rw [hn, Except.map, Except.ok.injEq] at hrendered
      rw [(wellPlaced_of_parseAugmented hn).2, Except.ok.injEq] at hread
      have ha : Printable true .whole a := .name ⟨by decide, by decide⟩
      have hb : Printable true .whole b := .name ⟨by decide, by decide⟩
      have hprintable : PrintableModule true n.strip := by
        rw [hread]
        refine .module (List.forall_mem_singleton.2 ?_)
        refine .ifStmt ha (by simp) (List.forall_mem_singleton.2 ?_) (by simp)
        exact .exprStmt (.item (.list (List.forall_mem_singleton.2 (.item hb))))
      exact ⟨n, rfl, hprintable, hrendered,
        printings_reread_alike hn hprintable (by decide) (by decide)⟩

/-- A starred value is printed without its parentheses, and its last digits with what follows them;
then the comma before a comment makes a tuple. -/
theorem comment_makes_tuple :
    let reread (detail : Detail) (n : Node) :=
      (parseModule (n.source detail .standard) .native).map (·.dump .standard)
    (parseAugmented .standard "f(*(*1).e5or(x # c\n))").map (fun n =>
        (n.source .trivia .standard, n.source .code .standard, reread .trivia n, reread .code n)) = .ok
      ("f(**1.e5or(x,  # c\n    ))\n", "f(**1.e5or(x))\n",
        .ok "Module(body=[Expr(value=Call(func=Name(id=\"f\"), args=[], keywords=[Keyword(arg=None, value=BoolOp(op=Or, values=[Constant(value=1.e5), Tuple(elts=[Name(id=\"x\")])]))]))])",
        .ok "Module(body=[Expr(value=Call(func=Name(id=\"f\"), args=[], keywords=[Keyword(arg=None, value=BoolOp(op=Or, values=[Constant(value=1.e5), Name(id=\"x\")]))]))])") := by
  decide +kernel

end TriviaTree
