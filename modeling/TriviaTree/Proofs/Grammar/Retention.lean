import Mathlib
import TriviaTree.Proofs.Grammar.Run
import TriviaTree.Tree.Walk

/-!
Retention decides about spans and nothing else.

`Node.native` takes the spans off a tree that only full retention gives. Every rule commutes with
it: reading natively is reading with full retention and then taking those spans off, whatever the
rule goes through on the way and also when it refuses the text (`parseModule_native`).
-/

set_option autoImplicit false

namespace TriviaTree

namespace Kind

/-- The same layer over other children. -/
def map {α : Type} (f : α → α) : Kind α → Kind α
  | .module body => .module (body.map f)
  | .functionDef id args body => .functionDef id (f args) (body.map f)
  | .returnStmt value => .returnStmt (value.map f)
  | .assign targets value => .assign (targets.map f) (f value)
  | .augAssign target op value => .augAssign (f target) op (f value)
  | .forLoop target iter body orelse => .forLoop (f target) (f iter) (body.map f) (orelse.map f)
  | .whileLoop test body orelse => .whileLoop (f test) (body.map f) (orelse.map f)
  | .ifStmt test body orelse => .ifStmt (f test) (body.map f) (orelse.map f)
  | .exprStmt value => .exprStmt (f value)
  | .boolOp op values => .boolOp op (values.map f)
  | .binOp left op right => .binOp (f left) op (f right)
  | .unaryOp op operand => .unaryOp op (f operand)
  | .compare left ops comparators => .compare (f left) ops (comparators.map f)
  | .ifExp test body orelse => .ifExp (f test) (f body) (f orelse)
  | .call func args keywords => .call (f func) (args.map f) (keywords.map f)
  | .attribute value attr => .attribute (f value) attr
  | .subscript value index => .subscript (f value) (f index)
  | .slice lower upper step => .slice (lower.map f) (upper.map f) (step.map f)
  | .starred value => .starred (f value)
  | .list elts => .list (elts.map f)
  | .tuple elts => .tuple (elts.map f)
  | .set elts => .set (elts.map f)
  | .dict keys values => .dict (keys.map f) (values.map f)
  | .arguments args vararg kwonlyargs kwarg =>
      .arguments (args.map f) (vararg.map f) (kwonlyargs.map f) (kwarg.map f)
  | .arg id default => .arg id (default.map f)
  | .keyword id value => .keyword id (f value)
  | leaf => leaf

theorem map_eq_withContents {α : Type} (f : α → α) (k : Kind α) :
    k.map f = k.withContents (k.contents.map (·.map f)) := by
  cases k <;> simp [map, withContents, contents, List.head?_map, Option.head?_toList]

/-- The kinds that only full retention gives a span. -/
def isUnplaced {α : Type} : Kind α → Bool
  | .module .. | .arguments .. | .keyword .. => true
  | _ => false

end Kind

namespace Node

/-- A tree as native retention leaves it. -/
def native (n : Node) : Node :=
  ⟨n.kind.withContents
      (n.kind.contents.attach.map fun ⟨cs, _⟩ => cs.attach.map fun ⟨c, _⟩ => c.native),
    if n.kind.isUnplaced then none else n.span⟩
termination_by sizeOf n
decreasing_by exact sizeOf_lt_of_mem_contents ‹_› ‹_›

@[simp] theorem native_mk (kind : Kind Node) (span : Option Span) :
    (Node.mk kind span).native =
      ⟨kind.map native, if kind.isUnplaced then none else span⟩ := by
  rw [native]
  simp [Kind.map_eq_withContents]

end Node

namespace Grammar

/-- What a rule goes through, read natively. -/
def Self.native (self : Self) : Self := fun entry => Node.native <$> self entry

@[simp] theorem Self.native_apply (self : Self) (entry : Entry) :
    self.native entry = Node.native <$> self entry := rfl

section Loops

variable {α β : Type} (f : α → β)

@[simp] theorem map_fail (fault : SyntaxFault) : f <$> (fail fault : Parser α) = fail fault := rfl

@[simp] theorem map_failFound (fault : Found → SyntaxFault) :
    f <$> (failFound fault : Parser α) = failFound fault := rfl

@[simp] theorem fail_bind (fault : SyntaxFault) (next : α → Parser β) :
    fail fault >>= next = fail fault := rfl

/-- A span that nothing is done with. -/
@[simp] theorem spanFrom_bind (start : Location) (p : Parser α) :
    (spanFrom start >>= fun _ => p) = p := rfl

@[simp] theorem map_spanFrom (start : Location) (b : β) :
    (fun _ => b) <$> spanFrom start = pure b := rfl

@[simp] theorem map_ite {P : Prop} [Decidable P] (p q : Parser α) :
    f <$> (if P then p else q) = if P then f <$> p else f <$> q :=
  apply_ite _ _ _ _

@[simp] theorem bounded_map (loop : Nat → Parser α) :
    bounded (fun n => f <$> loop n) = f <$> bounded loop := by
  simp [bounded]

@[simp] theorem commaTail_map (stop : Cursor → Bool) (item : Parser α) :
    commaTail stop (f <$> item) = fun n => List.map f <$> commaTail stop item n := by
  funext n
  induction n with
  | zero => simp [commaTail]
  | succ n ih => simp [commaTail, ih]

@[simp] theorem itemsUntil_map (closer : String) (item : Parser α) :
    itemsUntil closer (f <$> item) = fun n => List.map f <$> itemsUntil closer item n := by
  funext n
  induction n with
  | zero => simp [itemsUntil]
  | succ n ih => simp [itemsUntil, ih]

end Loops

/-! ### Expressions -/

attribute [local simp] close Kind.isUnplaced Kind.map Function.comp_def

section Expressions

variable (self : Self)

@[simp] theorem starred_native : starred self.native = Node.native <$> starred self := by
  simp [starred]

@[simp] theorem starredOrTest_native :
    starredOrTest self.native = Node.native <$> starredOrTest self := by
  simp [starredOrTest]

@[simp] theorem displayItems_native (closer : String) :
    displayItems self.native closer = List.map Node.native <$> displayItems self closer := by
  simp [displayItems]

@[simp] theorem parenthesized_native :
    parenthesized self.native = Node.native <$> parenthesized self := by
  simp [parenthesized]

@[simp] theorem dictPair_native : dictPair self.native =
    (fun pair => (pair.1.native, pair.2.native)) <$> dictPair self := by
  simp [dictPair]

@[simp] theorem braced_native : braced self.native = Node.native <$> braced self := by
  simp [braced]

@[simp] theorem atom_native : atom self.native = Node.native <$> atom self := by
  simp only [atom, map_bind]
  refine bind_congr fun start => bind_congr fun c => ?_
  cases c.current.kind with
  | name =>
      cases keywordConstant? c.current.text with
      | some value => simp
      | none => simp
  | int | float | str | op => simp
  | newline | indent | dedent | comment | endMarker => simp

/-- The arguments of a call, by position and by name. -/
def nativeItems (items : List Node × List Node) : List Node × List Node :=
  (items.1.map Node.native, items.2.map Node.native)

theorem callItems_native (n : Nat) (args keywords : List Node) :
    callItems .native self.native n (args.map Node.native) (keywords.map Node.native) =
      nativeItems <$> callItems .full self n args keywords := by
  induction n generalizing args keywords with
  | zero => simp [callItems, nativeItems]
  | succ n ih =>
      simp [callItems, closeFull, ← ih, nativeItems]

@[simp] theorem callArguments_native : callArguments .native self.native =
    nativeItems <$> callArguments .full self := by
  have hitems : (fun n => callItems .native self.native n [] []) =
      fun n => nativeItems <$> callItems .full self n [] [] :=
    funext fun n => callItems_native self n [] []
  simp [callArguments, hitems]

@[simp] theorem slicePart_native :
    slicePart self.native = Option.map Node.native <$> slicePart self := by
  simp [slicePart]

@[simp] theorem sliceTail_native (lower : Option Node) (start : Location) :
    sliceTail self.native (lower.map Node.native) start =
      Node.native <$> sliceTail self lower start := by
  simp [sliceTail]

@[simp] theorem sliceItem_native : sliceItem self.native = Node.native <$> sliceItem self := by
  have hnone := fun start => sliceTail_native self none start
  have hsome := fun lower start => sliceTail_native self (some lower) start
  simp only [Option.map_none, Option.map_some] at hnone hsome
  simp [sliceItem, hnone, hsome]

@[simp] theorem subscriptItems_native :
    subscriptItems self.native = Node.native <$> subscriptItems self := by
  simp [subscriptItems]

theorem trailers_native (start : Location) (n : Nat) (node : Node) :
    trailers .native self.native start n node.native =
      Node.native <$> trailers .full self start n node := by
  induction n generalizing node with
  | zero => simp [trailers]
  | succ n ih => simp [trailers, nativeItems, ← ih]

@[simp] theorem primary_native : primary .native self.native = Node.native <$> primary .full self := by
  simp [primary, trailers_native]

@[simp] theorem power_native : power .native self.native = Node.native <$> power .full self := by
  simp [power]

@[simp] theorem factor_native : factor .native self.native = Node.native <$> factor .full self := by
  simp only [factor, map_bind]
  refine bind_congr fun start => bind_congr fun c => ?_
  cases sign? c.current <;> simp

theorem binaryTail_native (level : List BinaryOp) (operand : Parser Node) (start : Location)
    (n : Nat) (left : Node) :
    binaryTail level (Node.native <$> operand) start n left.native =
      Node.native <$> binaryTail level operand start n left := by
  induction n generalizing left with
  | zero => simp [binaryTail]
  | succ n ih =>
      simp only [binaryTail, map_bind]
      refine bind_congr fun c => ?_
      cases c.binaryOp? level <;> simp [← ih]

@[simp] theorem binary_native (levels : List (List BinaryOp)) :
    binary .native self.native levels = Node.native <$> binary .full self levels := by
  induction levels with
  | nil => simp [binary]
  | cons level stronger ih => simp [binary, ih, binaryTail_native]

@[simp] theorem compareTail_native (operand : Parser Node) :
    compareTail (Node.native <$> operand) =
      fun n => List.map (fun pair => (pair.1, pair.2.native)) <$> compareTail operand n := by
  funext n
  induction n with
  | zero => simp [compareTail]
  | succ n ih =>
      simp only [compareTail, map_bind]
      refine bind_congr fun c => ?_
      cases c.compareOp? <;> simp [ih]

@[simp] theorem comparison_native :
    comparison .native self.native = Node.native <$> comparison .full self := by
  simp [comparison, bitwise]

@[simp] theorem negation_native :
    negation .native self.native = Node.native <$> negation .full self := by
  simp [negation]

@[simp] theorem boolTail_native (op : BoolOp) (operand : Parser Node) :
    boolTail op (Node.native <$> operand) = fun n => List.map Node.native <$> boolTail op operand n := by
  funext n
  induction n with
  | zero => simp [boolTail]
  | succ n ih => simp [boolTail, ih]

@[simp] theorem boolChain_native (op : BoolOp) (operand : Parser Node) :
    boolChain op (Node.native <$> operand) = Node.native <$> boolChain op operand := by
  simp [boolChain]

@[simp] theorem test_native : test .native self.native = Node.native <$> test .full self := by
  simp [test, disjunction, conjunction]

end Expressions

/-- An expression entered by any rule, however deep it may nest. -/
theorem expression_native (n : Nat) : expression .native n = Self.native (expression .full n) := by
  funext entry
  induction n generalizing entry with
  | zero => simp [expression]
  | succ n ih =>
      have ih : expression .native n = Self.native (expression .full n) := funext ih
      cases entry <;> simp [expression, bitwise, ih]

@[simp] theorem commaList_native (item : Parser Node) :
    commaList (Node.native <$> item) = Node.native <$> commaList item := by
  simp [commaList]

@[simp] theorem anyTest_native : anyTest .native = Node.native <$> anyTest .full := by
  simp [anyTest, withExpressions, expression_native]

@[simp] theorem anyList_native : anyList .native = Node.native <$> anyList .full := by
  simp [anyList, withExpressions, expression_native]

@[simp] theorem targetList_native : targetList .native = Node.native <$> targetList .full := by
  simp [targetList, withExpressions, expression_native, ← map_ite, ← map_bind]

/-! ### Statements -/

@[simp] theorem assignTail_native :
    assignTail .native = fun n => List.map Node.native <$> assignTail .full n := by
  funext n
  induction n with
  | zero => simp [assignTail]
  | succ n ih => simp [assignTail, ih]

theorem wordStatement?_cases {c : Cursor} {kind : Kind Node} (h : c.wordStatement? = some kind) :
    kind = .pass ∨ kind = .breakStmt ∨ kind = .continueStmt := by
  unfold Cursor.wordStatement? at h
  split_ifs at h <;> cases h <;> simp

@[simp] theorem smallStatement_native :
    smallStatement .native = Node.native <$> smallStatement .full := by
  simp only [smallStatement, map_bind]
  refine bind_congr fun start => bind_congr fun c => ?_
  cases hword : c.wordStatement? with
  | some kind => obtain rfl | rfl | rfl := wordStatement?_cases hword <;> simp
  | none =>
      by_cases hreturn : c.atKeyword "return" = true
      · simp [hreturn]
      · simp only [hreturn, Bool.false_eq_true, if_false, anyList_native, bind_map_left, map_bind]
        refine bind_congr fun first => bind_congr fun c => ?_
        cases c.augmentedOp? with
        | some op => simp
        | none =>
            simp only [assignTail_native, bounded_map, bind_map_left, map_bind]
            refine bind_congr fun rest => ?_
            cases hlast : rest.getLast? <;> simp [hlast]

@[simp] theorem semicolonTail_native :
    semicolonTail .native = fun n => List.map Node.native <$> semicolonTail .full n := by
  funext n
  induction n with
  | zero => simp [semicolonTail]
  | succ n ih => simp [semicolonTail, ih]

@[simp] theorem simpleStatements_native :
    simpleStatements .native = List.map Node.native <$> simpleStatements .full := by
  simp [simpleStatements]

/-- The parameters read so far, read natively. -/
def Parameters.native (ps : Parameters) : Parameters :=
  { args := ps.args.map Node.native
    star := ps.star
    vararg := ps.vararg.map Node.native
    kwonlyargs := ps.kwonlyargs.map Node.native
    kwarg := ps.kwarg.map Node.native }

@[simp] theorem parameter_native (allowDefault : Bool) :
    parameter .native allowDefault = Node.native <$> parameter .full allowDefault := by
  simp [parameter]

theorem parameterItem_native (ps : Parameters) :
    parameterItem .native ps.native = Parameters.native <$> parameterItem .full ps := by
  obtain ⟨args, star, vararg, kwonlyargs, kwarg⟩ := ps
  cases star <;> cases kwarg <;> simp [parameterItem, Parameters.native]

theorem parameterItems_native (n : Nat) (ps : Parameters) :
    parameterItems .native n ps.native = Parameters.native <$> parameterItems .full n ps := by
  induction n generalizing ps with
  | zero => simp [parameterItems]
  | succ n ih => simp [parameterItems, parameterItem_native, ← ih]

@[simp] theorem parameters_native : parameters .native = Node.native <$> parameters .full := by
  have hitems : (fun n => parameterItems .native n {}) =
      fun n => Parameters.native <$> parameterItems .full n {} :=
    funext fun n => parameterItems_native n {}
  simp [parameters, hitems, closeFull, Parameters.native]

section Blocks

variable (nested : Parser (List Node))

@[simp] theorem statements_native (stop : Cursor → Bool) :
    statements stop (List.map Node.native <$> nested) =
      fun n => List.map Node.native <$> statements stop nested n := by
  funext n
  induction n with
  | zero => simp [statements]
  | succ n ih => simp [statements, ih]

@[simp] theorem block_native : block .native (List.map Node.native <$> nested) =
    List.map Node.native <$> block .full nested := by
  simp [block]

@[simp] theorem elseBlock_native : elseBlock .native (List.map Node.native <$> nested) =
    List.map Node.native <$> elseBlock .full nested := by
  simp [elseBlock]

@[simp] theorem ifStatement_native : ifStatement .native (List.map Node.native <$> nested) =
    fun n => Node.native <$> ifStatement .full nested n := by
  funext n
  induction n with
  | zero => simp [ifStatement]
  | succ n ih => simp [ifStatement, ih]

@[simp] theorem whileStatement_native : whileStatement .native (List.map Node.native <$> nested) =
    Node.native <$> whileStatement .full nested := by
  simp [whileStatement]

@[simp] theorem forStatement_native : forStatement .native (List.map Node.native <$> nested) =
    Node.native <$> forStatement .full nested := by
  simp [forStatement]

@[simp] theorem functionDef_native : functionDef .native (List.map Node.native <$> nested) =
    Node.native <$> functionDef .full nested := by
  simp [functionDef]

end Blocks

theorem statement_native (n : Nat) :
    statement .native n = List.map Node.native <$> statement .full n := by
  induction n with
  | zero => simp [statement]
  | succ n ih => simp [statement, ih]

theorem module_native : module .native = Node.native <$> module .full := by
  simp [module, statement_native, moduleSpan]

end Grammar

open Grammar

/-- Reading natively is reading with full retention and taking off the spans it alone gives; both
refuse the same texts, for the same fault. -/
theorem parseModule_native (source : String) :
    parseModule source .native = Node.native <$> parseModule source .full := by
  simp [parseModule, module_native]

end TriviaTree
