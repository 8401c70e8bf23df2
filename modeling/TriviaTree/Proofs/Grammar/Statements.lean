import Mathlib
import TriviaTree.Proofs.Grammar.Productions

/-!
The statements of the grammar.

As `Production` does for expressions, `Sentence kind portions` says what a statement of the kind `kind` is
made of. Of the words that statements have by themselves it is only said that there is one: there are no
names among them (`statementWords`). A `StatementAccount` builds on an account of expressions and goes on
portion by portion. Every run of the rules for statements is in every such account (`tells_statement`,
`tells_module`).
-/

set_option autoImplicit false

namespace TriviaTree.Grammar

/-- What statements are made of. -/
inductive Portion where
  /-- One of the words that statements have by themselves. -/
  | word
  | expression (role : Role) (n : Node)
  /-- A function up to the parenthesis that closes its parameters. -/
  | signature (name : String) (args : Node)
  | statement (n : Node)
  | block (body : List Node)

/-- The words that statements have by themselves, but for those of a signature. -/
def statementWords : List Word :=
  ["pass", "break", "continue", "return", "if", "elif", "else", "while", "for", "in"].map (.name, ·) ++
    ["=", ":"].map (.op, ·) ++ BinaryOp.all.map fun op => (.op, op.symbol ++ "=")

/-- The cursor is at what stands between statements. -/
def Cursor.atGap (c : Cursor) : Bool :=
  c.atOp ";" || c.atKind .newline || c.atKind .indent || c.atKind .dedent

/-- What follows the block of a statement. -/
inductive Otherwise : List Node → List Portion → Prop
  | none : Otherwise [] []
  | block (body : List Node) : Otherwise body [.word, .word, .block body]
  | elif (n : Node) : Otherwise [n] [.statement n]

/-- What a statement is made of. -/
inductive Sentence : Kind Node → List Portion → Prop
  | word {kind : Kind Node} (h : kind = .pass ∨ kind = .breakStmt ∨ kind = .continueStmt) :
      Sentence kind [.word]
  | returnStmt (value : Option Node) :
      Sentence (.returnStmt value) (.word :: value.toList.map (.expression .row))
  | augAssign (target : Node) (op : BinaryOp) (value : Node) : Sentence (.augAssign target op value)
      [.expression .row target, .word, .expression .row value]
  | assign (first : Node) (rest : List Node) (value : Node) : Sentence (.assign (first :: rest) value)
      (.expression .row first :: (rest ++ [value]).flatMap fun n => [.word, .expression .row n])
  | exprStmt (value : Node) : Sentence (.exprStmt value) [.expression .row value]
  | ifStmt (test : Node) (body : List Node) {orelse : List Node} {ps : List Portion}
      (h : Otherwise orelse ps) : Sentence (.ifStmt test body orelse)
        (.word :: .expression .expression test :: .word :: .block body :: ps)
  | whileLoop (test : Node) (body : List Node) {orelse : List Node} {ps : List Portion}
      (h : Otherwise orelse ps) : Sentence (.whileLoop test body orelse)
        (.word :: .expression .expression test :: .word :: .block body :: ps)
  | forLoop (target iter : Node) (body : List Node) {orelse : List Node} {ps : List Portion}
      (h : Otherwise orelse ps) : Sentence (.forLoop target iter body orelse)
        (.word :: .expression .row target :: .word :: .expression .row iter :: .word :: .block body :: ps)
  | functionDef (name : String) (args : Node) (body : List Node) :
      Sentence (.functionDef name args body) [.signature name args, .word, .block body]

/-- The portions that are not empty. -/
def Portion.isSolid : Portion → Bool
  | .block _ => false
  | _ => true

theorem Sentence.solid {kind : Kind Node} {ps : List Portion} (sentence : Sentence kind ps) :
    ∃ p ∈ ps, p.isSolid = true := by
  cases sentence <;> exact ⟨_, List.mem_cons_self, rfl⟩

/-- The nodes that a portion adds to a statement. -/
def Portion.nodes : Portion → List Node
  | .word => []
  | .expression _ n | .signature _ n | .statement n => [n]
  | .block body => body

@[simp] theorem Portion.nodes_map_statement (body : List Node) :
    (body.map Portion.statement).flatMap nodes = body := by
  rw [List.flatMap_map]
  exact List.flatMap_singleton' body

/-- The children of a statement are the nodes of its portions, in their order. -/
theorem Sentence.children {kind : Kind Node} {ps : List Portion} (sentence : Sentence kind ps) :
    kind.children = ps.flatMap Portion.nodes := by
  have rest : ∀ {orelse : List Node} {ps : List Portion}, Otherwise orelse ps →
      ps.flatMap Portion.nodes = orelse := by
    intro orelse ps h
    cases h <;> simp [Portion.nodes]
  cases sentence with
  | word h => rcases h with rfl | rfl | rfl <;> rfl
  | returnStmt value => cases value <;> rfl
  | assign first others value =>
      simp [Kind.children, Kind.contents, Portion.nodes, List.flatMap_assoc]
  | ifStmt _ _ h | whileLoop _ _ h | forLoop _ _ _ h =>
      simp [Kind.children, Kind.contents, Portion.nodes, rest h]
  | _ => simp [Kind.children, Kind.contents, Portion.nodes]

/-- An account of what the rules for statements read from one cursor to another. -/
structure StatementAccount (keep : Retention) where
  expressions : Account keep
  Reads : Cursor → List Portion → Cursor → Prop
  nil (c : Cursor) : Reads c [] c
  append {c c₁ c₂ : Cursor} {ps ps' : List Portion} (first : Reads c ps c₁)
    (second : Reads c₁ ps' c₂) : Reads c (ps ++ ps') c₂
  skip {c : Cursor} (h : c.atGap = true) : Reads c [] c.advance
  word {c : Cursor} (h : c.current.word ∈ statementWords) : Reads c [.word] c.advance
  expression {c c' : Cursor} {role : Role} {n : Node} (read : expressions.Reads c [.node role n] c') :
    Reads c [.expression role n] c'
  signature {c c' : Cursor} {args : Node} (word : c.atKeyword "def" = true)
    (hname : c.advance.current.kind = .name ∧ isKeyword c.advance.current.text = false)
    (opened : c.advance.advance.atOp "(" = true)
    (run : parameters keep c.advance.advance.advance = .ok (args, c')) (closed : c'.atOp ")" = true) :
    Reads c [.signature c.advance.current.text args] c'.advance
  statement {c c' : Cursor} {kind : Kind Node} {ps : List Portion} (read : Reads c ps c')
    (sentence : Sentence kind ps) : Reads c [.statement
      ⟨kind, some ⟨c.current.span.start, max c'.lastEnd c.current.span.start⟩⟩] c'
  /-- A block is empty only if it is indented and no statement can begin in it. -/
  block {c c' : Cursor} {body : List Node} (read : Reads c (body.map .statement) c')
    (hempty : body = [] → c.atKind .newline = true ∧ c.advance.atKind .indent = true ∧
      c.advance.advance.current.kind ∈ [.dedent, .endMarker, .newline]) : Reads c [.block body] c'

variable {keep : Retention} (A : StatementAccount keep)

/-- Every run of the parser is in the account. -/
def Tells {α : Type} (p : Parser α) (portions : α → List Portion) : Prop :=
  ∀ ⦃c a c'⦄, p c = .ok (a, c') → A.Reads c (portions a) c'

/-- Every run of the parser is in the account, and reads a statement. -/
def TellsLines (p : Parser (List Node)) : Prop :=
  ∀ ⦃c body c'⦄, p c = .ok (body, c') → body ≠ [] ∧ A.Reads c (body.map .statement) c'

section Steps

variable {c c₁ c₂ : Cursor} {ps : List Portion}

theorem StatementAccount.op {symbol : String} (read : A.Reads c ps c₁) (h : c₁.atOp symbol = true)
    (hword : (.op, symbol) ∈ statementWords) : A.Reads c (ps ++ [.word]) c₁.advance :=
  A.append read (A.word (word_of_atOp h ▸ hword))

theorem StatementAccount.keyword {text : String} (read : A.Reads c ps c₁)
    (h : c₁.atKeyword text = true) (hword : (.name, text) ∈ statementWords) :
    A.Reads c (ps ++ [.word]) c₁.advance :=
  A.append read (A.word (word_of_atKeyword h ▸ hword))

theorem StatementAccount.gap (read : A.Reads c ps c₁) (h : c₁.atGap = true) :
    A.Reads c ps c₁.advance := by
  simpa using A.append read (A.skip h)

theorem StatementAccount.read {α : Type} {p : Parser α} {portions : α → List Portion} {a : α}
    (read : A.Reads c ps c₁) (hp : Tells A p portions) (run : p c₁ = .ok (a, c₂)) :
    A.Reads c (ps ++ portions a) c₂ :=
  A.append read (hp run)

end Steps

variable {A}

/-! ### Simple statements -/

theorem tells_anyTest : Tells A (anyTest keep) fun n => [.expression .expression n] :=
  fun _ _ _ run => A.expression (accounts_anyTest run)

theorem tells_anyList : Tells A (anyList keep) fun n => [.expression .row n] :=
  fun _ _ _ run => A.expression (accounts_anyList run)

theorem tells_targetList : Tells A (targetList keep) fun n => [.expression .row n] :=
  fun _ _ _ run => A.expression (accounts_targetList run)

theorem tells_assignTail (n : Nat) :
    Tells A (assignTail keep n) (·.flatMap fun n => [.word, .expression .row n]) := by
  induction n with
  | zero =>
      intro c a c' run
      simp only [assignTail, pure_ok] at run
      obtain ⟨rfl, rfl⟩ := run
      exact A.nil c
  | succ n ih =>
      intro c a c' run
      simp [assignTail] at run
      rcases run with ⟨_, rfl, rfl⟩ | ⟨equals, value, middle, hvalue, rest, hrest, rfl⟩
      · exact A.nil c
      · have first := A.read (A.op (A.nil c) equals (by decide)) tells_anyList hvalue
        have whole := A.read first ih hrest
        exact whole

theorem wordStatement?_eq_some {c : Cursor} {kind : Kind Node} (h : c.wordStatement? = some kind) :
    c.current.word ∈ statementWords ∧ (kind = .pass ∨ kind = .breakStmt ∨ kind = .continueStmt) := by
  unfold Cursor.wordStatement? at h
  split_ifs at h with hpass hbreak hcontinue <;> cases h
  · exact ⟨word_of_atKeyword hpass ▸ by decide, by simp⟩
  · exact ⟨word_of_atKeyword hbreak ▸ by decide, by simp⟩
  · exact ⟨word_of_atKeyword hcontinue ▸ by decide, by simp⟩

theorem augmentedOp?_eq_some {c : Cursor} {op : BinaryOp} (h : c.augmentedOp? = some op) :
    c.atOp (op.symbol ++ "=") = true ∧ (.op, op.symbol ++ "=") ∈ statementWords := by
  rw [Cursor.augmentedOp?] at h
  have hfound := List.find?_some h
  exact ⟨hfound, List.mem_append_right _ (List.mem_map.2 ⟨op, List.mem_of_find?_eq_some h, rfl⟩)⟩

theorem tells_smallStatement : Tells A (smallStatement keep) fun n => [.statement n] := by
  intro c a c' run
  cases hword : c.wordStatement? with
  | some kind =>
      simp [smallStatement, hword] at run
      obtain ⟨rfl, rfl⟩ := run
      obtain ⟨hmem, hkind⟩ := wordStatement?_eq_some hword
      exact A.statement (A.word hmem) (.word hkind)
  | none =>
      simp [smallStatement, hword] at run
      rcases run with ⟨word, ⟨_, value, hvalue, rfl⟩ | ⟨_, rfl, rfl⟩⟩ | ⟨_, first, middle, hfirst, run⟩
      · have head := A.keyword (A.nil c) word (by decide)
        exact A.statement (A.read head tells_anyList hvalue) (.returnStmt (some value))
      · exact A.statement (A.keyword (A.nil c) word (by decide)) (.returnStmt none)
      · have head := tells_anyList (A := A) hfirst
        cases hop : middle.augmentedOp? with
        | some op =>
            simp [hop] at run
            obtain ⟨value, hvalue, rfl⟩ := run
            obtain ⟨hat, hmem⟩ := augmentedOp?_eq_some hop
            exact A.statement (A.read (A.op head hat hmem) tells_anyList hvalue) (.augAssign first op value)
        | none =>
            simp [hop] at run
            obtain ⟨rest, last, hrest, run⟩ := run
            have whole := A.read head (tells_assignTail _) hrest
            cases hlast : rest.getLast? with
            | some value =>
                simp [hlast] at run
                obtain ⟨rfl, rfl⟩ := run
                obtain ⟨init, rfl⟩ := List.getLast?_eq_some_iff.1 hlast
                rw [List.dropLast_concat]
                exact A.statement whole (.assign first init value)
            | none =>
                simp [hlast] at run
                obtain ⟨rfl, rfl⟩ := run
                obtain rfl := List.getLast?_eq_none_iff.1 hlast
                exact A.statement whole (.exprStmt first)

theorem tells_semicolonTail (n : Nat) : Tells A (semicolonTail keep n) (·.map .statement) := by
  induction n with
  | zero =>
      intro c a c' run
      simp only [semicolonTail, pure_ok] at run
      obtain ⟨rfl, rfl⟩ := run
      exact A.nil c
  | succ n ih =>
      intro c a c' run
      simp [semicolonTail] at run
      rcases run with
        ⟨_, rfl, rfl⟩ | ⟨semicolon, ⟨_, rfl, rfl⟩ | ⟨_, first, middle, hfirst, rest, hrest, rfl⟩⟩
      · exact A.nil c
      · exact A.skip (by simp [Cursor.atGap, semicolon])
      · have head := A.read (A.skip (by simp [Cursor.atGap, semicolon])) tells_smallStatement hfirst
        exact A.read head ih hrest

theorem tells_simpleStatements : TellsLines A (simpleStatements keep) := by
  intro c body c' run
  simp [simpleStatements] at run
  obtain ⟨first, middle, hfirst, rest, last, hrest, run⟩ := run
  have line := A.read (tells_smallStatement hfirst) (tells_semicolonTail _) hrest
  rcases run with ⟨_, ⟨newline, rfl⟩, rfl⟩ | ⟨_, rfl, rfl⟩
  · exact ⟨by simp, A.gap line (by simp [Cursor.atGap, newline])⟩
  · exact ⟨by simp, line⟩

/-! ### Compound statements -/

section Nested

variable {nested : Parser (List Node)} (hnested : TellsLines A nested)

include hnested

theorem tells_statements (stop : Cursor → Bool) (n : Nat) :
    Tells A (statements stop nested n) (·.map .statement) := by
  induction n with
  | zero =>
      intro c a c' run
      simp only [statements, pure_ok] at run
      obtain ⟨rfl, rfl⟩ := run
      exact A.nil c
  | succ n ih =>
      intro c a c' run
      simp [statements] at run
      rcases run with
        ⟨_, rfl, rfl⟩ | ⟨_, ⟨newline, hrest⟩ | ⟨_, first, middle, hfirst, rest, hrest, rfl⟩⟩
      · exact A.nil c
      · exact A.read (A.skip (by simp [Cursor.atGap, newline])) ih hrest
      · have whole := A.read (hnested hfirst).2 ih hrest
        rwa [← List.map_append] at whole

theorem tells_block : Tells A (block keep nested) fun body => [.block body] := by
  intro c body c' run
  simp [block] at run
  rcases run with ⟨newline, indent, body', middle, hbody, run⟩ | ⟨_, run⟩
  · have opened := A.gap (A.skip (c := c) (by simp [Cursor.atGap, newline]))
      (by simp [Cursor.atGap, indent])
    have lines := A.read opened (tells_statements hnested _ _) hbody
    -- Where no statement is read the loop stops at once, or passes over a line end.
    have hempty : body' = [] → c.advance.advance.current.kind ∈ [.dedent, .endMarker, .newline] := by
      rintro rfl
      obtain ⟨n, hfuel⟩ : ∃ n, c.advance.advance.remaining = n + 1 := ⟨_, rfl⟩
      rw [hfuel] at hbody
      simp [statements, Cursor.atKind] at hbody
      rcases hbody with ⟨h | h, _⟩ | ⟨_, ⟨h, _⟩ | ⟨_, last, hfirst, _⟩⟩
      · simp [h]
      · simp [h]
      · simp [h]
      · exact absurd rfl (hnested hfirst).1
    rcases run with ⟨dedent, rfl, rfl⟩ | ⟨_, rfl, rfl⟩
    · exact A.block (A.gap lines (by simp [Cursor.atGap, dedent])) fun h => ⟨newline, indent, hempty h⟩
    · exact A.block lines fun h => ⟨newline, indent, hempty h⟩
  · obtain ⟨hne, line⟩ := tells_simpleStatements (A := A) run
    exact A.block line fun h => absurd h hne

theorem tells_elseBlock {c c' : Cursor} {body : List Node}
    (run : elseBlock keep nested c = .ok (body, c')) :
    ∃ ps, Otherwise body ps ∧ A.Reads c ps c' := by
  simp [elseBlock] at run
  rcases run with ⟨word, colon, run⟩ | ⟨_, rfl, rfl⟩
  · have head := A.op (A.keyword (A.nil c) word (by decide)) colon (by decide)
    have whole := A.read head (tells_block hnested) run
    exact ⟨_, .block body, whole⟩
  · exact ⟨_, .none, A.nil c⟩

theorem tells_ifStatement (n : Nat) {c c' : Cursor} {a : Node}
    (hword : c.atKeyword "if" = true ∨ c.atKeyword "elif" = true)
    (run : ifStatement keep nested n c = .ok (a, c')) : A.Reads c [.statement a] c' := by
  induction n generalizing c a with
  | zero => simp [ifStatement] at run
  | succ n ih =>
      simp [ifStatement] at run
      obtain ⟨condition, middle, hcondition, colon, body, last, hbody, run⟩ := run
      have word : A.Reads c [.word] c.advance := hword.elim
        (A.keyword (A.nil c) · (by decide)) (A.keyword (A.nil c) · (by decide))
      have header := A.op (A.read word tells_anyTest hcondition) colon (by decide)
      have head := A.read header (tells_block hnested) hbody
      rcases run with ⟨elif, inner, hinner, rfl⟩ | ⟨_, orelse, horelse, rfl⟩
      · exact A.statement (A.append head (ih (.inr elif) hinner)) (.ifStmt condition body (.elif inner))
      · obtain ⟨ps, otherwise, hread⟩ := tells_elseBlock hnested horelse
        exact A.statement (A.append head hread) (.ifStmt condition body otherwise)

theorem tells_whileStatement : Tells A (whileStatement keep nested) fun n => [.statement n] := by
  intro c a c' run
  simp [whileStatement] at run
  obtain ⟨word, condition, middle, hcondition, colon, body, last, hbody, orelse, horelse, rfl⟩ := run
  have header := A.read (A.keyword (A.nil c) word (by decide)) tells_anyTest hcondition
  have head := A.read (A.op header colon (by decide)) (tells_block hnested) hbody
  obtain ⟨ps, otherwise, hread⟩ := tells_elseBlock hnested horelse
  exact A.statement (A.append head hread) (.whileLoop condition body otherwise)

theorem tells_forStatement : Tells A (forStatement keep nested) fun n => [.statement n] := by
  intro c a c' run
  simp [forStatement] at run
  obtain ⟨word, target, c₁, htarget, within, iter, c₂, hiter, colon, body, c₃, hbody, orelse,
    horelse, rfl⟩ := run
  have targets := A.read (A.keyword (A.nil c) word (by decide)) tells_targetList htarget
  have header := A.read (A.keyword targets within (by decide)) tells_anyList hiter
  have head := A.read (A.op header colon (by decide)) (tells_block hnested) hbody
  obtain ⟨ps, otherwise, hread⟩ := tells_elseBlock hnested horelse
  exact A.statement (A.append head hread) (.forLoop target iter body otherwise)

theorem tells_functionDef : Tells A (functionDef keep nested) fun n => [.statement n] := by
  intro c a c' run
  simp [functionDef] at run
  obtain ⟨word, hname, opened, args, middle, hargs, closed, colon, body, hbody, rfl⟩ := run
  have header := A.op (A.signature word hname opened hargs closed) colon (by decide)
  exact A.statement (A.read header (tells_block hnested) hbody) (.functionDef _ args body)

end Nested

theorem tells_statement (n : Nat) : TellsLines A (statement keep n) := by
  induction n with
  | zero =>
      intro c body c' run
      simp [statement] at run
  | succ n ih =>
      intro c body c' run
      simp [statement] at run
      rcases run with ⟨word, a, run, rfl⟩ | ⟨_, ⟨_, a, run, rfl⟩ | ⟨_, ⟨_, a, run, rfl⟩ |
        ⟨_, ⟨_, a, run, rfl⟩ | ⟨_, run⟩⟩⟩⟩
      · exact ⟨by simp, tells_ifStatement ih _ (.inl word) run⟩
      · exact ⟨by simp, tells_whileStatement ih run⟩
      · exact ⟨by simp, tells_forStatement ih run⟩
      · exact ⟨by simp, tells_functionDef ih run⟩
      · exact tells_simpleStatements run

/-- A module is made of statements. -/
theorem tells_module {c c' : Cursor} {tree : Node} (run : module keep c = .ok (tree, c')) :
    ∃ body, tree = ⟨.module body, moduleSpan keep body⟩ ∧ A.Reads c (body.map .statement) c' := by
  simp [module] at run
  obtain ⟨body, hbody, rfl⟩ := run
  exact ⟨body, rfl, tells_statements (tells_statement _) _ _ hbody⟩

end TriviaTree.Grammar
