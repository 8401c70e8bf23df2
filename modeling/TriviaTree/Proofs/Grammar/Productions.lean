import Mathlib
import TriviaTree.Proofs.Grammar.Reads
import TriviaTree.Proofs.Printing.Pieces

/-!
The productions of the grammar of expressions.

`Production role kind reads` says that a node of the kind `kind` is made of what is read, words and
nodes in their roles. An `Account` is a relation between cursors and what is read between them that goes
on word by word, node by node and production by production. Every rule of the grammar has one lemma,
which says that its runs are in every account (`accounts_expression`). So a fact about all expressions
that are read from a text is proved production by production, without a look at the rules.
-/

set_option autoImplicit false

namespace TriviaTree

def UnaryOp.words (operator : UnaryOp) : List Word :=
  Piece.words operator.pieces

def CompareOp.words (operator : CompareOp) : List Word :=
  Piece.words operator.pieces

namespace Grammar

variable {operand : Parser Node} {kind : Kind Node} {n : Nat}

/-- The role that an expression plays where it is read. -/
inductive Role where
  | expression
  /-- An entry of a list, or an argument passed by position: it may be starred. -/
  | item
  /-- One of several indices of a subscript: it may be a slice. -/
  | index
  /-- All that stands between the brackets of a subscript. -/
  | subscript
  /-- An argument passed by name. -/
  | keyword
  /-- Items with commas between them, without brackets. -/
  | row
deriving DecidableEq

/-- The roles in which what is read in another role may be taken. A starred value between parentheses
is an expression. -/
def Role.permits : Role → Role → Bool
  | .expression, .item | .item, .expression | .expression, .index | .index, .subscript
  | .item, .row => true
  | _, _ => false

/-- What is read: a word, or a node in its role. -/
inductive Read where
  | word (w : Word)
  | node (role : Role) (n : Node)

namespace Read

abbrev op (symbol : String) : Read := .word (.op, symbol)

abbrev term (text : String) : Read := .word (.name, text)

/-- The nodes among what is read. -/
def nodes : List Read → List Node
  | [] => []
  | .word _ :: rs => nodes rs
  | .node _ n :: rs => n :: nodes rs

/-- The words that are read by themselves. -/
def words : List Read → List Word
  | [] => []
  | .word w :: rs => w :: words rs
  | .node _ _ :: rs => words rs

attribute [simp] nodes words

@[simp] theorem nodes_append (rs rs' : List Read) : nodes (rs ++ rs') = nodes rs ++ nodes rs' := by
  induction rs with
  | nil => rfl
  | cons r rs ih => cases r <;> simp [ih]

@[simp] theorem words_append (rs rs' : List Read) : words (rs ++ rs') = words rs ++ words rs' := by
  induction rs with
  | nil => rfl
  | cons r rs ih => cases r <;> simp [ih]

@[simp] theorem nodes_map_word (ws : List Word) : nodes (ws.map word) = [] := by
  induction ws with
  | nil => rfl
  | cons w ws ih => simpa using ih

@[simp] theorem words_map_word (ws : List Word) : words (ws.map word) = ws := by
  induction ws with
  | nil => rfl
  | cons w ws ih => simpa using ih

@[simp] theorem nodes_map_node (role : Role) (ns : List Node) : nodes (ns.map (node role)) = ns := by
  induction ns with
  | nil => rfl
  | cons n ns ih => simpa using ih

@[simp] theorem words_map_node (role : Role) (ns : List Node) : words (ns.map (node role)) = [] := by
  induction ns with
  | nil => rfl
  | cons n ns ih => simpa using ih

theorem nodes_flatMap {α : Type} (reads : α → List Read) (xs : List α) :
    nodes (xs.flatMap reads) = xs.flatMap fun x => nodes (reads x) := by
  induction xs with
  | nil => rfl
  | cons x xs ih => simp [ih]

theorem words_flatMap {α : Type} (reads : α → List Read) (xs : List α) :
    words (xs.flatMap reads) = xs.flatMap fun x => words (reads x) := by
  induction xs with
  | nil => rfl
  | cons x xs ih => simp [ih]

end Read

open Read

/-- Entries with commas between them, and perhaps one after the last. -/
inductive Listed {α : Type} (reads : α → List Read) : List α → List Read → Prop
  | nil : Listed reads [] []
  | last (x : α) : Listed reads [x] (reads x)
  | cons (x : α) {xs : List α} {rs : List Read} (h : Listed reads xs rs) :
      Listed reads (x :: xs) (reads x ++ op "," :: rs)

theorem Listed.mem {α : Type} {reads : α → List Read} {xs : List α} {rs : List Read}
    (h : Listed reads xs rs) {x : α} (hx : x ∈ xs) {r : Read} (hr : r ∈ reads x) : r ∈ rs := by
  induction h with
  | nil => cases hx
  | last y => exact List.mem_singleton.1 hx ▸ hr
  | cons y _ ih =>
      rcases List.mem_cons.1 hx with rfl | hx
      · exact List.mem_append_left _ hr
      · exact List.mem_append_right _ (List.mem_cons_of_mem _ (ih hx))

theorem Listed.nodes {α : Type} {reads : α → List Read} {xs : List α} {rs : List Read}
    (h : Listed reads xs rs) : Read.nodes rs = xs.flatMap fun x => Read.nodes (reads x) := by
  induction h with
  | nil => rfl
  | last x => simp
  | cons x _ ih => simp [ih]

/-- The parts of a dictionary entry. -/
def pairReads (pair : Node × Node) : List Read :=
  [node .expression pair.1, op ":", node .expression pair.2]

/-- An argument of a call, passed by name or by position. -/
def argumentReads (argument : Bool × Node) : List Read :=
  [node (if argument.1 then .keyword else .item) argument.2]

/-- An operator and what is compared by it. -/
def compareReads (step : CompareOp × Node) : List Read :=
  step.1.words.map word ++ [node .expression step.2]

/-- The arguments that are passed by name, or by position. -/
def passed (byName : Bool) (arguments : List (Bool × Node)) : List Node :=
  (arguments.filter (·.1 == byName)).map (·.2)

/-- What a node is made of. -/
inductive Production : Role → Kind Node → List Read → Prop
  | name {id : String} (hfree : isKeyword id = false) : Production .expression (.name id) [term id]
  | keywordConstant {text : String} {value : Constant} (h : keywordConstant? text = some value) :
      Production .expression (.constant value) [term text]
  | int (text : String) : Production .expression (.constant (.int text)) [word (.int, text)]
  | float (text : String) : Production .expression (.constant (.float text)) [word (.float, text)]
  | string (text : String) (texts : List String) (value : String) :
      Production .expression (.constant (.str value))
        (word (.str, text) :: texts.map fun text => word (.str, text))
  | tuple {elts : List Node} {rs : List Read} (h : Listed (fun n => [node .item n]) elts rs) :
      Production .expression (.tuple elts) (op "(" :: (rs ++ [op ")"]))
  | list {elts : List Node} {rs : List Read} (h : Listed (fun n => [node .item n]) elts rs) :
      Production .expression (.list elts) (op "[" :: (rs ++ [op "]"]))
  | set {elts : List Node} {rs : List Read} (hne : elts ≠ [])
      (h : Listed (fun n => [node .item n]) elts rs) :
      Production .expression (.set elts) (op "\x7b" :: (rs ++ [op "\x7d"]))
  | dict {pairs : List (Node × Node)} {rs : List Read} (h : Listed pairReads pairs rs) :
      Production .expression (.dict (pairs.map (·.1)) (pairs.map (·.2)))
        (op "\x7b" :: (rs ++ [op "\x7d"]))
  | call {func : Node} {arguments : List (Bool × Node)} {rs : List Read}
      (h : Listed argumentReads arguments rs) :
      Production .expression (.call func (passed false arguments) (passed true arguments))
        (node .expression func :: op "(" :: (rs ++ [op ")"]))
  | subscript (value index : Node) : Production .expression (.subscript value index)
      [node .expression value, op "[", node .subscript index, op "]"]
  | member (value : Node) {attr : String} (hfree : isKeyword attr = false) :
      Production .expression (.attribute value attr) [node .expression value, op ".", term attr]
  | binOp (left right : Node) (operator : BinaryOp) :
      Production .expression (.binOp left operator right)
        [node .expression left, op operator.symbol, node .expression right]
  | unaryOp (operator : UnaryOp) (operand : Node) :
      Production .expression (.unaryOp operator operand)
        (operator.words.map word ++ [node .expression operand])
  | compare (left : Node) {rest : List (CompareOp × Node)} (hne : rest ≠ []) :
      Production .expression (.compare left (rest.map (·.1)) (rest.map (·.2)))
        (node .expression left :: rest.flatMap compareReads)
  | boolOp (operator : BoolOp) (first : Node) {rest : List Node} (hne : rest ≠ []) :
      Production .expression (.boolOp operator (first :: rest))
        (node .expression first :: rest.flatMap fun n => [term operator.symbol, node .expression n])
  | ifExp (test body orelse : Node) : Production .expression (.ifExp test body orelse)
      [node .expression body, term "if", node .expression test, term "else", node .expression orelse]
  | starred (value : Node) : Production .item (.starred value) [op "*", node .expression value]
  | slice (lower upper : Option Node) : Production .index (.slice lower upper none)
      (lower.toList.map (node .expression) ++ op ":" :: upper.toList.map (node .expression))
  | strided (lower upper step : Option Node) : Production .index (.slice lower upper step)
      (lower.toList.map (node .expression) ++ op ":" :: upper.toList.map (node .expression) ++
        op ":" :: step.toList.map (node .expression))
  | indices {elts : List Node} {rs : List Read} (hne : elts ≠ [])
      (h : Listed (fun n => [node .index n]) elts rs) : Production .subscript (.tuple elts) rs
  | keyword {id : String} (hfree : isKeyword id = false) (value : Node) :
      Production .keyword (.keyword (some id) value) [term id, op "=", node .expression value]
  | keywords (value : Node) :
      Production .keyword (.keyword none value) [op "**", node .expression value]
  | row {elts : List Node} {rs : List Read} (hne : elts ≠ [])
      (h : Listed (fun n => [node .item n]) elts rs) : Production .row (.tuple elts) rs

/-- Keys and values apart, or pair by pair. -/
theorem perm_flatMap_pair (pairs : List (Node × Node)) :
    (pairs.map (·.1) ++ pairs.map (·.2)).Perm (pairs.flatMap fun pair => [pair.1, pair.2]) := by
  induction pairs with
  | nil => exact .refl _
  | cons pair pairs ih =>
      refine List.Perm.cons _ ?_
      exact List.perm_middle.trans (List.Perm.cons _ ih)

/-- The children of a node are the nodes that it is made of. -/
theorem Production.children_perm {role : Role} {rs : List Read}
    (production : Production role kind rs) : kind.children.Perm (nodes rs) := by
  cases production with
  | string text texts value =>
      have hnodes := nodes_map_word ((text :: texts).map fun text => (TokenKind.str, text))
      rw [List.map_map] at hnodes
      exact .of_eq hnodes.symm
  | tuple h | list h | set _ h | indices _ h | row _ h =>
      simp [Kind.children, Kind.contents, h.nodes]
  | @dict pairs _ h => simpa [Kind.children, Kind.contents, h.nodes, pairReads] using perm_flatMap_pair pairs
  | @call func arguments _ h =>
      have hparts : (passed false arguments ++ passed true arguments).Perm (arguments.map (·.2)) := by
        rw [passed, passed, ← List.map_append]
        refine List.Perm.map _ ?_
        have := List.filter_append_perm (·.1 == false) arguments
        simpa using this
      simpa [Kind.children, Kind.contents, h.nodes, argumentReads, ← List.map_eq_flatMap] using hparts
  | compare => simp [Kind.children, Kind.contents, nodes_flatMap, compareReads, ← List.map_eq_flatMap]
  | boolOp => simp [Kind.children, Kind.contents, nodes_flatMap]
  | ifExp => exact .swap _ _ _
  | _ => simp [Kind.children, Kind.contents]

theorem Production.ne_nil {role : Role} {rs : List Read} (production : Production role kind rs) :
    rs ≠ [] := by
  cases production with
  | indices hne h | row hne h =>
      rintro rfl
      have hnodes := h.nodes
      simp at hnodes
      exact hne hnodes
  | unaryOp | slice | strided => simp
  | _ => exact List.cons_ne_nil _ _

/-! ### Accounts -/

/-- An account of what parsers read from one cursor to another. -/
structure Account (keep : Retention) where
  Reads : Cursor → List Read → Cursor → Prop
  nil (c : Cursor) : Reads c [] c
  append {c c₁ c₂ : Cursor} {rs rs' : List Read} (first : Reads c rs c₁)
    (second : Reads c₁ rs' c₂) : Reads c (rs ++ rs') c₂
  word {c : Cursor} (hkind : c.current.kind.isLayout = false) :
    Reads c [.word c.current.word] c.advance
  /-- A node whose place is not kept has none. -/
  node {c c' : Cursor} {role : Role} {kind : Kind Node} {span : Option Span} {rs : List Read}
    (read : Reads c rs c') (production : Production role kind rs)
    (hspan : span = some ⟨c.current.span.start, max c'.lastEnd c.current.span.start⟩ ∨
      keep = .native ∧ span = none) : Reads c [.node role ⟨kind, span⟩] c'
  bracketed {c c' : Cursor} {n : Node} (read : Reads c [op "(", .node .item n, op ")"] c') :
    Reads c [.node .expression n] c'
  recast {c c' : Cursor} {role role' : Role} {n : Node} (h : role.permits role' = true)
    (read : Reads c [.node role n] c') : Reads c [.node role' n] c'

variable {keep : Retention} (A : Account keep)

/-- Every run of the parser is in the account. -/
def Accounts {α : Type} (p : Parser α) (reads : α → List Read) : Prop :=
  ∀ ⦃c a c'⦄, p c = .ok (a, c') → A.Reads c (reads a) c'

theorem Cursor.current_advance (c : Cursor) : c.advance.current = c.next := by
  unfold advance next
  cases c.ahead <;> rfl

theorem word_of_atOp {c : Cursor} {op : String} (h : c.atOp op = true) : c.current.word = (.op, op) := by
  rwa [Cursor.atOp, Cursor.isOp_eq, decide_eq_true_eq] at h

theorem word_of_atKeyword {c : Cursor} {keyword : String} (h : c.atKeyword keyword = true) :
    c.current.word = (.name, keyword) := by
  rwa [Cursor.atKeyword, Cursor.isKeyword_eq, decide_eq_true_eq] at h

section Steps

variable {c c₁ c₂ : Cursor} {rs : List Read}

theorem Account.op {symbol : String} (read : A.Reads c rs c₁) (h : c₁.atOp symbol = true) :
    A.Reads c (rs ++ [.op symbol]) c₁.advance := by
  have hword := word_of_atOp h
  have hnext : A.Reads c₁ [.word c₁.current.word] c₁.advance := by
    refine A.word ?_
    rw [show c₁.current.kind = .op from congrArg Prod.fst hword]
    rfl
  rw [hword] at hnext
  exact A.append read hnext

theorem Account.name (read : A.Reads c rs c₁) (h : c₁.current.kind = .name) :
    A.Reads c (rs ++ [.term c₁.current.text]) c₁.advance := by
  have hnext : A.Reads c₁ [.word c₁.current.word] c₁.advance := A.word (by rw [h]; rfl)
  rw [show c₁.current.word = (.name, c₁.current.text) from congrArg (·, c₁.current.text) h] at hnext
  exact A.append read hnext

theorem Account.keyword {text : String} (read : A.Reads c rs c₁) (h : c₁.atKeyword text = true) :
    A.Reads c (rs ++ [.term text]) c₁.advance := by
  have hword := word_of_atKeyword h
  have htext : c₁.current.text = text := congrArg Prod.snd hword
  exact htext ▸ A.name read (congrArg Prod.fst hword)

theorem Account.literal {kind : TokenKind} (h : c.current.kind = kind)
    (hkind : kind.isLayout = false) : A.Reads c [.word (kind, c.current.text)] c.advance := by
  subst h
  exact A.word hkind

theorem Account.close {role : Role} (read : A.Reads c rs c₁)
    (production : Production role kind rs) : A.Reads c [.node role ⟨kind,
      some ⟨c.current.span.start, max c₁.lastEnd c.current.span.start⟩⟩] c₁ :=
  A.node read production (.inl rfl)

theorem Account.read {α : Type} {p : Parser α} {reads : α → List Read} {a : α}
    (read : A.Reads c rs c₁) (hp : Accounts A p reads) (run : p c₁ = .ok (a, c₂)) :
    A.Reads c (rs ++ reads a) c₂ :=
  A.append read (hp run)

end Steps

/-! ### Lists of items -/

section Lists

variable {A} {α : Type} {item : Parser α} {reads : α → List Read} {c c' : Cursor} {xs : List α}

theorem listed_itemsUntil (hitem : Accounts A item reads) {closer : String}
    (run : itemsUntil closer item n c = .ok (xs, c')) :
    ∃ rs, Listed reads xs rs ∧ A.Reads c rs c' := by
  induction n generalizing c xs with
  | zero =>
      simp only [itemsUntil, pure_ok] at run
      obtain ⟨rfl, rfl⟩ := run
      exact ⟨[], .nil, A.nil c⟩
  | succ n ih =>
      simp [itemsUntil] at run
      rcases run with
        ⟨_, rfl, rfl⟩ | ⟨_, x, middle, hx, ⟨_, rfl, rfl⟩ | ⟨comma, rest, hrest, rfl⟩⟩
      · exact ⟨[], .nil, A.nil c⟩
      · exact ⟨_, .last x, hitem hx⟩
      · obtain ⟨rs, hlisted, hread⟩ := ih hrest
        have whole := A.append (A.op (hitem hx) comma) hread
        rw [List.append_assoc] at whole
        exact ⟨_, .cons x hlisted, whole⟩

/-- What follows a first entry. -/
theorem listed_commaTail (hitem : Accounts A item reads) {stop : Cursor → Bool}
    (run : commaTail stop item n c = .ok (xs, c')) :
    ∃ rs, (∀ x, Listed reads (x :: xs) (reads x ++ rs)) ∧ A.Reads c rs c' := by
  induction n generalizing c xs with
  | zero =>
      simp only [commaTail, pure_ok] at run
      obtain ⟨rfl, rfl⟩ := run
      exact ⟨[], fun x => by simpa using .last x, A.nil c⟩
  | succ n ih =>
      simp [commaTail] at run
      rcases run with ⟨_, rfl, rfl⟩ | ⟨comma, ⟨_, rfl, rfl⟩ | ⟨_, y, middle, hy, rest, hrest, rfl⟩⟩
      · exact ⟨[], fun x => by simpa using .last x, A.nil c⟩
      · exact ⟨_, fun x => .cons x .nil, A.op (A.nil c) comma⟩
      · obtain ⟨rs, hlisted, hread⟩ := ih hrest
        have whole := A.append (A.read (A.op (A.nil c) comma) hitem hy) hread
        exact ⟨_, fun x => .cons x (hlisted y), whole⟩

end Lists

/-! ### Atoms -/

section Expressions

variable {A} {self : Self} (hself : ∀ entry, Accounts A (self entry) fun n => [node .expression n])

include hself

theorem accounts_starred : Accounts A (starred self) fun n => [node .item n] := by
  intro c a c' run
  simp [starred] at run
  obtain ⟨star, value, hvalue, rfl⟩ := run
  exact A.close (A.read (A.op (A.nil c) star) (hself _) hvalue) (.starred value)

theorem accounts_starredOrTest : Accounts A (starredOrTest self) fun n => [node .item n] := by
  intro c a c' run
  simp [starredOrTest] at run
  rcases run with ⟨_, run⟩ | ⟨_, run⟩
  · exact accounts_starred hself run
  · exact A.recast rfl (hself _ run)

theorem listed_displayItems {closer : String} {c c' : Cursor} {elts : List Node}
    (run : displayItems self closer c = .ok (elts, c')) :
    ∃ rs, Listed (fun n => [node .item n]) elts rs ∧ A.Reads c (rs ++ [op closer]) c' := by
  simp [displayItems] at run
  obtain ⟨middle, hitems, closed, rfl⟩ := run
  obtain ⟨rs, hlisted, hread⟩ := listed_itemsUntil (accounts_starredOrTest hself) hitems
  exact ⟨rs, hlisted, A.op hread closed⟩

theorem accounts_parenthesized : Accounts A (parenthesized self) fun n => [node .expression n] := by
  intro c a c' run
  simp [parenthesized] at run
  obtain ⟨opened, ⟨closed, rfl, rfl⟩ | ⟨_, first, middle, hfirst, run⟩⟩ := run
  · exact A.close (A.op (A.op (A.nil c) opened) closed) (.tuple .nil)
  · have head := A.read (A.op (A.nil c) opened) (accounts_starredOrTest hself) hfirst
    rcases run with ⟨closed, rfl, rfl⟩ | ⟨_, comma, rest, hrest, rfl⟩
    · exact A.bracketed (A.op head closed)
    · obtain ⟨rs, hlisted, hread⟩ := listed_displayItems hself hrest
      exact A.close (A.append (A.op head comma) hread) (.tuple (.cons first hlisted))

theorem accounts_dictPair : Accounts A (dictPair self) pairReads := by
  intro c a c' run
  simp [dictPair] at run
  obtain ⟨key, middle, hkey, colon, value, hvalue, rfl⟩ := run
  have whole := A.read (A.op (hself _ hkey) colon) (hself _) hvalue
  exact whole

theorem accounts_braced : Accounts A (braced self) fun n => [node .expression n] := by
  intro c a c' run
  simp [braced] at run
  obtain ⟨opened, ⟨closed, rfl, rfl⟩ | ⟨_, first, middle, hfirst, run⟩⟩ := run
  · exact A.close (A.op (A.op (A.nil c) opened) closed) (.dict (Listed.nil : Listed pairReads [] []))
  · have head := accounts_starredOrTest hself hfirst
    have opening := A.op (A.nil c) opened
    rcases run with ⟨colon, value, after, hvalue, pairs, last, hpairs, ⟨closed, rfl⟩, rfl⟩ |
      ⟨_, ⟨comma, rest, hrest, rfl⟩ | ⟨_, ⟨closed, rfl⟩, rfl⟩⟩
    · obtain ⟨rs, hlisted, hread⟩ := listed_commaTail (accounts_dictPair hself) hpairs
      have key : A.Reads _ [node .expression first] _ := A.recast rfl head
      have pair := A.read (A.op (A.append opening key) colon) (hself _) hvalue
      exact A.close (A.op (A.append pair hread) closed) (.dict (hlisted (first, value)))
    · obtain ⟨rs, hlisted, hread⟩ := listed_displayItems hself hrest
      exact A.close (A.append (A.op (A.append opening head) comma) hread)
        (.set (by simp) (.cons first hlisted))
    · exact A.close (A.op (A.append opening head) closed) (.set (by simp) (.last first))

omit hself in
theorem accounted_stringTail {c c' : Cursor} {values : List String}
    (run : stringTail n c = .ok (values, c')) :
    ∃ texts : List String, A.Reads c (texts.map fun text => word (.str, text)) c' := by
  induction n generalizing c values with
  | zero =>
      simp only [stringTail, pure_ok] at run
      obtain ⟨rfl, rfl⟩ := run
      exact ⟨[], A.nil c⟩
  | succ n ih =>
      simp [stringTail, Cursor.atKind] at run
      rcases run with ⟨hkind, rest, hrest, rfl⟩ | ⟨_, rfl, rfl⟩
      · obtain ⟨texts, hread⟩ := ih hrest
        exact ⟨c.current.text :: texts, A.append (A.literal hkind rfl) hread⟩
      · exact ⟨[], A.nil c⟩

theorem accounts_atom : Accounts A (atom self) fun n => [node .expression n] := by
  intro c a c' run
  cases hkind : c.current.kind with
  | name =>
      have name := A.name (A.nil c) hkind
      cases hvalue : keywordConstant? c.current.text with
      | some value =>
          simp [atom, hkind, hvalue] at run
          obtain ⟨rfl, rfl⟩ := run
          exact A.close name (.keywordConstant hvalue)
      | none =>
          simp [atom, hkind, hvalue] at run
          obtain ⟨hfree, rfl, rfl⟩ := run
          exact A.close name (.name (by simpa using hfree))
  | int =>
      simp [atom, hkind] at run
      obtain ⟨rfl, rfl⟩ := run
      exact A.close (A.literal hkind rfl) (.int _)
  | float =>
      simp [atom, hkind] at run
      obtain ⟨rfl, rfl⟩ := run
      exact A.close (A.literal hkind rfl) (.float _)
  | str =>
      simp [atom, hkind, Cursor.remaining, stringTail, Cursor.atKind] at run
      obtain ⟨rest, hrest, rfl⟩ := run
      obtain ⟨texts, hread⟩ := accounted_stringTail hrest
      exact A.close (A.append (A.literal hkind rfl) hread) (.string _ texts _)
  | op =>
      simp [atom, hkind] at run
      rcases run with ⟨_, run⟩ | ⟨_, ⟨hopener, elts, helts, rfl⟩ | ⟨_, _, run⟩⟩
      · exact accounts_parenthesized hself run
      · have opened : c.atOp "[" = true := by simp [Cursor.atOp, Lexeme.isOp, hkind, hopener]
        obtain ⟨rs, hlisted, hread⟩ := listed_displayItems hself helts
        exact A.close (A.append (A.op (A.nil c) opened) hread) (.list hlisted)
      · exact accounts_braced hself run
  | newline | indent | dedent | comment | endMarker => simp [atom, hkind] at run

/-! ### Calls, subscripts and attributes -/

omit hself in
theorem span_of_closeFull {start : Location} {n : Node} {c c' : Cursor}
    (h : closeFull keep kind start c = .ok (n, c')) : c' = c ∧ ∃ span, n = ⟨kind, span⟩ ∧
      (span = some ⟨start, max c.lastEnd start⟩ ∨ keep = .native ∧ span = none) := by
  cases keep with
  | native =>
      simp [closeFull] at h
      exact ⟨h.2.symm, none, h.1.symm, .inr ⟨rfl, rfl⟩⟩
  | full =>
      simp [closeFull] at h
      exact ⟨h.2, _, h.1.symm, .inl rfl⟩

theorem listed_callItems {c c' : Cursor} {args keywords args' keywords' : List Node}
    (run : callItems keep self n args keywords c = .ok ((args', keywords'), c')) :
    ∃ arguments rs, Listed argumentReads arguments rs ∧ A.Reads c rs c' ∧
      args' = args ++ passed false arguments ∧ keywords' = keywords ++ passed true arguments := by
  induction n generalizing c args keywords with
  | zero =>
      simp only [callItems, pure_ok, Prod.mk.injEq] at run
      obtain ⟨⟨rfl, rfl⟩, rfl⟩ := run
      exact ⟨[], [], .nil, A.nil c, by simp [passed], by simp [passed]⟩
  | succ n ih =>
      have further : ∀ {middle : Cursor} (argument : Bool × Node) {args₁ keywords₁ : List Node},
          A.Reads c (argumentReads argument) middle →
          args₁ = args ++ passed false [argument] → keywords₁ = keywords ++ passed true [argument] →
          (middle.atOp "," = false ∧ (args₁ = args' ∧ keywords₁ = keywords') ∧ middle = c' ∨
            middle.atOp "," = true ∧
              callItems keep self n args₁ keywords₁ middle.advance = .ok ((args', keywords'), c')) →
          ∃ arguments rs, Listed argumentReads arguments rs ∧ A.Reads c rs c' ∧
            args' = args ++ passed false arguments ∧
            keywords' = keywords ++ passed true arguments := by
        rintro middle argument args₁ keywords₁ hread rfl rfl (⟨_, ⟨rfl, rfl⟩, rfl⟩ | ⟨comma, rest⟩)
        · exact ⟨[argument], _, .last argument, hread, rfl, rfl⟩
        · obtain ⟨arguments, rs, hlisted, hrest, rfl, rfl⟩ := ih rest
          refine ⟨argument :: arguments, _, .cons argument hlisted, ?_, ?_, ?_⟩
          · have whole := A.append (A.op hread comma) hrest
            rwa [List.append_assoc] at whole
          · simp [passed, ← List.filter_append, ← List.map_append]
          · simp [passed, ← List.filter_append, ← List.map_append]
      simp [callItems] at run
      rcases run with ⟨_, ⟨rfl, rfl⟩, rfl⟩ | ⟨_, ⟨_, a, middle, ha, rest⟩ | ⟨_, ⟨stars, value, middle, hvalue, a, after, ha, rest⟩ |
        ⟨_, ⟨⟨_, hequals⟩, ⟨hname, hfree⟩, value, middle, hvalue, a, after, ha, rest⟩ | ⟨_, rfl, a, middle, ha, rest⟩⟩⟩⟩
      · exact ⟨[], [], .nil, A.nil c, by simp [passed], by simp [passed]⟩
      · exact further (false, a) (accounts_starred hself ha) rfl (by simp [passed]) rest
      · obtain ⟨rfl, span, rfl, hspan⟩ := span_of_closeFull ha
        have whole := A.read (A.op (A.nil c) stars) (hself _) hvalue
        exact further (true, _) (A.node whole (.keywords value) hspan) (by simp [passed]) rfl
          rest
      · obtain ⟨rfl, span, rfl, hspan⟩ := span_of_closeFull ha
        have equals : c.advance.atOp "=" = true := by rwa [Cursor.atOp, Cursor.current_advance]
        have whole := A.read (A.op (A.name (A.nil c) hname) equals) (hself _) hvalue
        exact further (true, _) (A.node whole (.keyword hfree value) hspan)
          (by simp [passed]) rfl rest
      · exact further (false, a) (A.recast rfl (hself _ ha)) rfl (by simp [passed]) rest

theorem listed_callArguments {c c' : Cursor} {args keywords : List Node}
    (run : callArguments keep self c = .ok ((args, keywords), c')) :
    ∃ arguments rs, Listed argumentReads arguments rs ∧ A.Reads c (op "(" :: (rs ++ [op ")"])) c' ∧
      args = passed false arguments ∧ keywords = passed true arguments := by
  simp [callArguments] at run
  obtain ⟨opened, middle, hitems, closed, rfl⟩ := run
  obtain ⟨arguments, rs, hlisted, hread, rfl, rfl⟩ := listed_callItems hself hitems
  exact ⟨arguments, rs, hlisted, A.op (A.append (A.op (A.nil c) opened) hread) closed, rfl, rfl⟩

theorem accounted_slicePart {c c' : Cursor} {part : Option Node}
    (run : slicePart self c = .ok (part, c')) : A.Reads c (part.toList.map (node .expression)) c' := by
  simp [slicePart] at run
  rcases run with ⟨_, rfl, rfl⟩ | ⟨_, value, hvalue, rfl⟩
  · exact A.nil c
  · exact hself _ hvalue

theorem accounted_sliceTail {c₀ c c' : Cursor} (lower : Option Node) {n : Node}
    (before : A.Reads c₀ (lower.toList.map (node .expression)) c)
    (run : sliceTail self lower c₀.current.span.start c = .ok (n, c')) :
    A.Reads c₀ [node .index n] c' := by
  simp [sliceTail] at run
  obtain ⟨colon, upper, middle, hupper, run⟩ := run
  have head := A.append (A.op before colon) (accounted_slicePart hself hupper)
  rcases run with ⟨colon', step, hstep, rfl⟩ | ⟨_, rfl, rfl⟩
  · have whole := A.append (A.op head colon') (accounted_slicePart hself hstep)
    refine A.close ?_ (.strided lower upper step)
    simpa using whole
  · refine A.close ?_ (.slice lower upper)
    simpa using head

theorem accounts_sliceItem : Accounts A (sliceItem self) fun n => [node .index n] := by
  intro c a c' run
  simp [sliceItem] at run
  rcases run with ⟨_, run⟩ | ⟨_, lower, middle, hlower, ⟨_, run⟩ | ⟨_, rfl, rfl⟩⟩
  · exact accounted_sliceTail hself none (A.nil c) run
  · exact accounted_sliceTail hself (some lower) (hself _ hlower) run
  · exact A.recast rfl (hself _ hlower)

theorem accounts_subscriptItems : Accounts A (subscriptItems self) fun n => [node .subscript n] := by
  intro c a c' run
  simp [subscriptItems] at run
  obtain ⟨first, middle, hfirst, ⟨_, rfl, rfl⟩ | ⟨_, rest, hrest, rfl⟩⟩ := run
  · exact A.recast rfl (accounts_sliceItem hself hfirst)
  · obtain ⟨rs, hlisted, hread⟩ := listed_commaTail (accounts_sliceItem hself) hrest
    exact A.close (A.append (accounts_sliceItem hself hfirst) hread) (.indices (by simp) (hlisted first))

theorem accounted_trailers {c₀ c c' : Cursor} {value result : Node}
    (before : A.Reads c₀ [node .expression value] c)
    (run : trailers keep self c₀.current.span.start n value c = .ok (result, c')) :
    A.Reads c₀ [node .expression result] c' := by
  induction n generalizing c value with
  | zero =>
      simp only [trailers, pure_ok] at run
      obtain ⟨rfl, rfl⟩ := run
      exact before
  | succ n ih =>
      simp [trailers] at run
      rcases run with ⟨_, args, keywords, middle, hcall, rest⟩ |
        ⟨_, ⟨opened, index, middle, hindex, closed, rest⟩ | ⟨_, ⟨point, ⟨hname, hfree⟩, rest⟩ | ⟨_, rfl, rfl⟩⟩⟩
      · obtain ⟨arguments, rs, hlisted, hread, rfl, rfl⟩ := listed_callArguments hself hcall
        exact ih (A.close (A.append before hread) (.call hlisted)) rest
      · have inside := A.read (A.op before opened) (accounts_subscriptItems hself) hindex
        exact ih (A.close (A.op inside closed) (.subscript value index)) rest
      · exact ih (A.close (A.name (A.op before point) hname) (.member value hfree)) rest
      · exact before

theorem accounts_primary : Accounts A (primary keep self) fun n => [node .expression n] := by
  intro c a c' run
  simp [primary] at run
  obtain ⟨first, middle, hfirst, rest⟩ := run
  exact accounted_trailers hself (accounts_atom hself hfirst) rest

/-! ### Operators -/

theorem accounts_power : Accounts A (power keep self) fun n => [node .expression n] := by
  intro c a c' run
  simp [power] at run
  obtain ⟨base, middle, hbase, ⟨stars, exponent, hexponent, rfl⟩ | ⟨_, rfl, rfl⟩⟩ := run
  · exact A.close (A.read (A.op (accounts_primary hself hbase) stars) (hself _) hexponent)
      (.binOp base exponent .pow)
  · exact accounts_primary hself hbase

omit hself in
theorem words_of_sign {c : Cursor} {operator : UnaryOp} (h : sign? c.current = some operator) :
    c.atOp operator.symbol = true ∧ operator.words = [(.op, operator.symbol)] := by
  unfold sign? at h
  split_ifs at h with hplus hminus hinvert <;> cases h
  · exact ⟨hplus, rfl⟩
  · exact ⟨hminus, rfl⟩
  · exact ⟨hinvert, rfl⟩

theorem accounts_factor : Accounts A (factor keep self) fun n => [node .expression n] := by
  intro c a c' run
  cases hsign : sign? c.current with
  | some operator =>
      simp [factor, hsign] at run
      obtain ⟨operand, hoperand, rfl⟩ := run
      obtain ⟨hop, hwords⟩ := words_of_sign hsign
      have whole := A.read (A.op (A.nil c) hop) (hself _) hoperand
      refine A.close ?_ (.unaryOp operator operand)
      rw [hwords]
      exact whole
  | none =>
      simp [factor, hsign] at run
      exact accounts_power hself run

omit hself in
theorem accounted_binaryTail (hoperand : Accounts A operand fun n => [node .expression n])
    {level : List BinaryOp} {c₀ c c' : Cursor} {left result : Node}
    (before : A.Reads c₀ [node .expression left] c)
    (run : binaryTail level operand c₀.current.span.start n left c = .ok (result, c')) :
    A.Reads c₀ [node .expression result] c' := by
  induction n generalizing c left with
  | zero =>
      simp only [binaryTail, pure_ok] at run
      obtain ⟨rfl, rfl⟩ := run
      exact before
  | succ n ih =>
      cases hop : c.binaryOp? level with
      | none =>
          simp [binaryTail, hop] at run
          obtain ⟨rfl, rfl⟩ := run
          exact before
      | some operator =>
          simp [binaryTail, hop] at run
          obtain ⟨right, middle, hright, rest⟩ := run
          have hsymbol : c.atOp operator.symbol = true := by
            rw [Cursor.binaryOp?] at hop
            simpa using List.find?_some hop
          exact ih (A.close (A.read (A.op before hsymbol) hoperand hright)
            (.binOp left right operator)) rest

theorem accounts_binary (levels : List (List BinaryOp)) :
    Accounts A (binary keep self levels) fun n => [node .expression n] := by
  induction levels with
  | nil => exact accounts_factor hself
  | cons level stronger ih =>
      intro c a c' run
      simp [binary] at run
      obtain ⟨left, middle, hleft, rest⟩ := run
      exact accounted_binaryTail ih (ih hleft) rest

omit hself in
/-- The words of a comparison, of which there are one or two. -/
theorem accounted_compareOp (A : Account keep) {c : Cursor} {operator : CompareOp} {width : Nat}
    (h : c.compareOp? = some (operator, width)) :
    A.Reads c (operator.words.map word)
      (if width = 2 then c.advance.advance else c.advance) := by
  unfold Cursor.compareOp? at h
  split_ifs at h with h₁ h₂ h₃ h₄ h₅ h₆ h₇ h₈ h₉ h₁₀ <;> cases h
  · exact A.op (A.nil c) h₁
  · exact A.op (A.nil c) h₂
  · exact A.op (A.nil c) h₃
  · exact A.op (A.nil c) h₄
  · exact A.op (A.nil c) h₅
  · exact A.op (A.nil c) h₆
  · exact A.keyword (A.nil c) h₇
  · rw [Bool.and_eq_true, ← Cursor.current_advance] at h₈
    exact A.keyword (A.keyword (A.nil c) h₈.1) h₈.2
  · rw [Bool.and_eq_true, ← Cursor.current_advance] at h₉
    exact A.keyword (A.keyword (A.nil c) h₉.1) h₉.2
  · exact A.keyword (A.nil c) h₁₀

omit hself in
theorem accounts_compareTail (hoperand : Accounts A operand fun n => [node .expression n])
    (n : Nat) : Accounts A (compareTail operand n) (·.flatMap compareReads) := by
  induction n with
  | zero =>
      intro c a c' run
      simp only [compareTail, pure_ok] at run
      obtain ⟨rfl, rfl⟩ := run
      exact A.nil c
  | succ n ih =>
      intro c a c' run
      cases hop : c.compareOp? with
      | none =>
          simp [compareTail, hop] at run
          obtain ⟨rfl, rfl⟩ := run
          exact A.nil c
      | some found =>
          obtain ⟨operator, width⟩ := found
          have sign := accounted_compareOp A hop
          simp [compareTail, hop] at run
          rcases run with ⟨hwidth, right, middle, hright, rest, hrest, rfl⟩ |
            ⟨hwidth, right, middle, hright, rest, hrest, rfl⟩
          · rw [if_pos hwidth] at sign
            simpa [compareReads] using A.read (A.read sign hoperand hright) ih hrest
          · rw [if_neg hwidth] at sign
            simpa [compareReads] using A.read (A.read sign hoperand hright) ih hrest

theorem accounts_comparison : Accounts A (comparison keep self) fun n => [node .expression n] := by
  intro c a c' run
  simp [comparison] at run
  obtain ⟨left, middle, hleft, rest, last, hrest, ⟨rfl, rfl, rfl⟩ | ⟨hne, rfl, rfl⟩⟩ := run
  · exact A.read (accounts_binary hself _ hleft) (accounts_compareTail (accounts_binary hself _) _) hrest
  · have whole := A.read (accounts_binary hself _ hleft)
      (accounts_compareTail (accounts_binary hself _) _) hrest
    exact A.close whole (.compare left (by simpa using hne))

theorem accounts_negation : Accounts A (negation keep self) fun n => [node .expression n] := by
  intro c a c' run
  simp [negation] at run
  rcases run with ⟨not, operand, hoperand, rfl⟩ | ⟨_, run⟩
  · exact A.close (A.read (A.keyword (A.nil c) not) (hself _) hoperand) (.unaryOp .not operand)
  · exact accounts_comparison hself run

omit hself in
theorem accounts_boolTail (hoperand : Accounts A operand fun n => [node .expression n])
    (operator : BoolOp) (n : Nat) :
    Accounts A (boolTail operator operand n)
      (·.flatMap fun n => [term operator.symbol, node .expression n]) := by
  induction n with
  | zero =>
      intro c a c' run
      simp only [boolTail, pure_ok] at run
      obtain ⟨rfl, rfl⟩ := run
      exact A.nil c
  | succ n ih =>
      intro c a c' run
      simp [boolTail] at run
      rcases run with ⟨_, rfl, rfl⟩ | ⟨key, x, middle, hx, rest, hrest, rfl⟩
      · exact A.nil c
      · simpa using A.read (A.read (A.keyword (A.nil c) key) hoperand hx) ih hrest

omit hself in
theorem accounts_boolChain (hoperand : Accounts A operand fun n => [node .expression n])
    (operator : BoolOp) :
    Accounts A (boolChain operator operand) fun n => [node .expression n] := by
  intro c a c' run
  simp [boolChain] at run
  obtain ⟨first, middle, hfirst, rest, last, hrest, ⟨rfl, rfl, rfl⟩ | ⟨hne, rfl, rfl⟩⟩ := run
  · exact A.read (hoperand hfirst) (accounts_boolTail hoperand operator _) hrest
  · have whole := A.read (hoperand hfirst) (accounts_boolTail hoperand operator _) hrest
    exact A.close whole (.boolOp operator first (by simpa using hne))

theorem accounts_disjunction : Accounts A (disjunction keep self) fun n => [node .expression n] :=
  accounts_boolChain (accounts_boolChain (accounts_negation hself) .and) .or

theorem accounts_test : Accounts A (test keep self) fun n => [node .expression n] := by
  intro c a c' run
  simp [test] at run
  obtain ⟨body, middle, hbody, ⟨hif, condition, after, hcondition, helse, orelse, horelse, rfl⟩ |
    ⟨_, rfl, rfl⟩⟩ := run
  · have head := A.keyword (accounts_disjunction hself hbody) hif
    have choice := A.keyword (A.read head (accounts_disjunction hself) hcondition) helse
    exact A.close (A.read choice (hself _) horelse) (.ifExp condition body orelse)
  · exact accounts_disjunction hself hbody

end Expressions

variable {A}

/-- An expression entered by any rule, however deep it may nest. -/
theorem accounts_expression (n : Nat) (entry : Entry) :
    Accounts A (expression keep n entry) fun n => [node .expression n] := by
  induction n generalizing entry with
  | zero =>
      intro c a c' run
      simp [expression] at run
  | succ n ih =>
      cases entry with
      | test => exact accounts_test ih
      | negation => exact accounts_negation ih
      | bitwise => exact accounts_binary ih _
      | factor => exact accounts_factor ih

theorem accounts_commaList {item : Parser Node} (hitem : Accounts A item fun n => [node .item n]) :
    Accounts A (commaList item) fun n => [node .row n] := by
  intro c a c' run
  simp [commaList] at run
  obtain ⟨first, middle, hfirst, ⟨_, rfl, rfl⟩ | ⟨_, rest, hrest, rfl⟩⟩ := run
  · exact A.recast rfl (hitem hfirst)
  · obtain ⟨rs, hlisted, hread⟩ := listed_commaTail hitem hrest
    exact A.close (A.append (hitem hfirst) hread) (.row (by simp) (hlisted first))

theorem accounts_anyTest : Accounts A (anyTest keep) fun n => [node .expression n] := by
  intro c a c' run
  simp only [anyTest, withExpressions_ok] at run
  exact accounts_expression _ _ run

theorem accounts_anyList : Accounts A (anyList keep) fun n => [node .row n] := by
  intro c a c' run
  simp only [anyList, withExpressions_ok] at run
  exact accounts_commaList (accounts_starredOrTest (accounts_expression _)) run

theorem accounts_targetList : Accounts A (targetList keep) fun n => [node .row n] := by
  intro c a c' run
  simp only [targetList, withExpressions_ok] at run
  refine accounts_commaList ?_ run
  intro c a c' run
  simp at run
  rcases run with ⟨_, run⟩ | ⟨_, run⟩
  · exact accounts_starred (accounts_expression _) run
  · exact A.recast rfl (accounts_expression _ _ run)

end Grammar

end TriviaTree
