import Mathlib
import TriviaTree.Proofs.Grammar.Atoms
import TriviaTree.Proofs.Printing.Writing

/-!
Printed expressions are read again.

The words of a list with commas are the words of its entries, whatever trivia stand among them: only
a comma may follow the last one (`words_shown`).
-/

set_option autoImplicit false

namespace TriviaTree

open Piece Grammar Node

/-! ### The words of entries -/

/-- The entries that are no trivia. -/
def Chunk.solids (chunks : List Chunk) : List Chunk :=
  chunks.filter (!·.isTrivia)

theorem Chunk.Fit.words_eq {c : Chunk} (h : c.Fit) (htrivia : c.isTrivia = true) :
    words c.pieces = [] := by
  obtain ⟨endOfLine, text, hpieces⟩ := h htrivia
  rw [hpieces]
  rfl

theorem Chunk.solids_shown (detail : Detail) (chunks : List Chunk) :
    solids (detail.shown chunks) = solids chunks := by
  cases detail with
  | code => simp [Detail.shown, solids]
  | trivia => rfl

theorem Chunk.solids_chunksAll (detail : Detail) (ns : List Node) :
    solids (chunksAll detail ns) = (Node.code ns).map (·.chunk detail) := by
  rw [chunksAll_eq, solids, List.filter_map, Node.code]
  rfl

/-- Where no entry is solid, the last one is trivia. -/
theorem Chunk.last_isTrivia {chunks : List Chunk} (h : solids chunks = []) (hne : chunks ≠ []) :
    chunks.getLast?.any (·.isTrivia) = true := by
  have htrivia := List.filter_eq_nil_iff.1 h _ (List.getLast_mem hne)
  rw [List.getLast?_eq_getLast_of_ne_nil hne]
  simpa using htrivia

open Chunk in
/-- Trivia have no words; where they come last a comma stands before them. -/
theorem words_listed {chunks : List Chunk} (h : ∀ c ∈ chunks, c.Fit) :
    words (listed chunks) =
      separated ((solids chunks).map (words ·.pieces)) (chunks.getLast?.any (·.isTrivia)) := by
  induction chunks with
  | nil => rfl
  | cons chunk rest ih =>
      have ih := ih (List.forall_mem_cons.1 h).2
      have hwords := (h chunk List.mem_cons_self).words_eq
      cases rest with
      | nil =>
          cases htrivia : chunk.isTrivia with
          | true => simp [listed, solids, htrivia, hwords htrivia, separated]
          | false => simp [listed, solids, htrivia, separated, commaed]
      | cons next rest =>
          rw [listed, words_append, words_append, ih, List.getLast?_cons_cons]
          cases htrivia : chunk.isTrivia with
          | true => simp [comma, htrivia, hwords htrivia, solids]
          | false =>
              have hcomma : words (comma chunk next) = [(.op, ",")] := by
                cases hnext : next.isTrivia <;> simp [comma, htrivia, hnext]
              have hsolids : solids (chunk :: next :: rest) = chunk :: solids (next :: rest) := by
                rw [solids, List.filter_cons_of_pos (by simp [htrivia]), solids]
              rw [hcomma, hsolids, List.map_cons, separated, List.append_assoc]
              congr 1
              rcases commaed_cases ((solids (next :: rest)).map (words ·.pieces))
                ((next :: rest).getLast?.any (·.isTrivia)) with ⟨hnil, hnone⟩ | hcommas
              · rw [last_isTrivia (List.map_eq_nil_iff.1 hnil) (by simp), hnil] at hnone
                cases hnone
              · rw [hcommas, List.singleton_append]

open Chunk in
/-- A tuple with one entry has a comma in any case. -/
theorem words_tupled {chunks : List Chunk} (h : ∀ c ∈ chunks, c.Fit) :
    ∃ trailing, words (tupled chunks) = separated ((solids chunks).map (words ·.pieces)) trailing ∧
      ((solids chunks).length = 1 → trailing = true) := by
  have hcount : chunks.countP (!·.isTrivia) = (solids chunks).length := List.countP_eq_length_filter
  rw [tupled, words_append, words_listed h, hcount]
  by_cases hone : (solids chunks).length = 1
  · refine ⟨true, ?_, fun _ => rfl⟩
    obtain ⟨chunk, hchunk⟩ := List.length_eq_one_iff.1 hone
    have hne : chunks ≠ [] := by
      rintro rfl
      cases hone
    have hlast := List.getLast?_eq_getLast_of_ne_nil hne
    cases htrivia : (chunks.getLast hne).isTrivia <;>
      simp [hchunk, hlast, htrivia, separated, commaed]
  · refine ⟨chunks.getLast?.any (·.isTrivia), ?_, fun h => absurd h hone⟩
    simp [hone]

theorem words_shown (detail : Detail) {chunks : List Chunk} (h : ∀ c ∈ chunks, c.Fit) :
    ∃ trailing, words (listed (detail.shown chunks)) =
      separated ((Chunk.solids chunks).map (words ·.pieces)) trailing := by
  rw [words_listed fun c hc => h c (Detail.mem_of_mem_shown hc), Chunk.solids_shown]
  exact ⟨_, rfl⟩

/-- The groups are the entries that are no trivia. -/
theorem map_grouped (pending chunks : List Chunk) :
    (grouped pending chunks).1.map (·.2) = Chunk.solids chunks := by
  induction chunks generalizing pending with
  | nil => rfl
  | cons chunk rest ih =>
      cases htrivia : chunk.isTrivia <;> simp [grouped, Chunk.solids, htrivia, ih]

theorem words_trivia {chunks : List Chunk} (h : ∀ c ∈ chunks, c.isTrivia = true ∧ c.Fit) :
    words (chunks.flatMap (·.pieces)) = [] := by
  induction chunks with
  | nil => rfl
  | cons chunk rest ih =>
      obtain ⟨htrivia, hfit⟩ := h chunk List.mem_cons_self
      rw [List.flatMap_cons, words_append, hfit.words_eq htrivia,
        ih (List.forall_mem_cons.1 h).2]
      rfl

open Chunk in
/-- The entries of a dictionary: each key with its value. -/
theorem words_paired {keys values : List Chunk} (hkeys : ∀ c ∈ keys, c.Fit)
    (hvalues : ∀ c ∈ values, c.Fit) :
    ∃ trailing, words (listed (paired keys values)) =
      separated (((solids keys).zip (solids values)).map fun entry =>
        words entry.1.pieces ++ (.op, ":") :: words entry.2.pieces) trailing := by
  have hkeyGroups := mem_grouped [] keys (by simp)
  have hvalueGroups := mem_grouped [] values (by simp)
  have hdropped : ∀ {trivia : List Chunk}, (∀ t ∈ trivia, t.isTrivia = true) → solids trivia = [] :=
    fun h => List.filter_eq_nil_iff.2 fun t ht => by simp [h t ht]
  have hsolids : solids (paired keys values) =
      ((grouped [] keys).1.zip (grouped [] values).1).map
        fun entry => pair entry.1.2 entry.2.1 entry.2.2 := by
    have hkeyTail := hdropped fun t ht => (hkeyGroups.2 t ht).1
    have hvalueTail := hdropped fun t ht => (hvalueGroups.2 t ht).1
    rw [paired, solids, List.filter_append, List.filter_append, ← solids, ← solids, ← solids,
      hkeyTail, hvalueTail, List.append_nil, List.append_nil, solids, List.filter_flatMap,
      List.map_eq_flatMap]
    refine List.flatMap_congr fun entry hentry => ?_
    have hmem := List.of_mem_zip (show (entry.1, entry.2) ∈ _ from hentry)
    have htrivia := hdropped fun t ht => ((hkeyGroups.1 _ hmem.1).1 t ht).1
    rw [List.filter_append, ← solids, htrivia]
    rfl
  have hwords : ((solids (paired keys values)).map (words ·.pieces)) =
      ((solids keys).zip (solids values)).map fun entry =>
        words entry.1.pieces ++ (.op, ":") :: words entry.2.pieces := by
    rw [hsolids, ← map_grouped [] keys, ← map_grouped [] values, List.zip_map, List.map_map,
      List.map_map]
    refine List.map_congr_left fun entry hentry => ?_
    have hmem := List.of_mem_zip (show (entry.1, entry.2) ∈ _ from hentry)
    have htrivia : words (entry.2.1.flatMap (·.pieces)) = [] := words_trivia fun t ht =>
      ⟨((hvalueGroups.1 _ hmem.2).1 t ht).1,
        hvalues t (by simpa using ((hvalueGroups.1 _ hmem.2).1 t ht).2)⟩
    by_cases hempty : entry.2.1 = [] <;> simp [pair, htrivia, hempty]
  rw [← hwords]
  exact ⟨_, words_listed (fit_paired hkeys hvalues)⟩

/-! ### The same code -/

namespace Node

/-- The tree is the node without its trivia, but for spans. -/
def SameCode (n a : Node) : Prop :=
  a.eraseSpans = n.strip.eraseSpans

theorem sameCode_mk {kind kind' : Kind Node} {span span' : Option Span} (h : kind.isTrivia = false)
    (h' : kind'.isTrivia = false)
    (hsame : kind'.map eraseSpans =
      (kind.withContents (List.zipWith Field.dropTrivia kind.fields
        (kind.contents.map (·.map strip)))).map eraseSpans) :
    SameCode ⟨kind, span⟩ ⟨kind', span'⟩ := by
  rw [SameCode, strip_eq, eraseSpans_mk h', eraseSpans_mk ((Kind.isTrivia_withContents _ _).trans h), hsame]

/-- Lists of nodes that are the same code, entry by entry. -/
theorem map_eraseSpans {ns as : List Node} (h : List.Forall₂ SameCode ns as) :
    as.map eraseSpans = (ns.map strip).map eraseSpans := by
  induction h with
  | nil => rfl
  | cons hn _ ih => rw [List.map_cons, List.map_cons, List.map_cons, ih, hn]

theorem map_eraseSpans_code {ns as : List Node} (h : List.Forall₂ SameCode (code ns) as) :
    as.map eraseSpans = ((ns.map strip).filter (!·.isTrivia)).map eraseSpans := by
  rw [filter_map_strip, map_eraseSpans h]

theorem map_eraseSpans_option {n a : Option Node} (h : Option.Rel SameCode n a) :
    a.map eraseSpans = (n.toList.map strip).head?.map eraseSpans := by
  cases h with
  | none => rfl
  | some h => exact congrArg some h

end Node

/-! ### Expressions by themselves -/

/-- A printed expression is entered at the strength of its place, with fuel for its words. -/
structure ReadsAs (keep : Retention) (detail : Detail) (n : Node) : Prop where
  enters : ∀ p k, 0 < p.rank → (words (n.pieces detail p)).length ≤ k →
    Enters keep (expression keep k) p (words (n.pieces detail p)) n.SameCode
  begins : ∀ p, First (·.Begins p) (words (n.pieces detail p))
  unnamed : ∀ p, Unnamed (words (n.pieces detail p))

section ReadsAs

variable {keep : Retention} {detail : Detail} {n : Node} {p : Precedence} {k : Nat}

theorem ReadsAs.reads (h : ReadsAs keep detail n) (hp : 0 < p.rank)
    (hk : (words (n.pieces detail p)).length ≤ k) :
    Reads (rung keep (expression keep k) p) (words (n.pieces detail p)) (Stops p) n.SameCode :=
  (h.enters p k hp hk).reads

/-- An expression that is entered again, by a rule that reads it and weaker ones. -/
theorem ReadsAs.self (h : ReadsAs keep detail n) (entry : Entry)
    (hp : entry.strength.rank ≤ p.rank) (hk : (words (n.pieces detail p)).length < k) :
    Reads (expression keep k entry) (words (n.pieces detail p)) (Stops entry.strength) n.SameCode := by
  obtain ⟨k, rfl⟩ := exists_fuel hk
  have hentry : 0 < entry.strength.rank := by cases entry <;> decide
  rw [expression_succ]
  exact ((h.enters p k (hentry.trans_le hp) (Nat.le_of_lt_succ hk)).weaken (h.begins p) hentry hp).reads

/-- Words in parentheses where they are needed. -/
def wrapped (needed : Bool) (ws : List Word) : List Word :=
  if needed then (.op, "(") :: (ws ++ [(.op, ")")]) else ws

theorem words_enclosed (needed : Bool) (ps : List Piece) :
    words (enclosed needed ps) = wrapped needed (words ps) := by
  cases needed <;> simp [enclosed, wrapped]

/-- An expression of the strength `s`, in parentheses where the place asks for more. -/
theorem readsAs_enclosed {s : Precedence} {ws : List Word}
    (hwords : ∀ p, words (n.pieces detail p) = wrapped (decide (s < p)) ws) (hs : 0 < s.rank)
    (henters : ∀ k, ws.length ≤ k → Enters keep (expression keep k) s ws n.SameCode)
    (hbegins : First (·.Begins s) ws) (hunnamed : Unnamed ws) : ReadsAs keep detail n := by
  have hopen : ∀ p, First (·.Begins p) (wrapped true ws) := fun p => .cons (.inl (by decide))
  have hp : ∀ p : Precedence, p.rank ≤ Precedence.atom.rank := fun p => by cases p <;> decide
  refine ⟨fun p k hpos hk => ?_, fun p => ?_, fun p => ?_⟩
  · rw [hwords p] at hk ⊢
    cases hless : decide (s < p) with
    | true =>
        rw [hless, wrapped, if_pos rfl, List.length_cons, List.length_append] at hk
        obtain ⟨k, rfl⟩ := exists_fuel hk
        have htest : Reads (expression keep (k + 1) .test) ws (Stops .test) n.SameCode := by
          have hweak : Enters keep (expression keep k) .test ws n.SameCode :=
            (henters k (by omega)).weaken hbegins (by decide) hs
          rw [expression_succ]
          exact hweak.reads
        have hatom : Enters keep (expression keep (k + 1)) .atom (wrapped true ws) n.SameCode :=
          enters_atom (reads_enclosed htest (hbegins.imp fun _ hw => hw.mono hs))
        exact hatom.weaken (hopen _) hpos (hp p)
    | false =>
        rw [hless] at hk
        exact (henters k hk).weaken hbegins hpos (Nat.le_of_not_lt (of_decide_eq_false hless))
  · rw [hwords p]
    cases hless : decide (s < p) with
    | true => exact hopen p
    | false => exact hbegins.imp fun _ hw => hw.mono (Nat.le_of_not_lt (of_decide_eq_false hless))
  · rw [hwords p]
    cases hless : decide (s < p) with
    | true => rintro id later ⟨⟩
    | false => exact hunnamed

/-- An atom is the same at every place. -/
theorem readsAs_atom {ws : List Word} (hwords : ∀ p, words (n.pieces detail p) = ws)
    (henters : ∀ k, ws.length ≤ k → Enters keep (expression keep k) .atom ws n.SameCode)
    (hbegins : First (·.Begins .atom) ws) (hunnamed : Unnamed ws) : ReadsAs keep detail n := by
  refine readsAs_enclosed (fun p => ?_) (by decide) henters hbegins hunnamed
  have hless : decide (Precedence.atom < p) = false := by cases p <;> decide
  rw [hwords p, hless]
  rfl

/-- An atom that begins with a bracket. -/
theorem readsAs_bracketed {opener : String} {ws : List Word} (hopener : opener ∈ ["(", "[", "\x7b"])
    (hwords : ∀ p, words (n.pieces detail p) = (.op, opener) :: ws)
    (henters : ∀ k, ws.length < k →
      Enters keep (expression keep k) .atom ((.op, opener) :: ws) n.SameCode) :
    ReadsAs keep detail n := by
  refine readsAs_atom hwords henters (.cons (.inl hopener)) ?_
  rintro name later ⟨⟩

variable {span : Option Span}

theorem readsAs_name {id : String} (hid : IsIdentifier id) :
    ReadsAs keep detail ⟨.name id, span⟩ := by
  have hwords : ∀ p, words (Node.pieces detail ⟨.name id, span⟩ p) = [(.name, id)] := fun _ => rfl
  refine readsAs_atom hwords (fun k _ => enters_atom (reads_name hid.free fun _ =>
    sameCode_mk rfl rfl rfl)) (.cons (.inl hid.free)) ?_
  rintro name later ⟨⟩

theorem readsAs_constant (value : Constant) : ReadsAs keep detail ⟨.constant value, span⟩ := by
  have hwords : ∀ p, words (Node.pieces detail ⟨.constant value, span⟩ p) = words [value.piece] :=
    fun _ => rfl
  have hsame : ∀ span', Node.SameCode ⟨.constant value, span⟩ ⟨.constant value, span'⟩ := fun _ =>
    sameCode_mk rfl rfl rfl
  have hunnamed : Unnamed (words [value.piece]) := by
    intro name later heq
    have hlength := congrArg List.length heq
    cases value with
    | bool b => cases b <;> simp [Constant.piece] at hlength
    | _ => simp [Constant.piece] at hlength
  refine readsAs_atom hwords (fun k _ => enters_atom ?_) ?_ hunnamed
  · cases value with
    | str value => exact reads_str hsame
    | int text => exact reads_literal (w := (.int, text)) rfl hsame
    | float text => exact reads_literal (w := (.float, text)) rfl hsame
    | bool b => cases b <;> exact reads_literal (w := (.name, _)) rfl hsame
    | nothing => exact reads_literal (w := (.name, _)) rfl hsame
  · cases value with
    | bool b => cases b <;> exact .cons (.inr (.inl (by decide)))
    | nothing => exact .cons (.inr (.inl (by decide)))
    | _ => exact .cons trivial

/-! ### Operators -/

theorem words_joined (separator ps : List Piece) (rest : List (List Piece)) :
    words (joined separator (ps :: rest)) =
      words ps ++ rest.flatMap fun qs => words separator ++ words qs := by
  induction rest generalizing ps with
  | nil => simp [joined]
  | cons qs rest ih => simp [joined, ih]

theorem length_le_flatMap {α β : Type} {f : α → List β} {x : α} {xs : List α} (hx : x ∈ xs) :
    (f x).length ≤ (xs.flatMap f).length := by
  rw [List.flatMap_def]
  exact (List.sublist_flatten_of_mem (List.mem_map_of_mem hx)).length_le

theorem code_eq_self {ns : List Node} (h : ∀ n ∈ ns, n.isTrivia = false) : code ns = ns :=
  List.filter_eq_self.2 fun n hn => by simp [h n hn]

theorem readsAs_boolOp {op : BoolOp} {values : List Node} (htwo : 2 ≤ values.length)
    (hsolid : ∀ v ∈ values, v.isTrivia = false) (h : ∀ v ∈ values, ReadsAs keep detail v) :
    ReadsAs keep detail ⟨.boolOp op values, span⟩ := by
  match values, htwo with
  | v :: u :: values, _ =>
    have hwords : ∀ p, words (Node.pieces detail ⟨.boolOp op (v :: u :: values), span⟩ p) =
        wrapped (decide (op.precedence < p)) (words (v.pieces detail op.precedence.next) ++
          (u :: values).flatMap fun x =>
            (.name, op.symbol) :: words (x.pieces detail op.precedence.next)) := fun p => by
      rw [Node.pieces, piecesAll_eq, words_enclosed, List.map_cons, words_joined, List.flatMap_map]
      rfl
    have hop : 0 < op.precedence.rank := by cases op <;> decide
    have hnext : 0 < op.precedence.next.rank := hop.trans_le op.precedence.rank_le_next
    have hfirst := h v List.mem_cons_self
    refine readsAs_enclosed hwords hop (fun k hk => ?_) ?_ ?_
    · rw [List.length_append] at hk
      have hrest : ∀ x ∈ u :: values, Reads (rung keep (expression keep k) op.precedence.next)
          (words (x.pieces detail op.precedence.next)) (Stops op.precedence.next) x.SameCode := by
        intro x hx
        have hlong := length_le_flatMap (f := fun x : Node =>
          ((TokenKind.name, op.symbol) :: words (x.pieces detail op.precedence.next) : List Word)) hx
        rw [List.length_cons] at hlong
        exact (h x (List.mem_cons_of_mem v hx)).reads hnext (by omega)
      refine Reads.enters ?_ (by cases op <;> decide)
      refine reads_boolChain op (hfirst.reads hnext (by omega)) hrest (by simp) ?_
      intro _ a as span' ha has
      refine sameCode_mk rfl rfl ?_
      show Kind.boolOp op _ = Kind.boolOp op _
      have hall : List.Forall₂ SameCode (code (v :: u :: values)) (a :: as) := by
        rw [code_eq_self hsolid]
        exact .cons ha has
      rw [map_eraseSpans_code hall]
      rfl
    · exact ((hfirst.begins _).imp fun _ hw => hw.mono op.precedence.rank_le_next).append _
    · exact (hfirst.unnamed _).append (hfirst.begins _).ne_nil (by simp)

theorem readsAs_binOp {left right : Node} {op : BinaryOp} (hleft : ReadsAs keep detail left)
    (hright : ReadsAs keep detail right) : ReadsAs keep detail ⟨.binOp left op right, span⟩ := by
  have hwords : ∀ p, words (Node.pieces detail ⟨.binOp left op right, span⟩ p) =
      wrapped (decide (op.precedence < p)) (words (left.pieces detail op.operandStrengths.1) ++
        (.op, op.symbol) :: words (right.pieces detail op.operandStrengths.2)) := fun p => by
    simp [Node.pieces, words_enclosed]
  have hop : 0 < op.precedence.rank := by cases op <;> decide
  have hstrong : op.precedence.rank ≤ op.operandStrengths.1.rank := by cases op <;> decide
  have hsame : ∀ a b span', left.SameCode a → right.SameCode b →
      Node.SameCode ⟨.binOp left op right, span⟩ ⟨.binOp a op b, span'⟩ := fun a b span' ha hb =>
    sameCode_mk rfl rfl (congrArg₂ (Kind.binOp · op ·) ha hb)
  refine readsAs_enclosed hwords hop (fun k hk => ?_) ?_ ?_
  · rw [List.length_append, List.length_cons] at hk
    by_cases hpow : op = .pow
    · subst hpow
      have hbase := hleft.reads (p := .await) (k := k) (by decide) (by
        show (words (left.pieces detail BinaryOp.pow.operandStrengths.1)).length ≤ k
        omega)
      have hexponent := hright.self .factor (p := .factor) (k := k) (by decide) (by
        show (words (right.pieces detail BinaryOp.pow.operandStrengths.2)).length < k
        omega)
      exact Reads.enters (reads_power hbase hexponent hsame) (by decide)
    · have hstrengths : op.operandStrengths = (op.precedence, op.precedence.next) := if_neg hpow
      simp only [hstrengths] at hk ⊢
      have hnext : 0 < op.precedence.next.rank := hop.trans_le op.precedence.rank_le_next
      exact Enters.binOp (hleft.enters _ k hop (by omega)) (hright.reads hnext (by omega)) hpow hsame
  · exact ((hleft.begins _).imp fun _ hw => hw.mono hstrong).append _
  · refine (hleft.unnamed _).append (hleft.begins _).ne_nil ?_
    cases op <;> simp [BinaryOp.symbol]

theorem readsAs_unaryOp {op : UnaryOp} {operand : Node} (h : ReadsAs keep detail operand) :
    ReadsAs keep detail ⟨.unaryOp op operand, span⟩ := by
  have hsame : ∀ a span', operand.SameCode a →
      Node.SameCode ⟨.unaryOp op operand, span⟩ ⟨.unaryOp op a, span'⟩ := fun a span' ha =>
    sameCode_mk rfl rfl (congrArg (Kind.unaryOp op ·) ha)
  by_cases hnot : op = .not
  · subst hnot
    have hwords : ∀ p, words (Node.pieces detail ⟨.unaryOp .not operand, span⟩ p) =
        wrapped (decide (.not < p)) ((.name, "not") :: words (operand.pieces detail .not)) := fun p => by
      rw [Node.pieces, words_enclosed]
      rfl
    refine readsAs_enclosed hwords (by decide) (fun k hk => ?_) ?_ ?_
    · exact Reads.enters (reads_not (h.self .negation (by decide) hk) hsame) (by decide)
    · exact .cons (.inr (.inr ⟨rfl, by decide⟩))
    · intro name later heq
      have hsecond := (h.begins .not).headD (.op, "=")
      rw [(List.cons.inj heq).2] at hsecond
      exact ne_op_of_begins hsecond (by decide) rfl
  · have hprecedence : op.precedence = .factor := by
      cases op <;> first | rfl | exact absurd rfl hnot
    have hwords : ∀ p, words (Node.pieces detail ⟨.unaryOp op operand, span⟩ p) =
        wrapped (decide (.factor < p)) ((.op, op.symbol) :: words (operand.pieces detail .factor)) :=
      fun p => by
        rw [Node.pieces, words_enclosed, hprecedence]
        cases op <;> first | rfl | exact absurd rfl hnot
    refine readsAs_enclosed hwords (by decide) (fun k hk => ?_) (.cons (.inr ⟨?_, by decide⟩)) ?_
    · exact Reads.enters (reads_sign hnot (h.self .factor (by decide) hk) hsame) (by decide)
    · cases op <;> first | decide | exact absurd rfl hnot
    · rintro name later ⟨⟩

theorem words_compareOp (op : CompareOp) : words op.pieces = compareWords op := by
  cases op <;> rfl

theorem readsAs_compare {left : Node} {ops : List CompareOp} {comparators : List Node}
    (hleft : ReadsAs keep detail left) (hne : ops ≠ []) (hlength : comparators.length = ops.length)
    (hsolid : ∀ c ∈ comparators, c.isTrivia = false) (h : ∀ c ∈ comparators, ReadsAs keep detail c) :
    ReadsAs keep detail ⟨.compare left ops comparators, span⟩ := by
  have hwords : ∀ p, words (Node.pieces detail ⟨.compare left ops comparators, span⟩ p) =
      wrapped (decide (.compare < p)) (words (left.pieces detail .bitOr) ++
        (ops.zip comparators).flatMap fun x =>
          compareWords x.1 ++ words (x.2.pieces detail .bitOr)) := fun p => by
    rw [Node.pieces, piecesAll_eq, List.zip_map_right, List.flatMap_map, words_enclosed, words_append,
      words, words, List.filterMap_flatMap]
    congr 3
    funext x
    rw [← words]
    simp [words_compareOp]
  have hzip : ops.zip comparators ≠ [] := by
    rw [ne_eq, List.zip_eq_nil_iff, not_or]
    exact ⟨hne, fun hnil => hne (List.length_eq_zero_iff.1 (by rw [← hlength, hnil]; rfl))⟩
  have hmem : ∀ x ∈ ops.zip comparators, x.2 ∈ comparators := fun x hx =>
    (List.of_mem_zip (show (x.1, x.2) ∈ _ from hx)).2
  refine readsAs_enclosed hwords (by decide) (fun k hk => ?_) ?_ ?_
  · rw [List.length_append] at hk
    have hoperands : ∀ x ∈ ops.zip comparators, Reads (rung keep (expression keep k) .bitOr)
        (words (x.2.pieces detail .bitOr)) (Stops .bitOr) x.2.SameCode := by
      intro x hx
      have hlong := length_le_flatMap (f := fun x : CompareOp × Node =>
        compareWords x.1 ++ words (x.2.pieces detail .bitOr)) hx
      rw [List.length_append] at hlong
      exact (h x.2 (hmem x hx)).reads (by decide) (by omega)
    refine Reads.enters (reads_comparison (hleft.reads (by decide) (by omega)) hoperands
      (fun x hx => ((h x.2 (hmem x hx)).begins .bitOr).imp fun _ hw =>
        ne_not_of_begins (hw.mono (by decide))) ?_ ?_) (by decide)
    · exact fun hnil => absurd hnil hzip
    · intro _ a as span' ha has
      have hops : (ops.zip comparators).map (·.1) = ops := List.map_fst_zip hlength.ge
      have hcomparators : (ops.zip comparators).map (·.2) = comparators :=
        List.map_snd_zip hlength.le
      have hall : List.Forall₂ SameCode (code comparators) as := by
        rw [code_eq_self hsolid, ← hcomparators]
        exact List.forall₂_map_left_iff.2 has
      refine sameCode_mk rfl rfl ?_
      show Kind.compare _ _ _ = Kind.compare _ _ _
      rw [hops, map_eraseSpans_code hall, ha]
      rfl
  · exact ((hleft.begins _).imp fun _ hw => hw.mono (by decide)).append _
  · refine (hleft.unnamed _).append (hleft.begins _).ne_nil ?_
    obtain ⟨x, xs, hxs⟩ := List.exists_cons_of_ne_nil hzip
    rw [hxs, List.flatMap_cons]
    cases x.1 <;> simp [compareWords, CompareOp.symbol]

theorem readsAs_ifExp {test body orelse : Node} (htest : ReadsAs keep detail test)
    (hbody : ReadsAs keep detail body) (horelse : ReadsAs keep detail orelse) :
    ReadsAs keep detail ⟨.ifExp test body orelse, span⟩ := by
  have hwords : ∀ p, words (Node.pieces detail ⟨.ifExp test body orelse, span⟩ p) =
      wrapped (decide (.test < p)) (words (body.pieces detail .or) ++ (.name, "if") ::
        (words (test.pieces detail .or) ++
          (.name, "else") :: words (orelse.pieces detail .test))) := fun p => by
    simp [Node.pieces, words_enclosed]
  refine readsAs_enclosed hwords (by decide) (fun k hk => ?_) ?_ ?_
  · simp only [List.length_append, List.length_cons] at hk
    refine Reads.enters (reads_ifExp (hbody.reads (by decide) (by omega))
      (htest.reads (by decide) (by omega)) (horelse.self .test (by decide) (by omega)) ?_) (by decide)
    intro a b c span' ha hb hc
    refine sameCode_mk rfl rfl ?_
    show Kind.ifExp _ _ _ = Kind.ifExp _ _ _
    rw [ha, hb, hc]
  · exact ((hbody.begins _).imp fun _ hw => hw.mono (by decide)).append _
  · exact (hbody.unnamed _).append (hbody.begins _).ne_nil (by simp)

/-! ### Entries -/

/-- How a printed expression is read in its part. -/
def ReadsPart (keep : Retention) (detail : Detail) : Part → Node → Prop
  | .whole, n => ReadsAs keep detail n
  | .item, n => ReadsAs keep detail n ∨
      ∃ value span, n = ⟨.starred value, span⟩ ∧ ReadsAs keep detail value
  | .index, n => ReadsAs keep detail n ∨
      ∃ lower upper step span, n = ⟨.slice lower upper step, span⟩ ∧
        ∀ x ∈ lower.toList ++ (upper.toList ++ step.toList), ReadsAs keep detail x
  | .subscript, n => ∀ k, (words (n.subscriptPieces detail)).length < k →
      Reads (subscriptItems (expression keep k)) (words (n.subscriptPieces detail)) (Closer "]")
        n.SameCode
  | .keyword, n => ∃ arg value span, n = ⟨.keyword arg value, span⟩ ∧
      (∀ name ∈ arg, IsIdentifier name) ∧ ReadsAs keep detail value

theorem sameCode_starred {value a : Node} {span' : Option Span} (h : value.SameCode a) :
    SameCode ⟨.starred value, span⟩ ⟨.starred a, span'⟩ :=
  sameCode_mk rfl rfl (congrArg Kind.starred h)

theorem sameCode_keyword {arg : Option String} {value a : Node} {span' : Option Span}
    (h : value.SameCode a) : SameCode ⟨.keyword arg value, span⟩ ⟨.keyword arg a, span'⟩ :=
  sameCode_mk rfl rfl (congrArg (Kind.keyword arg) h)

/-- An entry of a list, tuple or set. -/
theorem readsItem_entry {closer : String} (hcloser : closer ∈ [")", "]", "\x7d"])
    (h : ReadsPart keep detail .item n) (hk : (words (n.pieces detail .test)).length < k) :
    ReadsItem closer (starredOrTest (expression keep k)) (words (n.pieces detail .test))
      n.SameCode := by
  have hstops : Stops .test (.op, closer) := by
    simp only [List.mem_cons, List.not_mem_nil, or_false] at hcloser
    rcases hcloser with rfl | rfl | rfl <;> decide
  have hne : closer ∉ ["(", "[", "\x7b", "+", "-", "~"] ∧ closer ≠ "*" := by
    simp only [List.mem_cons, List.not_mem_nil, or_false] at hcloser
    rcases hcloser with rfl | rfl | rfl <;> decide
  rcases h with h | ⟨value, span, rfl, h⟩
  · have hself := h.self .test (p := .test) (Nat.le_refl _) hk
    exact ⟨(reads_starredOrTest hself (h.begins _)).mono fun _ hw => stops_of_between hstops hw,
      (h.begins _).imp fun _ hw => ne_op_of_begins hw hne.1⟩
  · have hwords : words (Node.pieces detail ⟨.starred value, span⟩ .test) =
        (.op, "*") :: words (value.pieces detail .bitOr) := rfl
    rw [hwords] at hk ⊢
    have hself := h.self .bitwise (p := .bitOr) (Nat.le_refl _) (Nat.lt_of_succ_lt hk)
    refine ⟨.ifTrue (sees_op fun _ _ => rfl) ?_, .cons (by simpa [eq_comm] using hne.2)⟩
    exact (reads_starred hself fun _ _ ha => sameCode_starred ha).mono fun _ hw =>
      (stops_of_between hstops hw).mono (by decide)

theorem length_le_of_mem_separated {item : List Word} {items : List (List Word)} (h : item ∈ items)
    (trailing : Bool) : item.length ≤ (separated items trailing).length := by
  cases items with
  | nil => cases h
  | cons first rest =>
      rw [separated, commaed, List.length_append, List.length_append]
      rcases List.mem_cons.1 h with rfl | h
      · omega
      · have hlong : ((.op, ",") :: item).length ≤ (rest.flatMap ((TokenKind.op, ",") :: ·)).length :=
          length_le_flatMap h
        rw [List.length_cons] at hlong
        omega

theorem words_entries (detail : Detail) (ns : List Node) :
    ∃ trailing, words (listed (detail.shown (chunksAll detail ns))) =
      separated ((code ns).map fun n => words (n.pieces detail .test)) trailing := by
  have hfit : ∀ c ∈ chunksAll detail ns, c.Fit := fit_chunksAll
  obtain ⟨trailing, hwords⟩ := words_shown detail hfit
  rw [Chunk.solids_chunksAll, List.map_map] at hwords
  exact ⟨trailing, hwords⟩

theorem words_tupledEntries (detail : Detail) (ns : List Node) :
    ∃ trailing, words (tupled (detail.shown (chunksAll detail ns))) =
        separated ((code ns).map fun n => words (n.pieces detail .test)) trailing ∧
      ((code ns).length = 1 → trailing = true) := by
  obtain ⟨trailing, hwords, hone⟩ := words_tupled fit_shown
  rw [Chunk.solids_shown, Chunk.solids_chunksAll, List.map_map] at hwords
  rw [Chunk.solids_shown, Chunk.solids_chunksAll, List.length_map] at hone
  exact ⟨trailing, hwords, hone⟩

/-- The entries between brackets have fuel to be read. -/
theorem readsItem_entries {closer : String} {ns : List Node} (trailing : Bool)
    (hcloser : closer ∈ [")", "]", "\x7d"]) (h : ∀ e ∈ code ns, ReadsPart keep detail .item e)
    (hk : (separated ((code ns).map fun n => words (n.pieces detail .test)) trailing).length < k) :
    ∀ e ∈ code ns, ReadsItem closer (starredOrTest (expression keep k)) (words (e.pieces detail .test))
      e.SameCode := fun e he =>
  readsItem_entry hcloser (h e he)
    ((length_le_of_mem_separated (List.mem_map_of_mem he) trailing).trans_lt hk)

section Displays

variable {elts : List Node} (h : ∀ e ∈ code elts, ReadsPart keep detail .item e)
include h

/-- Entries between brackets. -/
theorem readsAs_display {opener closer : String} {kind : List Node → Kind Node} {trailing : Bool}
    (hopener : opener ∈ ["(", "[", "\x7b"]) (hcloser : closer ∈ [")", "]", "\x7d"])
    (hwords : ∀ p, words (Node.pieces detail ⟨kind elts, span⟩ p) = (.op, opener) ::
      (separated ((code elts).map fun n => words (n.pieces detail .test)) trailing ++
        [(.op, closer)]))
    (hreads : ∀ k, (∀ e ∈ code elts, ReadsItem closer (starredOrTest (expression keep k))
        (words (e.pieces detail .test)) e.SameCode) →
      Reads (atom (expression keep k)) ((.op, opener) ::
        (separated ((code elts).map fun n => words (n.pieces detail .test)) trailing ++
          [(.op, closer)])) (fun w => w.binding ≤ 15) (SameCode ⟨kind elts, span⟩)) :
    ReadsAs keep detail ⟨kind elts, span⟩ := by
  refine readsAs_bracketed hopener hwords fun k hk => ?_
  rw [List.length_append] at hk
  exact enters_atom (hreads k (readsItem_entries trailing hcloser h (by omega)))

theorem readsAs_list : ReadsAs keep detail ⟨.list elts, span⟩ := by
  obtain ⟨trailing, hentries⟩ := words_entries detail elts
  refine readsAs_display h (by decide) (by decide) (fun _ => by simp [Node.pieces, hentries])
    fun k hitems => reads_list hitems trailing fun as span' has => ?_
  exact sameCode_mk rfl rfl (congrArg Kind.list (map_eraseSpans_code has))

theorem readsAs_tuple : ReadsAs keep detail ⟨.tuple elts, span⟩ := by
  obtain ⟨trailing, hentries, hone⟩ := words_tupledEntries detail elts
  refine readsAs_display h (by decide) (by decide) (fun _ => by simp [Node.pieces, hentries])
    fun k hitems => reads_tuple hitems hone fun as span' has => ?_
  exact sameCode_mk rfl rfl (congrArg Kind.tuple (map_eraseSpans_code has))

theorem readsAs_set (hne : code elts ≠ []) : ReadsAs keep detail ⟨.set elts, span⟩ := by
  obtain ⟨trailing, hentries⟩ := words_entries detail elts
  refine readsAs_display h (by decide) (by decide) (fun _ => by simp [Node.pieces, hentries])
    fun k hitems => reads_set hne hitems trailing fun as span' has => ?_
  exact sameCode_mk rfl rfl (congrArg Kind.set (map_eraseSpans_code has))

end Displays

theorem readsAs_dict {keys values : List Node} (hlength : (code values).length = (code keys).length)
    (hkeys : ∀ n ∈ code keys, ReadsAs keep detail n)
    (hvalues : ∀ n ∈ code values, ReadsAs keep detail n) :
    ReadsAs keep detail ⟨.dict keys values, span⟩ := by
  obtain ⟨trailing, hentries⟩ := words_paired fit_shown fit_shown
  simp only [Chunk.solids_shown, Chunk.solids_chunksAll, List.zip_map, List.map_map] at hentries
  have hwords : ∀ p, words (Node.pieces detail ⟨.dict keys values, span⟩ p) = (.op, "\x7b") ::
      (separated (((code keys).zip (code values)).map fun x =>
        words (x.1.pieces detail .test) ++ (.op, ":") :: words (x.2.pieces detail .test)) trailing ++
        [(.op, "\x7d")]) := fun _ => by
    rw [Node.pieces, words_append, words_append, hentries]
    rfl
  refine readsAs_bracketed (by decide) hwords fun k hk => ?_
  rw [List.length_append] at hk
  have hmem : ∀ x ∈ (code keys).zip (code values), x.1 ∈ code keys ∧ x.2 ∈ code values ∧
      (words (x.1.pieces detail .test)).length < k ∧ (words (x.2.pieces detail .test)).length < k := by
    intro x hx
    have hlong := length_le_of_mem_separated (List.mem_map_of_mem (f := fun x : Node × Node =>
      words (x.1.pieces detail .test) ++ (.op, ":") :: words (x.2.pieces detail .test)) hx) trailing
    rw [List.length_append, List.length_cons] at hlong
    obtain ⟨hkey, hvalue⟩ := List.of_mem_zip (show (x.1, x.2) ∈ _ from hx)
    exact ⟨hkey, hvalue, by omega, by omega⟩
  refine enters_atom (reads_dict
    (fun x hx => (hkeys _ (hmem x hx).1).self .test (Nat.le_refl _) (hmem x hx).2.2.1)
    (fun x hx => (hkeys _ (hmem x hx).1).begins _)
    (fun x hx => (hvalues _ (hmem x hx).2.1).self .test (Nat.le_refl _) (hmem x hx).2.2.2)
    trailing ?_)
  intro ks vs span' hks hvs
  have hkeyList := List.forall₂_map_left_iff.2 hks
  have hvalueList := List.forall₂_map_left_iff.2 hvs
  rw [List.map_fst_zip hlength.ge] at hkeyList
  rw [List.map_snd_zip hlength.le] at hvalueList
  refine sameCode_mk rfl rfl ?_
  show Kind.dict _ _ = Kind.dict _ _
  rw [map_eraseSpans_code hkeyList, map_eraseSpans_code hvalueList]
  rfl

/-! ### Calls, attributes and subscripts -/

theorem readsItem_argument (h : ReadsPart keep detail .item n)
    (hk : (words (n.pieces detail .test)).length < k) (args : List Node) :
    ReadsItem ")" (callItem keep (expression keep k) (args, [])) (words (n.pieces detail .test))
      fun items => ∃ a, n.SameCode a ∧ items = (args ++ [a], []) := by
  rcases h with h | ⟨value, span, rfl, h⟩
  · exact readsItem_positional (h.self .test (p := .test) (Nat.le_refl _) hk) (h.begins _)
      (h.unnamed _) args
  · have hself := h.self .bitwise (p := .bitOr) (Nat.le_refl _) (Nat.lt_of_succ_lt hk)
    exact readsItem_starred hself (fun _ _ ha => sameCode_starred ha) args

theorem readsItem_keyword (h : ReadsPart keep detail .keyword n)
    (hk : (words (n.pieces detail .test)).length < k) (items : List Node × List Node) :
    ReadsItem ")" (callItem keep (expression keep k) items) (words (n.pieces detail .test))
      fun items' => ∃ a, n.SameCode a ∧ items' = (items.1, items.2 ++ [a]) := by
  obtain ⟨arg, value, span, rfl, harg, h⟩ := h
  cases arg with
  | none =>
      have hself := h.self .test (p := .bitOr) (by decide) (Nat.lt_of_succ_lt hk)
      exact readsItem_mapping hself (fun _ _ ha => sameCode_keyword ha) items
  | some name =>
      have hself := h.self .test (p := .test) (by decide)
        (Nat.lt_of_succ_lt (Nat.lt_of_succ_lt hk))
      exact readsItem_named (harg name rfl).free hself (fun _ _ ha => sameCode_keyword ha) items

theorem readsAs_call {func : Node} {args keywords : List Node} (hfunc : ReadsAs keep detail func)
    (hargs : ∀ a ∈ code args, ReadsPart keep detail .item a)
    (hkeywords : ∀ a ∈ code keywords, ReadsPart keep detail .keyword a) :
    ReadsAs keep detail ⟨.call func args keywords, span⟩ := by
  have hfit : ∀ c ∈ chunksAll detail args ++ chunksAll detail keywords, c.Fit := fun c hc =>
    (List.mem_append.1 hc).elim (fit_chunksAll c) (fit_chunksAll c)
  obtain ⟨trailing, hentries⟩ := words_shown detail hfit
  rw [Chunk.solids, List.filter_append, ← Chunk.solids, ← Chunk.solids, Chunk.solids_chunksAll,
    Chunk.solids_chunksAll, List.map_append, List.map_map, List.map_map] at hentries
  have hwords : ∀ p, words (Node.pieces detail ⟨.call func args keywords, span⟩ p) =
      words (func.pieces detail .atom) ++ (.op, "(") ::
        (separated ((code args).map (fun n => words (n.pieces detail .test)) ++
          (code keywords).map fun n => words (n.pieces detail .test)) trailing ++
          [(.op, ")")]) := fun _ => by
    rw [Node.pieces, words_append, words_append, words_append, hentries]
    simp [Node.chunk, Function.comp_def]
  refine readsAs_atom hwords (fun k hk => ?_) ?_ ?_
  · simp only [List.length_append, List.length_cons] at hk
    have hlong : ∀ item ∈ (code args).map (fun n => words (n.pieces detail .test)) ++
        (code keywords).map (fun n => words (n.pieces detail .test)), item.length < k := fun item hitem =>
      (length_le_of_mem_separated hitem trailing).trans_lt (by omega)
    refine (hfunc.enters .atom k (by decide) (by omega)).call (fun stop => reads_callArguments
      (fun a ha => readsItem_argument (hargs a ha) ?_)
      (fun a ha => readsItem_keyword (hkeywords a ha) ?_) trailing) ?_
    · exact hlong _ (List.mem_append_left _ (List.mem_map_of_mem ha))
    · exact hlong _ (List.mem_append_right _ (List.mem_map_of_mem ha))
    · intro a items span' ha hitems
      refine sameCode_mk rfl rfl ?_
      show Kind.call _ _ _ = Kind.call _ _ _
      rw [map_eraseSpans_code hitems.1, map_eraseSpans_code hitems.2, ha]
      rfl
  · exact (hfunc.begins _).append _
  · exact (hfunc.unnamed _).append (hfunc.begins _).ne_nil (by simp)

theorem readsAs_attribute {value : Node} {attr : String} (h : ReadsAs keep detail value)
    (hattr : isKeyword attr = false) : ReadsAs keep detail ⟨.attribute value attr, span⟩ := by
  have hwords : ∀ p, words (Node.pieces detail ⟨.attribute value attr, span⟩ p) =
      wrapped (isIntLiteral value) (words (value.pieces detail .atom)) ++
        [(.op, "."), (.name, attr)] := fun _ => by
    simp [Node.pieces, words_enclosed]
  have hsame : ∀ a span', value.SameCode a →
      Node.SameCode ⟨.attribute value attr, span⟩ ⟨.attribute a attr, span'⟩ := fun a span' ha =>
    sameCode_mk rfl rfl (congrArg (Kind.attribute · attr) ha)
  have hvalue : ∀ k, (wrapped (isIntLiteral value) (words (value.pieces detail .atom))).length ≤ k →
      Enters keep (expression keep k) .atom
        (wrapped (isIntLiteral value) (words (value.pieces detail .atom))) value.SameCode := by
    intro k hk
    cases hint : isIntLiteral value with
    | false =>
        rw [hint] at hk
        exact h.enters .atom k (by decide) hk
    | true =>
        rw [hint, wrapped, if_pos rfl, List.length_cons, List.length_append] at hk
        exact enters_atom (reads_enclosed (h.self .test (by decide) (by omega))
          ((h.begins _).imp fun _ hw => hw.mono (by decide)))
  have hfirst : First (·.Begins .atom)
      (wrapped (isIntLiteral value) (words (value.pieces detail .atom))) ∧
      Unnamed (wrapped (isIntLiteral value) (words (value.pieces detail .atom))) := by
    cases isIntLiteral value with
    | false => exact ⟨h.begins _, h.unnamed _⟩
    | true => exact ⟨.cons (.inl (by decide)), by rintro id later ⟨⟩⟩
  refine readsAs_atom hwords (fun k hk => ?_) (hfirst.1.append _)
    (hfirst.2.append hfirst.1.ne_nil (by simp))
  rw [List.length_append] at hk
  exact (hvalue k (by omega)).member hattr hsame

theorem readsAs_subscript {value index : Node} (h : ReadsAs keep detail value)
    (hindex : ReadsPart keep detail .subscript index) :
    ReadsAs keep detail ⟨.subscript value index, span⟩ := by
  have hwords : ∀ p, words (Node.pieces detail ⟨.subscript value index, span⟩ p) =
      words (value.pieces detail .atom) ++ (.op, "[") ::
        (words (index.subscriptPieces detail) ++ [(.op, "]")]) := fun p => by
    simp [pieces_subscript]
  refine readsAs_atom hwords (fun k hk => ?_) ?_ ?_
  · simp only [List.length_append, List.length_cons] at hk
    refine (h.enters .atom k (by decide) (by omega)).subscript (hindex k (by omega)) ?_
    intro a b span' ha hb
    exact sameCode_mk rfl rfl (congrArg₂ Kind.subscript ha hb)
  · exact (h.begins _).append _
  · exact (h.unnamed _).append (h.begins _).ne_nil (by simp)

/-- An expression is printed without parentheses where the place asks for no more strength. -/
theorem pieces_of_strength (h : ¬ n.strength < p) : n.pieces detail p = n.pieces detail .tuple := by
  have hweak : ∀ s : Precedence, decide (s < .tuple) = false := fun s => by cases s <;> rfl
  have hstrong : decide (n.strength < p) = false := decide_eq_false h
  obtain ⟨kind, span⟩ := n
  cases kind with
  | boolOp | binOp | unaryOp | compare | ifExp =>
      rw [Node.pieces, Node.pieces, hweak]
      exact congrArg (enclosed · _) hstrong
  | subscript value index => rw [pieces_subscript, pieces_subscript]
  | keyword arg => cases arg <;> rfl
  | _ => rfl

/-- No expression is weaker than a test. -/
theorem pieces_tuple (detail : Detail) (n : Node) : n.pieces detail .tuple = n.pieces detail .test := by
  have htest : ∀ s : Precedence, s ≠ .tuple → ¬ s < .test := fun s => by cases s <;> decide
  refine (pieces_of_strength (htest _ ?_)).symm
  unfold Node.strength
  split
  · next op _ _ => cases op <;> decide
  · next _ op _ _ => cases op <;> decide
  · next op _ _ => cases op <;> decide
  all_goals decide

/-- An index or a slice. -/
theorem readsItem_index (h : ReadsPart keep detail .index n)
    (hk : (words (n.pieces detail .test)).length < k) :
    ReadsItem "]" (sliceItem (expression keep k)) (words (n.pieces detail .test)) n.SameCode := by
  rcases h with h | ⟨lower, upper, step, span, rfl, h⟩
  · exact ⟨reads_index (h.self .test (Nat.le_refl _) hk) (h.begins _),
      (h.begins _).imp fun _ hw => ne_op_of_begins hw (by decide)⟩
  · have hpart : ∀ (part : Option Node) before, words (piecesOption detail part before) =
        part.elim [] fun x => words before ++ words (x.pieces detail .test) := fun part before => by
      cases part <;> simp [piecesOption]
    have hwords : words (Node.pieces detail ⟨.slice lower upper step, span⟩ .test) =
        lower.elim [] (fun x => words (x.pieces detail .test)) ++ (.op, ":") ::
          (upper.elim [] (fun x => words (x.pieces detail .test)) ++
            step.elim [] fun x => (.op, ":") :: words (x.pieces detail .test)) := by
      rw [Node.pieces, words_append, words_append, words_append, hpart, hpart, hpart]
      simp
    have hlong : ∀ x ∈ lower.toList ++ (upper.toList ++ step.toList),
        (words (x.pieces detail .test)).length < k := by
      intro x hx
      rw [hwords] at hk
      simp only [List.length_append, List.length_cons] at hk
      simp only [List.mem_append, Option.mem_toList] at hx
      rcases hx with rfl | rfl | rfl <;> simp only [Option.elim_some, List.length_cons] at hk <;> omega
    have hbegins : ∀ x ∈ lower.toList ++ (upper.toList ++ step.toList),
        First (·.Begins .test) (words (x.pieces detail .test)) := fun x hx => (h x hx).begins _
    rw [hwords]
    refine ⟨reads_slice (fun x hx => (h x hx).self .test (Nat.le_refl _) (hlong x hx)) hbegins ?_, ?_⟩
    · intro a b d span' ha hb hd
      refine sameCode_mk rfl rfl ?_
      show Kind.slice _ _ _ = Kind.slice _ _ _
      rw [map_eraseSpans_option ha, map_eraseSpans_option hb, map_eraseSpans_option hd]
      rfl
    · cases lower with
      | none => exact .cons (by decide)
      | some x =>
          exact ((hbegins x (by simp)).imp fun _ hw => ne_op_of_begins hw (by decide)).append _

theorem readsSubscript_single (h : ReadsPart keep detail .index n)
    (hbare : ∀ elts, n.kind = .tuple elts → code elts = []) : ReadsPart keep detail .subscript n := by
  have hpieces : words (n.subscriptPieces detail) = words (n.pieces detail .test) := by
    rw [← pieces_tuple]
    obtain ⟨kind, span⟩ := n
    cases kind with
    | tuple elts =>
        have hnone : elts.any (!·.isTrivia) = false := by
          rw [← Bool.not_eq_true, List.any_eq_true]
          rintro ⟨e, he, hsolid⟩
          have hmem : e ∈ code elts := mem_code.2 ⟨he, by simpa using hsolid⟩
          rw [hbare elts rfl] at hmem
          cases hmem
        rw [Node.subscriptPieces]
        simp only [hnone]
        rfl
    | _ => rfl
  intro k hk
  rw [hpieces] at hk ⊢
  exact reads_single (readsItem_index h hk).reads

theorem readsSubscript_several {elts : List Node} (hne : code elts ≠ [])
    (h : ∀ e ∈ code elts, ReadsPart keep detail .index e) :
    ReadsPart keep detail .subscript ⟨.tuple elts, span⟩ := by
  obtain ⟨trailing, hentries, hone⟩ := words_tupledEntries detail elts
  have hany : elts.any (!·.isTrivia) = true := by
    obtain ⟨e, he⟩ := List.exists_mem_of_ne_nil _ hne
    exact List.any_eq_true.2 ⟨e, (mem_code.1 he).1, by simp [(mem_code.1 he).2]⟩
  have hwords : words (Node.subscriptPieces detail ⟨.tuple elts, span⟩) =
      separated ((code elts).map fun n => words (n.pieces detail .test)) trailing := by
    rw [← hentries, Node.subscriptPieces]
    simp only [hany]
    rfl
  intro k hk
  rw [hwords] at hk ⊢
  have hitems : ∀ e ∈ code elts, ReadsItem "]" (sliceItem (expression keep k))
      (words (e.pieces detail .test)) e.SameCode := fun e he =>
    readsItem_index (h e he)
      ((length_le_of_mem_separated (List.mem_map_of_mem he) trailing).trans_lt hk)
  refine reads_several hne hitems hone fun as span' has => ?_
  exact sameCode_mk rfl rfl (congrArg Kind.tuple (map_eraseSpans_code has))

end ReadsAs

/-- Every expression is read again from its words. -/
theorem readsPart (keep : Retention) (detail : Detail) {part : Part} {n : Node}
    (h : Dressed part n) : ReadsPart keep detail part n := by
  induction h with
  | name hid => exact readsAs_name hid
  | constant _ => exact readsAs_constant _
  | boolOp htwo hvalues ih => exact readsAs_boolOp htwo (fun v hv => (hvalues v hv).isTrivia) ih
  | binOp _ _ ihleft ihright => exact readsAs_binOp ihleft ihright
  | unaryOp _ ih => exact readsAs_unaryOp ih
  | compare _ hne hlength hcomparators ihleft ih =>
      exact readsAs_compare ihleft hne hlength (fun c hc => (hcomparators c hc).isTrivia) ih
  | ifExp _ _ _ ihtest ihbody ihorelse => exact readsAs_ifExp ihtest ihbody ihorelse
  | call _ _ _ _ ihfunc ihargs ihkeywords => exact readsAs_call ihfunc ihargs ihkeywords
  | member _ hattr ih => exact readsAs_attribute ih hattr.free
  | subscript _ _ ihvalue ihindex => exact readsAs_subscript ihvalue ihindex
  | list _ _ ih => exact readsAs_list ih
  | tuple _ _ ih => exact readsAs_tuple ih
  | set hne _ _ ih => exact readsAs_set ih hne
  | dict hlength _ _ _ ihkeys ihvalues => exact readsAs_dict hlength ihkeys ihvalues
  | item _ ih => exact .inl ih
  | starred _ ih => exact .inr ⟨_, _, rfl, ih⟩
  | index _ ih => exact .inl ih
  | slice _ _ _ ihlower ihupper ihstep =>
      refine .inr ⟨_, _, _, _, rfl, fun x hx => ?_⟩
      simp only [List.mem_append, Option.mem_toList] at hx
      rcases hx with hx | hx | hx
      · exact ihlower x hx
      · exact ihupper x hx
      · exact ihstep x hx
  | single _ hbare ih => exact readsSubscript_single ih hbare
  | several hne _ _ ih => exact readsSubscript_several hne ih
  | keyword harg _ ih => exact ⟨_, _, _, rfl, harg, ih⟩

end TriviaTree
