import Mathlib
import TriviaTree.Proofs.Grammar.Retention

/-!
The grammar reads words, not places.

A word is a token without its place. Of words other than names, numbers and operators the grammar
knows only the kind, but for the values of strings. A `Likeness` says which cursors it cannot tell
apart, and in which view the trees that it reads from them are the same. `Agree L view p q` says of
two parsers that on cursors alike both refuse, or both have a result, the same in `view`, and go on
alike. Every rule agrees with itself: one lemma for each way parsers are put together, then one for
each rule (`agree_module`). So texts with the same words are read as the same tree once spans are
erased (`sameWords`).
-/

set_option autoImplicit false

namespace TriviaTree

/-- A token as the grammar knows it. -/
abbrev Word := TokenKind × String

def Lexeme.word (l : Lexeme) : Word := (l.kind, l.text)

/-- The grammar reads the text of a word of this kind. -/
def TokenKind.isSpelled : TokenKind → Bool
  | .name | .int | .float | .op => true
  | _ => false

/-- Words that the grammar cannot tell apart, values of strings aside. -/
structure AlikeWords (w w' : Word) : Prop where
  kind : w.1 = w'.1
  text : w.1.isSpelled = true → w.2 = w'.2

theorem AlikeWords.refl (w : Word) : AlikeWords w w :=
  ⟨rfl, fun _ => rfl⟩

namespace AlikeWords

variable {l l' : Lexeme} (h : AlikeWords l.word l'.word)

include h

theorem text_of_kind {kind : TokenKind} (hkind : l'.kind = kind) (hspelled : kind.isSpelled = true) :
    l.text = l'.text := by
  refine h.text ?_
  rw [show l.word.1 = kind from h.kind.trans hkind, hspelled]

theorem isOp_eq (op : String) : l.isOp op = l'.isOp op := by
  have hkind : l.kind = l'.kind := h.kind
  by_cases hop : l'.kind = .op
  · simp [Lexeme.isOp, hkind, h.text_of_kind hop rfl]
  · simp [Lexeme.isOp, hkind, hop]

theorem isKeyword_eq (keyword : String) : l.isKeyword keyword = l'.isKeyword keyword := by
  have hkind : l.kind = l'.kind := h.kind
  by_cases hname : l'.kind = .name
  · simp [Lexeme.isKeyword, hkind, h.text_of_kind hname rfl]
  · simp [Lexeme.isKeyword, hkind, hname]

end AlikeWords

namespace Node

theorem eraseSpans_mk {kind : Kind Node} {span : Option Span} (h : kind.isTrivia = false) :
    (Node.mk kind span).eraseSpans = ⟨kind.map eraseSpans, none⟩ := by
  rw [eraseSpans]
  cases kind <;> simp [Kind.isTrivia] at h <;>
    simp [Kind.map, Kind.contents, Kind.withContents, Kind.withPayload, List.head?_map]

end Node

namespace Grammar

/-! ### Cursors alike -/

/-- The words from the cursor on. -/
def Cursor.words (c : Cursor) : List Word :=
  (c.current :: c.ahead).map Lexeme.word

variable {α β γ δ : Type} {operand operand' : Parser Node}

/-- Both refuse, or both have a result that looks the same and go on with cursors alike. -/
inductive Alike (near : Cursor → Cursor → Prop) (view : α → γ) :
    Except SyntaxError (α × Cursor) → Except SyntaxError (α × Cursor) → Prop
  | error {e e' : SyntaxError} : Alike near view (.error e) (.error e')
  | ok {a b : α} {c d : Cursor} (h : view a = view b) (hnear : near c d) :
      Alike near view (.ok (a, c)) (.ok (b, d))

/-- Cursors that are alike, and the view in which the trees read from them are the same. -/
structure Likeness where
  near : Cursor → Cursor → Prop
  view : Node → Node
  current {c d : Cursor} (h : near c d) : AlikeWords c.current.word d.current.word
  next {c d : Cursor} (h : near c d) : AlikeWords c.next.word d.next.word
  advance {c d : Cursor} (h : near c d) : near c.advance d.advance
  remaining {c d : Cursor} (h : near c d) : c.remaining = d.remaining
  strings (n : Nat) {c d : Cursor} (h : near c d) :
    Alike near (fun parts => view ⟨.constant (.str (String.join parts)), none⟩)
      (stringTail n c) (stringTail n d)
  /-- Nodes look the same when their layers do, child by child. -/
  view_mk {kind kind' : Kind Node} {span span' : Option Span} (h : kind.isTrivia = false)
    (h' : kind'.isTrivia = false) (hkind : kind.map view = kind'.map view) :
    view ⟨kind, span⟩ = view ⟨kind', span'⟩

section Cursors

variable {L : Likeness} {c d : Cursor} (h : L.near c d)

include h

theorem Cursor.kind_eq : c.current.kind = d.current.kind :=
  (L.current h).kind

theorem Cursor.text_eq {kind : TokenKind} (hkind : d.current.kind = kind)
    (hspelled : kind.isSpelled = true) : c.current.text = d.current.text :=
  (L.current h).text_of_kind hkind hspelled

theorem Cursor.atOp_eq (op : String) : c.atOp op = d.atOp op :=
  (L.current h).isOp_eq op

theorem Cursor.atKeyword_eq (keyword : String) : c.atKeyword keyword = d.atKeyword keyword :=
  (L.current h).isKeyword_eq keyword

theorem Cursor.atKind_eq (kind : TokenKind) : c.atKind kind = d.atKind kind := by
  simp [atKind, kind_eq h]

theorem Cursor.next_isOp_eq (op : String) : c.next.isOp op = d.next.isOp op :=
  (L.next h).isOp_eq op

theorem Cursor.next_isKeyword_eq (keyword : String) :
    c.next.isKeyword keyword = d.next.isKeyword keyword :=
  (L.next h).isKeyword_eq keyword

theorem Cursor.startsExpression_eq : c.startsExpression = d.startsExpression := by
  simp only [startsExpression, kind_eq h]
  cases hkind : d.current.kind with
  | name | op => simp only [text_eq h hkind rfl]
  | _ => rfl

theorem Cursor.binaryOp?_eq (level : List BinaryOp) : c.binaryOp? level = d.binaryOp? level := by
  simp only [binaryOp?, atOp_eq h]

theorem Cursor.compareOp?_eq : c.compareOp? = d.compareOp? := by
  simp only [compareOp?, atOp_eq h, atKeyword_eq h, next_isKeyword_eq h]

theorem Cursor.augmentedOp?_eq : c.augmentedOp? = d.augmentedOp? := by
  simp only [augmentedOp?, atOp_eq h]

theorem Cursor.wordStatement?_eq : c.wordStatement? = d.wordStatement? := by
  simp only [wordStatement?, atKeyword_eq h]

theorem Cursor.sign?_eq : sign? c.current = sign? d.current := by
  simp only [sign?]
  rw [show c.current.isOp = d.current.isOp from funext (atOp_eq h)]

end Cursors

/-! ### Parsers that agree -/

/-- On cursors alike both parsers refuse, or both have a result that looks the same in `view`. -/
def Agree (L : Likeness) (view : α → γ) (p q : Parser α) : Prop :=
  ∀ ⦃c d : Cursor⦄, L.near c d → Alike L.near view (p c) (q d)

variable {L : Likeness}

namespace Agree

variable {view : α → γ} {view' : β → δ} {p q p' q' : Parser α}

theorem pure {a b : α} (h : view a = view b) : Agree L view (Pure.pure a) (Pure.pure b) :=
  fun _ _ hwords => .ok h hwords

theorem fail (fault fault' : SyntaxFault) : Agree L view (Grammar.fail fault) (Grammar.fail fault') :=
  fun _ _ _ => .error

theorem failFound (fault fault' : Found → SyntaxFault) :
    Agree L view (Grammar.failFound fault) (Grammar.failFound fault') :=
  fun _ _ _ => .error

theorem bind {f g : α → Parser β} (first : Agree L view p q)
    (second : ∀ a b, view a = view b → Agree L view' (f a) (g b)) :
    Agree L view' (p >>= f) (q >>= g) := by
  intro c d hwords
  have hfirst := first hwords
  show Alike L.near view' (Except.bind (p c) fun run => f run.1 run.2)
    (Except.bind (q d) fun run => g run.1 run.2)
  generalize p c = x at *
  generalize q d = y at *
  cases hfirst with
  | error => exact .error
  | ok h hwords => exact second _ _ h hwords

theorem ite {P : Prop} [Decidable P] (hthen : Agree L view p q) (helse : Agree L view p' q') :
    Agree L view (if P then p else p') (if P then q else q') := by
  split
  · exact hthen
  · exact helse

theorem get {f g : Cursor → Parser α} (h : ∀ c d : Cursor, L.near c d → Agree L view (f c) (g d)) :
    Agree L view (MonadState.get >>= f) (MonadState.get >>= g) :=
  fun c d hwords => h c d hwords hwords

theorem mark {f g : Location → Parser α} (h : ∀ start start', Agree L view (f start) (g start')) :
    Agree L view (Grammar.mark >>= f) (Grammar.mark >>= g) :=
  fun _ _ hwords => h _ _ hwords

theorem bump {f g : Lexeme → Parser α}
    (h : ∀ l l' : Lexeme, AlikeWords l.word l'.word → Agree L view (f l) (g l')) :
    Agree L view (Grammar.bump >>= f) (Grammar.bump >>= g) :=
  fun _ _ hwords => h _ _ (L.current hwords) (L.advance hwords)

/-- A lexeme that is read and forgotten. -/
theorem skip (h : Agree L view p q) :
    Agree L view (Grammar.bump >>= fun _ => p) (Grammar.bump >>= fun _ => q) :=
  .bump fun _ _ _ => h

theorem atOp (op : String) {f g : Bool → Parser α} (h : ∀ found, Agree L view (f found) (g found)) :
    Agree L view (Grammar.atOp op >>= f) (Grammar.atOp op >>= g) := by
  intro c d hwords
  show Alike L.near view (f (c.atOp op) c) (g (d.atOp op) d)
  rw [Cursor.atOp_eq hwords]
  exact h _ hwords

theorem atKeyword (keyword : String) {f g : Bool → Parser α}
    (h : ∀ found, Agree L view (f found) (g found)) :
    Agree L view (Grammar.atKeyword keyword >>= f) (Grammar.atKeyword keyword >>= g) := by
  intro c d hwords
  show Alike L.near view (f (c.atKeyword keyword) c) (g (d.atKeyword keyword) d)
  rw [Cursor.atKeyword_eq hwords]
  exact h _ hwords

theorem atKind (kind : TokenKind) {f g : Bool → Parser α}
    (h : ∀ found, Agree L view (f found) (g found)) :
    Agree L view (Grammar.atKind kind >>= f) (Grammar.atKind kind >>= g) := by
  intro c d hwords
  show Alike L.near view (f (c.atKind kind) c) (g (d.atKind kind) d)
  rw [Cursor.atKind_eq hwords]
  exact h _ hwords

theorem expectOp (op : String) (h : Agree L view p q) :
    Agree L view (Grammar.expectOp op >>= fun _ => p) (Grammar.expectOp op >>= fun _ => q) := by
  have hread : Agree L id (Grammar.expectOp op) (Grammar.expectOp op) :=
    .atOp op fun _ => .ite (.skip (.pure rfl)) (.failFound _ _)
  exact hread.bind fun _ _ _ => h

theorem expectKeyword (keyword : String) (h : Agree L view p q) :
    Agree L view (Grammar.expectKeyword keyword >>= fun _ => p)
      (Grammar.expectKeyword keyword >>= fun _ => q) := by
  have hread : Agree L id (Grammar.expectKeyword keyword) (Grammar.expectKeyword keyword) :=
    .atKeyword keyword fun _ => .ite (.skip (.pure rfl)) (.failFound _ _)
  exact hread.bind fun _ _ _ => h

theorem expectKind (kind : TokenKind) (fault : Found → SyntaxFault) (h : Agree L view p q) :
    Agree L view (Grammar.expectKind kind fault >>= fun _ => p)
      (Grammar.expectKind kind fault >>= fun _ => q) := by
  have hread : Agree L id (Grammar.expectKind kind fault) (Grammar.expectKind kind fault) :=
    .atKind kind fun _ => .ite (.skip (.pure rfl)) (.failFound _ _)
  exact hread.bind fun _ _ _ => h

theorem expectIdentifier {f g : String → Parser α} (h : ∀ name, Agree L view (f name) (g name)) :
    Agree L view (Grammar.expectIdentifier >>= f) (Grammar.expectIdentifier >>= g) := by
  have hread : Agree L id Grammar.expectIdentifier Grammar.expectIdentifier := by
    intro c d hwords
    have hkind := Cursor.kind_eq hwords
    cases hc : Grammar.expectIdentifier c with
    | ok run =>
        obtain ⟨name, c'⟩ := run
        obtain ⟨⟨hname, hfree⟩, hnext, rfl⟩ := expectIdentifier_ok.1 hc
        have htext := Cursor.text_eq hwords (hkind.symm.trans hname) rfl
        rw [expectIdentifier_ok.2 ⟨⟨hkind.symm.trans hname, htext ▸ hfree⟩, rfl, rfl⟩]
        exact .ok htext (hnext ▸ L.advance hwords)
    | error e =>
        cases hd : Grammar.expectIdentifier d with
        | error e' => exact .error
        | ok run =>
            obtain ⟨⟨hname, hfree⟩, _⟩ := expectIdentifier_ok.1 hd
            have htext := Cursor.text_eq hwords hname rfl
            rw [expectIdentifier_ok.2 ⟨⟨hkind.trans hname, htext ▸ hfree⟩, rfl, rfl⟩] at hc
            cases hc
  refine hread.bind fun name name' hname => ?_
  cases hname
  exact h name

/-- A node over what has been read. -/
theorem close {kind kind' : Kind Node} {start start' : Location} (h : kind.isTrivia = false)
    (h' : kind'.isTrivia = false)
    (hkind : kind.map L.view = kind'.map L.view) :
    Agree L L.view (Grammar.close kind start) (Grammar.close kind' start') :=
  fun _ _ hwords => .ok (L.view_mk h h' hkind) hwords

theorem closeFull (keep : Retention) {kind kind' : Kind Node} {start start' : Location}
    (h : kind.isTrivia = false) (h' : kind'.isTrivia = false)
    (hkind : kind.map L.view = kind'.map L.view) :
    Agree L L.view (Grammar.closeFull keep kind start)
      (Grammar.closeFull keep kind' start') := by
  cases keep with
  | native => exact .pure (L.view_mk h h' hkind)
  | full => exact .close h h' hkind

/-- Both loops have the same fuel. -/
theorem bounded {loop loop' : Nat → Parser α} (h : ∀ n, Agree L view (loop n) (loop' n)) :
    Agree L view (Grammar.bounded loop) (Grammar.bounded loop') := by
  refine .get fun c d hwords => ?_
  rw [L.remaining hwords]
  exact h _

end Agree

section Loops

variable {view : α → γ} {item item' : Parser α} (hitem : Agree L view item item')

include hitem

theorem agree_commaTail {stop : Cursor → Bool}
    (hstop : ∀ c d : Cursor, L.near c d → stop c = stop d) (n : Nat) :
    Agree L (List.map view) (commaTail stop item n) (commaTail stop item' n) := by
  induction n with
  | zero => exact .pure rfl
  | succ n ih =>
      refine .atOp "," fun _ => .ite (.pure rfl) (.skip (.get fun c d hwords => ?_))
      rw [hstop c d hwords]
      exact .ite (.pure rfl) (hitem.bind fun x y hxy => ih.bind fun xs ys hxys =>
        .pure (by simp [hxy, hxys]))

theorem agree_itemsUntil (closer : String) (n : Nat) :
    Agree L (List.map view) (itemsUntil closer item n) (itemsUntil closer item' n) := by
  induction n with
  | zero => exact .pure rfl
  | succ n ih =>
      refine .atOp closer fun _ => .ite (.pure rfl) (hitem.bind fun x y hxy => ?_)
      exact .atOp "," fun _ => .ite (.pure (by simp [hxy])) (.skip (ih.bind fun xs ys hxys =>
        .pure (by simp [hxy, hxys])))

end Loops

/-! ### Expressions -/

attribute [local simp] Kind.map

section Expressions

variable {self self' : Self}
    (hself : ∀ entry, Agree L L.view (self entry) (self' entry))

include hself

variable (keep : Retention)

theorem agree_starred : Agree L L.view (starred self) (starred self') :=
  .mark fun _ _ => .expectOp "*" ((hself .bitwise).bind fun _ _ hvalue =>
    .close rfl rfl (by simp [hvalue]))

theorem agree_starredOrTest : Agree L L.view (starredOrTest self) (starredOrTest self') :=
  .atOp "*" fun _ => .ite (agree_starred hself) (hself .test)

theorem agree_displayItems (closer : String) : Agree L (List.map L.view)
    (displayItems self closer) (displayItems self' closer) :=
  (Agree.bounded (agree_itemsUntil (agree_starredOrTest hself) closer)).bind fun _ _ hitems =>
    .expectOp closer (.pure hitems)

theorem agree_parenthesized : Agree L L.view (parenthesized self) (parenthesized self') := by
  refine .mark fun _ _ => .expectOp "(" (.atOp ")" fun _ => .ite ?_ ?_)
  · exact .skip (.close rfl rfl rfl)
  · refine (agree_starredOrTest hself).bind fun _ _ hfirst => .atOp ")" fun _ => .ite ?_ ?_
    · exact .skip (.pure hfirst)
    · exact .expectOp "," ((agree_displayItems hself ")").bind fun _ _ hrest =>
        .close rfl rfl (by simp [hfirst, hrest]))

theorem agree_dictPair : Agree L (Prod.map L.view L.view) (dictPair self) (dictPair self') :=
  (hself .test).bind fun _ _ hkey => .expectOp ":" ((hself .test).bind fun _ _ hvalue =>
    .pure (by simp [hkey, hvalue]))

theorem agree_braced : Agree L L.view (braced self) (braced self') := by
  refine .mark fun _ _ => .expectOp _ (.atOp _ fun _ => .ite ?_ ?_)
  · exact .skip (.close rfl rfl rfl)
  refine (agree_starredOrTest hself).bind fun _ _ hfirst => .atOp ":" fun _ => .ite ?_ ?_
  · refine .skip ((hself .test).bind fun _ _ hvalue => ?_)
    refine (Agree.bounded (agree_commaTail (agree_dictPair hself) fun _ _ hwords =>
      Cursor.atOp_eq hwords _)).bind fun pairs pairs' hpairs => .expectOp _ (.close rfl rfl ?_)
    have hkeys := congrArg (List.map Prod.fst) hpairs
    have hvalues := congrArg (List.map Prod.snd) hpairs
    simp only [List.map_map, Function.comp_def, Prod.map_fst, Prod.map_snd] at hkeys hvalues
    simp [hfirst, hvalue, Function.comp_def, hkeys, hvalues]
  · refine .atOp "," fun _ => .ite ?_ ?_
    · exact .skip ((agree_displayItems hself _).bind fun _ _ hrest =>
        .close rfl rfl (by simp [hfirst, hrest]))
    · exact .expectOp _ (.close rfl rfl (by simp [hfirst]))

theorem agree_atom : Agree L L.view (atom self) (atom self') := by
  refine .mark fun _ _ => .get fun c d hwords => ?_
  simp only [Cursor.kind_eq hwords]
  cases hkind : d.current.kind with
  | name =>
      simp only [Cursor.text_eq hwords hkind rfl]
      cases keywordConstant? d.current.text with
      | some value => exact .skip (.close rfl rfl rfl)
      | none => exact .ite (.fail _ _) (.skip (.close rfl rfl rfl))
  | int | float =>
      simp only [Cursor.text_eq hwords hkind rfl]
      exact .skip (.close rfl rfl rfl)
  | str =>
      refine Agree.bind (.bounded fun n _ _ h => L.strings n h) fun parts parts' hparts c d hwords => ?_
      exact .ok ((L.view_mk rfl rfl rfl).trans (hparts.trans (L.view_mk rfl rfl rfl))) hwords
  | op =>
      simp only [Cursor.text_eq hwords hkind rfl]
      refine .ite (agree_parenthesized hself) (.ite ?_ (.ite (agree_braced hself) (.failFound _ _)))
      exact .skip ((agree_displayItems hself "]").bind fun _ _ helts =>
        .close rfl rfl (by simp [helts]))
  | newline | indent | dedent | comment | endMarker => exact .failFound _ _

omit hself in
/-- Lists of arguments, by position and by name, in the view of their nodes. -/
abbrev Likeness.items (L : Likeness) (items : List Node × List Node) : List Node × List Node :=
  (items.1.map L.view, items.2.map L.view)

theorem agree_callItems (n : Nat) {args args' keywords keywords' : List Node}
    (hargs : args.map L.view = args'.map L.view)
    (hkeywords : keywords.map L.view = keywords'.map L.view) :
    Agree L L.items (callItems keep self n args keywords)
      (callItems keep self' n args' keywords') := by
  induction n generalizing args args' keywords keywords' with
  | zero => exact .pure (by simp [hargs, hkeywords])
  | succ n ih =>
      have hempty : keywords.isEmpty = keywords'.isEmpty := by
        simpa using congrArg List.isEmpty hkeywords
      have hnext : ∀ items items', L.items items = L.items items' → Agree L L.items
          (do if !(← atOp ",") then return (items.1, items.2)
              let _ ← bump
              callItems keep self n items.1 items.2)
          (do if !(← atOp ",") then return (items'.1, items'.2)
              let _ ← bump
              callItems keep self' n items'.1 items'.2) :=
        fun items items' hitems => .atOp "," fun _ => .ite (.pure hitems)
          (.skip (ih (congrArg Prod.fst hitems) (congrArg Prod.snd hitems)))
      refine .atOp ")" fun _ => .ite (.pure (by simp [hargs, hkeywords])) ?_
      refine .mark fun _ _ => .get fun c d hwords => ?_
      simp only [Cursor.atOp_eq hwords, Cursor.atKind_eq hwords, Cursor.next_isOp_eq hwords, hempty]
      refine .ite ?_ (.ite ?_ (.ite ?_ (.ite ?_ ?_)))
      · exact (agree_starred hself).bind fun _ _ harg =>
          .bind (.pure (by simp [harg, hargs, hkeywords])) hnext
      · refine .skip ((hself .test).bind fun _ _ hvalue => ?_)
        exact (Agree.closeFull keep rfl rfl (by simp [hvalue])).bind fun _ _ hkeyword =>
          .bind (.pure (by simp [hkeyword, hargs, hkeywords])) hnext
      · refine .expectIdentifier fun name => .skip ((hself .test).bind fun _ _ hvalue => ?_)
        exact (Agree.closeFull keep rfl rfl (by simp [hvalue])).bind fun _ _ hkeyword =>
          .bind (.pure (by simp [hkeyword, hargs, hkeywords])) hnext
      · exact (hself .test).bind fun _ _ harg =>
          .bind (.pure (by simp [harg, hargs, hkeywords])) hnext
      · exact .bind (.fail _ _) hnext

theorem agree_callArguments :
    Agree L L.items (callArguments keep self) (callArguments keep self') :=
  .expectOp "(" ((Agree.bounded fun n => agree_callItems hself keep n rfl rfl).bind
    fun _ _ hitems => .expectOp ")" (.pure hitems))

theorem agree_slicePart : Agree L (Option.map L.view) (slicePart self) (slicePart self') := by
  refine .get fun c d hwords => ?_
  simp only [Cursor.atOp_eq hwords]
  exact .ite (.pure rfl) ((hself .test).bind fun _ _ hpart => .pure (by simp [hpart]))

theorem agree_sliceTail {lower lower' : Option Node} (start start' : Location)
    (hlower : lower.map L.view = lower'.map L.view) :
    Agree L L.view (sliceTail self lower start) (sliceTail self' lower' start') := by
  refine .expectOp ":" ((agree_slicePart hself).bind fun _ _ hupper => .atOp ":" fun _ => .ite ?_ ?_)
  · exact .skip ((agree_slicePart hself).bind fun _ _ hstep =>
      .close rfl rfl (by simp [hlower, hupper, hstep]))
  · exact .close rfl rfl (by simp [hlower, hupper])

theorem agree_sliceItem : Agree L L.view (sliceItem self) (sliceItem self') := by
  refine .mark fun start start' => .atOp ":" fun _ => .ite (agree_sliceTail hself start start' rfl) ?_
  refine (hself .test).bind fun _ _ hlower => .atOp ":" fun _ => .ite ?_ (.pure hlower)
  exact agree_sliceTail hself start start' (by simp [hlower])

theorem agree_subscriptItems : Agree L L.view (subscriptItems self) (subscriptItems self') := by
  refine .mark fun _ _ => (agree_sliceItem hself).bind fun _ _ hfirst => ?_
  refine .atOp "," fun _ => .ite (.pure hfirst) ?_
  exact (Agree.bounded (agree_commaTail (agree_sliceItem hself) fun _ _ hwords =>
    Cursor.atOp_eq hwords _)).bind fun _ _ hrest => .close rfl rfl (by simp [hfirst, hrest])

theorem agree_trailers (start start' : Location) (n : Nat) {node node' : Node}
    (hnode : L.view node = L.view node') :
    Agree L L.view (trailers keep self start n node)
      (trailers keep self' start' n node') := by
  induction n generalizing node node' with
  | zero => exact .pure hnode
  | succ n ih =>
      refine .atOp "(" fun _ => .ite ?_ (.atOp "[" fun _ => .ite ?_ (.atOp "." fun _ => .ite ?_ ?_))
      · refine (agree_callArguments hself keep).bind fun items items' hitems => ?_
        have hargs : items.1.map L.view = items'.1.map L.view :=
          congrArg Prod.fst hitems
        have hkeywords : items.2.map L.view = items'.2.map L.view :=
          congrArg Prod.snd hitems
        exact (Agree.close rfl rfl (by simp [hnode, hargs, hkeywords])).bind fun _ _ => ih
      · refine .skip ((agree_subscriptItems hself).bind fun _ _ hindex => .expectOp "]" ?_)
        exact (Agree.close rfl rfl (by simp [hnode, hindex])).bind fun _ _ => ih
      · refine .skip (.expectIdentifier fun attr => ?_)
        exact (Agree.close rfl rfl (by simp [hnode])).bind fun _ _ => ih
      · exact .pure hnode

theorem agree_primary : Agree L L.view (primary keep self) (primary keep self') :=
  .mark fun start start' => (agree_atom hself).bind fun _ _ hfirst =>
    .bounded fun n => agree_trailers hself keep start start' n hfirst

/-! ### Operators -/

theorem agree_power : Agree L L.view (power keep self) (power keep self') := by
  refine .mark fun _ _ => (agree_primary hself keep).bind fun _ _ hbase => .atOp "**" fun _ => ?_
  refine .ite (.skip ((hself .factor).bind fun _ _ hexponent => ?_)) (.pure hbase)
  exact .close rfl rfl (by simp [hbase, hexponent])

theorem agree_factor : Agree L L.view (factor keep self) (factor keep self') := by
  refine .mark fun _ _ => .get fun c d hwords => ?_
  rw [Cursor.sign?_eq hwords]
  cases sign? d.current with
  | some op =>
      exact .skip ((hself .factor).bind fun _ _ hoperand => .close rfl rfl (by simp [hoperand]))
  | none => exact agree_power hself keep

omit hself in
theorem agree_binaryTail (level : List BinaryOp) (hoperand : Agree L L.view operand operand')
    (start start' : Location) (n : Nat) {left left' : Node} (hleft : L.view left = L.view left') :
    Agree L L.view (binaryTail level operand start n left)
      (binaryTail level operand' start' n left') := by
  induction n generalizing left left' with
  | zero => exact .pure hleft
  | succ n ih =>
      refine .get fun c d hwords => ?_
      rw [Cursor.binaryOp?_eq hwords]
      cases d.binaryOp? level with
      | none => exact .pure hleft
      | some op =>
          refine .skip (hoperand.bind fun _ _ hright => ?_)
          exact (Agree.close rfl rfl (by simp [hleft, hright])).bind fun _ _ => ih

theorem agree_binary (levels : List (List BinaryOp)) :
    Agree L L.view (binary keep self levels) (binary keep self' levels) := by
  induction levels with
  | nil => exact agree_factor hself keep
  | cons level stronger ih =>
      exact .mark fun start start' => ih.bind fun _ _ hleft =>
        .bounded fun n => agree_binaryTail level ih start start' n hleft

/-- An operator and an operand, in the view of its node. -/
abbrev Likeness.pair (L : Likeness) (pair : CompareOp × Node) : CompareOp × Node :=
  (pair.1, L.view pair.2)

omit hself in
theorem agree_compareTail (hoperand : Agree L L.view operand operand') (n : Nat) :
    Agree L (List.map L.pair) (compareTail operand n) (compareTail operand' n) := by
  induction n with
  | zero => exact .pure rfl
  | succ n ih =>
      have hnext (op : CompareOp) : Agree L (List.map L.pair)
          (operand >>= fun right => compareTail operand n >>= fun rest => pure ((op, right) :: rest))
          (operand' >>= fun right =>
            compareTail operand' n >>= fun rest => pure ((op, right) :: rest)) :=
        hoperand.bind fun _ _ hright => ih.bind fun _ _ hrest => .pure (by simp [hright, hrest])
      refine .get fun c d hwords => ?_
      rw [Cursor.compareOp?_eq hwords]
      cases d.compareOp? with
      | none => exact .pure rfl
      | some found => exact .skip (.ite (.skip (hnext _)) (hnext _))

theorem agree_comparison : Agree L L.view (comparison keep self) (comparison keep self') := by
  have hoperand := agree_binary hself keep binaryLevels
  refine .mark fun _ _ => hoperand.bind fun _ _ hleft => ?_
  refine (Agree.bounded (agree_compareTail hoperand)).bind fun rest rest' hrest => ?_
  have hempty : rest.isEmpty = rest'.isEmpty := by simpa using congrArg List.isEmpty hrest
  have hops := congrArg (List.map Prod.fst) hrest
  have hoperands := congrArg (List.map Prod.snd) hrest
  simp only [List.map_map, Function.comp_def] at hops hoperands
  rw [hempty]
  exact .ite (.pure hleft) (.close rfl rfl (by simp [hleft, hops, hoperands, Function.comp_def]))

theorem agree_negation : Agree L L.view (negation keep self) (negation keep self') := by
  refine .atKeyword "not" fun _ => .ite (.mark fun _ _ => .skip ?_) (agree_comparison hself keep)
  exact (hself .negation).bind fun _ _ hoperand => .close rfl rfl (by simp [hoperand])

omit hself in
theorem agree_boolTail (op : BoolOp) (hoperand : Agree L L.view operand operand') (n : Nat) :
    Agree L (List.map L.view) (boolTail op operand n) (boolTail op operand' n) := by
  induction n with
  | zero => exact .pure rfl
  | succ n ih =>
      refine .atKeyword _ fun _ => .ite (.pure rfl) (.skip (hoperand.bind fun _ _ hx => ?_))
      exact ih.bind fun _ _ hxs => .pure (by simp [hx, hxs])

omit hself in
theorem agree_boolChain (op : BoolOp) (hoperand : Agree L L.view operand operand') :
    Agree L L.view (boolChain op operand) (boolChain op operand') := by
  refine .mark fun _ _ => hoperand.bind fun _ _ hfirst => ?_
  refine (Agree.bounded (agree_boolTail op hoperand)).bind fun rest rest' hrest => ?_
  have hempty : rest.isEmpty = rest'.isEmpty := by simpa using congrArg List.isEmpty hrest
  rw [hempty]
  exact .ite (.pure hfirst) (.close rfl rfl (by simp [hfirst, hrest]))

theorem agree_disjunction : Agree L L.view (disjunction keep self) (disjunction keep self') :=
  agree_boolChain .or (agree_boolChain .and (agree_negation hself keep))

theorem agree_test : Agree L L.view (test keep self) (test keep self') := by
  refine .mark fun _ _ => (agree_disjunction hself keep).bind fun _ _ hbody => ?_
  refine .atKeyword "if" fun _ => .ite (.skip ?_) (.pure hbody)
  refine (agree_disjunction hself keep).bind fun _ _ hcondition => .expectKeyword "else" ?_
  exact (hself .test).bind fun _ _ horelse => .close rfl rfl (by simp [hbody, hcondition, horelse])

end Expressions

section Statements

variable (keep : Retention)

theorem agree_expression (n : Nat) (entry : Entry) :
    Agree L L.view (expression keep n entry) (expression keep n entry) := by
  induction n generalizing entry with
  | zero => exact .fail _ _
  | succ n ih =>
      cases entry with
      | test => exact agree_test ih keep
      | negation => exact agree_negation ih keep
      | bitwise => exact agree_binary ih keep binaryLevels
      | factor => exact agree_factor ih keep

theorem agree_commaList {item item' : Parser Node} (hitem : Agree L L.view item item') :
    Agree L L.view (commaList item) (commaList item') := by
  refine .mark fun _ _ => hitem.bind fun _ _ hfirst => .atOp "," fun _ => .ite (.pure hfirst) ?_
  refine (Agree.bounded (agree_commaTail hitem fun c d hwords => ?_)).bind fun _ _ hrest => ?_
  · rw [Cursor.startsExpression_eq hwords]
  · exact .close rfl rfl (by simp [hfirst, hrest])

theorem agree_withExpressions {view : α → γ} {rule : Self → Parser α}
    (h : ∀ n, Agree L view (rule (expression keep n)) (rule (expression keep n))) :
    Agree L view (withExpressions keep rule) (withExpressions keep rule) := by
  refine .get fun c d hwords => ?_
  rw [L.remaining hwords]
  exact h _

theorem agree_anyTest : Agree L L.view (anyTest keep) (anyTest keep) :=
  agree_withExpressions keep fun n => agree_expression keep n .test

theorem agree_anyList : Agree L L.view (anyList keep) (anyList keep) :=
  agree_withExpressions keep fun n => agree_commaList (agree_starredOrTest (agree_expression keep n))

theorem agree_targetList : Agree L L.view (targetList keep) (targetList keep) :=
  agree_withExpressions keep fun n => agree_commaList
    (.atOp "*" fun _ =>
      .ite (agree_starred (agree_expression keep n)) (agree_expression keep n .bitwise))

/-! ### Statements -/

theorem agree_assignTail (n : Nat) :
    Agree L (List.map L.view) (assignTail keep n) (assignTail keep n) := by
  induction n with
  | zero => exact .pure rfl
  | succ n ih =>
      refine .atOp "=" fun _ => .ite (.pure rfl) (.skip ((agree_anyList keep).bind fun _ _ hx => ?_))
      exact ih.bind fun _ _ hxs => .pure (by simp [hx, hxs])

theorem agree_smallStatement : Agree L L.view (smallStatement keep) (smallStatement keep) := by
  refine .mark fun _ _ => .get fun c d hwords => ?_
  simp only [Cursor.wordStatement?_eq hwords, Cursor.atKeyword_eq hwords]
  cases hword : d.wordStatement? with
  | some kind =>
      obtain rfl | rfl | rfl := wordStatement?_cases hword <;> exact .skip (.close rfl rfl rfl)
  | none =>
      refine .ite (.skip (.get fun c d hwords => ?_)) ?_
      · rw [Cursor.startsExpression_eq hwords]
        refine .ite ((agree_anyList keep).bind fun _ _ hvalue => ?_) (.close rfl rfl rfl)
        exact .close rfl rfl (by simp [hvalue])
      refine (agree_anyList keep).bind fun _ _ hfirst => .get fun c d hwords => ?_
      rw [Cursor.augmentedOp?_eq hwords]
      cases d.augmentedOp? with
      | some op =>
          exact .skip ((agree_anyList keep).bind fun _ _ hvalue =>
            .close rfl rfl (by simp [hfirst, hvalue]))
      | none =>
          refine (Agree.bounded (agree_assignTail keep)).bind fun rest rest' hrest => ?_
          have hlast := congrArg List.getLast? hrest
          have hinit := congrArg List.dropLast hrest
          simp only [List.getLast?_map, ← List.map_dropLast] at hlast hinit
          cases hvalue : rest.getLast? with
          | none =>
              obtain hvalue' : rest'.getLast? = none := by simpa [hvalue] using hlast.symm
              rw [hvalue']
              exact .close rfl rfl (by simp [hfirst])
          | some value =>
              rw [hvalue, Option.map_some, eq_comm, Option.map_eq_some_iff] at hlast
              obtain ⟨value', hvalue', hsame⟩ := hlast
              rw [hvalue']
              exact .close rfl rfl (by simp [hfirst, hinit, hsame])

theorem agree_semicolonTail (n : Nat) :
    Agree L (List.map L.view) (semicolonTail keep n) (semicolonTail keep n) := by
  induction n with
  | zero => exact .pure rfl
  | succ n ih =>
      refine .atOp ";" fun _ => .ite (.pure rfl) (.skip (.get fun c d hwords => ?_))
      simp only [Cursor.atKind_eq hwords]
      refine .ite (.pure rfl) ((agree_smallStatement keep).bind fun _ _ hx => ?_)
      exact ih.bind fun _ _ hxs => .pure (by simp [hx, hxs])

theorem agree_simpleStatements :
    Agree L (List.map L.view) (simpleStatements keep) (simpleStatements keep) := by
  refine (agree_smallStatement keep).bind fun _ _ hfirst => ?_
  refine (Agree.bounded (agree_semicolonTail keep)).bind fun _ _ hrest => ?_
  have hdone : ∀ first first' rest rest', L.view first = L.view first' →
      rest.map L.view = rest'.map L.view → Agree L (List.map L.view)
        (pure (first :: rest)) (pure (first' :: rest')) :=
    fun _ _ _ _ hfirst hrest => .pure (by simp [hfirst, hrest])
  exact .atKind .endMarker fun _ => .ite (.expectKind .newline _ (hdone _ _ _ _ hfirst hrest))
    (hdone _ _ _ _ hfirst hrest)

/-! ### Parameters -/

/-- The parameters read so far, in the view of their nodes. -/
def Parameters.viewed (L : Likeness) (ps : Parameters) : Parameters :=
  { args := ps.args.map L.view
    star := ps.star
    vararg := ps.vararg.map L.view
    kwonlyargs := ps.kwonlyargs.map L.view
    kwarg := ps.kwarg.map L.view }

theorem agree_parameter (allowDefault : Bool) :
    Agree L L.view (parameter keep allowDefault) (parameter keep allowDefault) := by
  refine .mark fun _ _ => .expectIdentifier fun name => .atOp "=" fun _ => .ite ?_ ?_
  · exact .skip ((agree_anyTest keep).bind fun _ _ hdefault => .close rfl rfl (by simp [hdefault]))
  · exact .close rfl rfl rfl

theorem agree_parameterItem {ps ps' : Parameters} (hps : ps.viewed L = ps'.viewed L) :
    Agree L (Parameters.viewed L) (parameterItem keep ps) (parameterItem keep ps') := by
  obtain ⟨args, star, vararg, kwonlyargs, kwarg⟩ := ps
  obtain ⟨args', star', vararg', kwonlyargs', kwarg'⟩ := ps'
  simp only [Parameters.viewed, Parameters.mk.injEq] at hps
  obtain ⟨hargs, rfl, hvararg, hkwonlyargs, hkwarg⟩ := hps
  have hrest : kwarg.isSome = kwarg'.isSome := by simpa using congrArg Option.isSome hkwarg
  refine .get fun c d hwords => ?_
  simp only [Cursor.atOp_eq hwords, hrest, fail_bind]
  refine .ite ?_ (.ite (.ite (.fail _ _) (.skip (.get fun c d hwords => ?_))) (.ite (.fail _ _) ?_))
  · exact .skip ((agree_parameter keep false).bind fun _ _ harg =>
      .pure (by simp [Parameters.viewed, hargs, hvararg, hkwonlyargs, harg]))
  · simp only [Cursor.atOp_eq hwords]
    refine .ite (.pure ?_) ((agree_parameter keep false).bind fun _ _ harg => .pure ?_)
    · simp [Parameters.viewed, hargs, hvararg, hkwonlyargs, hkwarg]
    · simp [Parameters.viewed, hargs, harg, hkwonlyargs, hkwarg]
  · refine (agree_parameter keep true).bind fun _ _ harg => .ite (.pure ?_) (.pure ?_) <;>
      simp [Parameters.viewed, hargs, hvararg, hkwonlyargs, hkwarg, harg]

theorem agree_parameterItems (n : Nat) {ps ps' : Parameters} (hps : ps.viewed L = ps'.viewed L) :
    Agree L (Parameters.viewed L) (parameterItems keep n ps) (parameterItems keep n ps') := by
  induction n generalizing ps ps' with
  | zero => exact .pure hps
  | succ n ih =>
      refine .atOp ")" fun _ => .ite (.pure hps)
        ((agree_parameterItem keep hps).bind fun _ _ hnext => ?_)
      exact .atOp "," fun _ => .ite (.pure hnext) (.skip (ih hnext))

theorem agree_parameters : Agree L L.view (parameters keep) (parameters keep) := by
  refine .mark fun _ _ => .atOp ")" fun empty => ?_
  refine (Agree.bounded fun n => agree_parameterItems keep n rfl).bind fun ps ps' hps => ?_
  obtain ⟨args, star, vararg, kwonlyargs, kwarg⟩ := ps
  obtain ⟨args', star', vararg', kwonlyargs', kwarg'⟩ := ps'
  simp only [Parameters.viewed, Parameters.mk.injEq] at hps
  obtain ⟨hargs, rfl, hvararg, hkwonlyargs, hkwarg⟩ := hps
  have hnone : vararg.isNone = vararg'.isNone := by simpa using congrArg Option.isNone hvararg
  have hempty : kwonlyargs.isEmpty = kwonlyargs'.isEmpty := by
    simpa using congrArg List.isEmpty hkwonlyargs
  have hkind : (Kind.arguments args vararg kwonlyargs kwarg).map L.view =
      (Kind.arguments args' vararg' kwonlyargs' kwarg').map L.view := by
    simp [hargs, hvararg, hkwonlyargs, hkwarg]
  simp only [hnone, hempty, fail_bind]
  exact .ite (.fail _ _) (.ite (.pure (L.view_mk rfl rfl hkind)) (.closeFull keep rfl rfl hkind))

/-! ### Compound statements -/

end Statements

section Blocks

variable {nested nested' : Parser (List Node)}
    (hnested : Agree L (List.map L.view) nested nested')

include hnested

variable (keep : Retention)

theorem agree_statements {stop : Cursor → Bool}
    (hstop : ∀ c d : Cursor, L.near c d → stop c = stop d) (n : Nat) :
    Agree L (List.map L.view) (statements stop nested n) (statements stop nested' n) := by
  induction n with
  | zero => exact .pure rfl
  | succ n ih =>
      refine .get fun c d hwords => ?_
      rw [hstop c d hwords, Cursor.atKind_eq hwords]
      refine .ite (.pure rfl) (.ite (.skip ih) (hnested.bind fun _ _ hfirst => ?_))
      exact ih.bind fun _ _ hrest => .pure (by simp [hfirst, hrest])

theorem agree_block : Agree L (List.map L.view) (block keep nested) (block keep nested') := by
  refine .atKind .newline fun _ =>
    .ite (.skip (.expectKind .indent _ ?_)) (agree_simpleStatements keep)
  refine (Agree.bounded (agree_statements hnested fun c d hwords => ?_)).bind fun _ _ hbody => ?_
  · simp only [Cursor.atKind_eq hwords]
  · exact .atKind .dedent fun _ => .ite (.skip (.pure hbody)) (.pure hbody)

theorem agree_elseBlock :
    Agree L (List.map L.view) (elseBlock keep nested) (elseBlock keep nested') :=
  .atKeyword "else" fun _ => .ite (.skip (.expectOp ":" (agree_block hnested keep))) (.pure rfl)

theorem agree_ifStatement (n : Nat) :
    Agree L L.view (ifStatement keep nested n) (ifStatement keep nested' n) := by
  induction n with
  | zero => exact .fail _ _
  | succ n ih =>
      refine .mark fun _ _ => .skip ((agree_anyTest keep).bind fun _ _ hcondition => .expectOp ":" ?_)
      refine (agree_block hnested keep).bind fun _ _ hbody => .atKeyword "elif" fun _ => .ite ?_ ?_
      · exact ih.bind fun _ _ helif => .close rfl rfl (by simp [hcondition, hbody, helif])
      · exact (agree_elseBlock hnested keep).bind fun _ _ horelse =>
          .close rfl rfl (by simp [hcondition, hbody, horelse])

theorem agree_whileStatement :
    Agree L L.view (whileStatement keep nested) (whileStatement keep nested') := by
  refine .mark fun _ _ => .expectKeyword "while" ?_
  refine (agree_anyTest keep).bind fun _ _ hcondition => .expectOp ":" ?_
  exact (agree_block hnested keep).bind fun _ _ hbody => (agree_elseBlock hnested keep).bind
    fun _ _ horelse => .close rfl rfl (by simp [hcondition, hbody, horelse])

theorem agree_forStatement :
    Agree L L.view (forStatement keep nested) (forStatement keep nested') := by
  refine .mark fun _ _ => .expectKeyword "for" ?_
  refine (agree_targetList keep).bind fun _ _ htarget => .expectKeyword "in" ?_
  refine (agree_anyList keep).bind fun _ _ hiter => .expectOp ":" ?_
  exact (agree_block hnested keep).bind fun _ _ hbody => (agree_elseBlock hnested keep).bind
    fun _ _ horelse => .close rfl rfl (by simp [htarget, hiter, hbody, horelse])

theorem agree_functionDef :
    Agree L L.view (functionDef keep nested) (functionDef keep nested') := by
  refine .mark fun _ _ => .expectKeyword "def" (.expectIdentifier fun name => .expectOp "(" ?_)
  refine (agree_parameters keep).bind fun _ _ hargs => .expectOp ")" (.expectOp ":" ?_)
  exact (agree_block hnested keep).bind fun _ _ hbody => .close rfl rfl (by simp [hargs, hbody])

end Blocks

theorem agree_statement (keep : Retention) (n : Nat) :
    Agree L (List.map L.view) (statement keep n) (statement keep n) := by
  have hone : ∀ a b : Node, L.view a = L.view b → Agree L (List.map L.view)
      (pure [a]) (pure [b]) := fun _ _ h => .pure (by simp [h])
  induction n with
  | zero => exact .fail _ _
  | succ n ih =>
      refine .get fun c d hwords => ?_
      simp only [Cursor.atKeyword_eq hwords]
      refine .ite ?_ (.ite ?_ (.ite ?_ (.ite ?_ (agree_simpleStatements keep))))
      · exact (Agree.bounded (agree_ifStatement ih keep)).bind hone
      · exact (agree_whileStatement ih keep).bind hone
      · exact (agree_forStatement ih keep).bind hone
      · exact (agree_functionDef ih keep).bind hone

theorem agree_module (keep : Retention) : Agree L L.view (module keep) (module keep) := by
  refine .get fun c d hwords => ?_
  rw [L.remaining hwords]
  refine (Agree.bounded (agree_statements (agree_statement keep _) fun _ _ hwords =>
    Cursor.atKind_eq hwords _)).bind fun _ _ hbody => .pure ?_
  exact L.view_mk rfl rfl (by simp [hbody])

/-! ### The same words -/

/-- One literal more. -/
theorem stringTail_succ (n : Nat) (c : Cursor) : stringTail (n + 1) c =
    if c.current.kind = .str then
      (stringTail n c.advance).map fun run => (Text.decodeString c.current.text :: run.1, run.2)
    else .ok ([], c) := by
  have hbranch : stringTail (n + 1) c = if c.atKind .str then
      Except.bind (stringTail n c.advance) fun run =>
        .ok (Text.decodeString c.current.text :: run.1, run.2)
      else .ok ([], c) := by
    show (if c.atKind .str then _ else _ : Parser (List String)) c = _
    split <;> rfl
  rw [hbranch, Cursor.atKind]
  simp only [decide_eq_true_eq]
  split
  · cases stringTail n c.advance <;> rfl
  · rfl

section SameWords

variable {c d : Cursor} (h : c.words = d.words)

include h

theorem Cursor.word_current_eq : c.current.word = d.current.word :=
  (List.cons.inj h).1

theorem Cursor.word_next_eq : c.next.word = d.next.word := by
  obtain ⟨current, ahead, _⟩ := c
  obtain ⟨current', ahead', _⟩ := d
  obtain ⟨hcurrent, hahead⟩ := List.cons.inj h
  cases ahead with
  | nil =>
      obtain rfl : ahead' = [] := by simpa using hahead.symm
      exact hcurrent
  | cons l ahead =>
      cases ahead' with
      | nil => simp at hahead
      | cons l' ahead' => exact (List.cons.inj hahead).1

theorem Cursor.words_advance_eq : c.advance.words = d.advance.words := by
  obtain ⟨current, ahead, _⟩ := c
  obtain ⟨current', ahead', _⟩ := d
  obtain ⟨hcurrent, hahead⟩ := List.cons.inj h
  cases ahead with
  | nil =>
      obtain rfl : ahead' = [] := by simpa using hahead.symm
      exact h
  | cons l ahead =>
      cases ahead' with
      | nil => simp at hahead
      | cons l' ahead' => exact hahead

theorem alike_stringTail (n : Nat) : Alike (fun c d => c.words = d.words) id (stringTail n c)
    (stringTail n d) := by
  induction n generalizing c d with
  | zero => exact .ok rfl h
  | succ n ih =>
      have hword := Cursor.word_current_eq h
      have hkind : c.current.kind = d.current.kind := congrArg Prod.fst hword
      have htext : c.current.text = d.current.text := congrArg Prod.snd hword
      rw [stringTail_succ, stringTail_succ, hkind, htext]
      split
      · have hrest := ih (Cursor.words_advance_eq h)
        generalize stringTail n c.advance = run at *
        generalize stringTail n d.advance = run' at *
        cases hrest with
        | error => exact .error
        | ok hparts hwords => exact .ok (congrArg (List.cons _) hparts) hwords
      · exact .ok rfl h

end SameWords

/-- Cursors on the same words are alike, and the trees read from them are the same but for their
spans. -/
def sameWords : Likeness where
  near c d := c.words = d.words
  view := Node.eraseSpans
  current h := Cursor.word_current_eq h ▸ .refl _
  next h := Cursor.word_next_eq h ▸ .refl _
  advance h := Cursor.words_advance_eq h
  remaining h := by
    have hlength := congrArg List.length h
    simpa [Cursor.words, Cursor.remaining] using hlength
  strings n c d h := by
    have hparts := alike_stringTail h n
    generalize stringTail n c = run at *
    generalize stringTail n d = run' at *
    cases hparts with
    | error => exact .error
    | ok hparts hwords =>
        cases hparts
        exact .ok rfl hwords
  view_mk h h' hkind := by rw [Node.eraseSpans_mk h, Node.eraseSpans_mk h', hkind]

end Grammar

open Grammar in
/-- Texts whose cursors are alike are both refused, or read as trees that look the same. -/
theorem parseModule_alike (L : Likeness) {source source' : String} {tokens tokens' : List Token}
    (h : tokenize source = .ok tokens) (h' : tokenize source' = .ok tokens')
    (hnear : L.near
      (.ofLexemes ((tokens.filter (·.kind ≠ .comment)).map (Token.locate (.ofText source))))
      (.ofLexemes ((tokens'.filter (·.kind ≠ .comment)).map (Token.locate (.ofText source')))))
    (keep : Retention) :
    (∃ e e', parseModule source keep = .error e ∧ parseModule source' keep = .error e') ∨
    ∃ tree tree', parseModule source keep = .ok tree ∧ parseModule source' keep = .ok tree' ∧
      L.view tree = L.view tree' := by
  have hread : ∀ {source tokens}, tokenize source = .ok tokens → parseModule source keep =
      (module keep).run' (.ofLexemes ((tokens.filter (·.kind ≠ .comment)).map
        (Token.locate (.ofText source)))) := by
    intro source tokens h
    rw [parseModule, lexemes, h]
    rfl
  have hmodule := agree_module keep hnear
  rw [hread h, hread h', StateT.run', StateT.run']
  generalize module keep (.ofLexemes ((tokens.filter _).map _)) = run at *
  generalize module keep (.ofLexemes ((tokens'.filter _).map _)) = run' at *
  cases hmodule with
  | error => exact .inl ⟨_, _, rfl, rfl⟩
  | ok htree _ => exact .inr ⟨_, _, rfl, rfl, htree⟩

end TriviaTree
