/-!
Trivia: the comments and directives that a source text carries beside its code.

A directive is a comment in a fixed form, such as `#pragma omp parallel for` or `#ifdef NAME`.
It has a family, the keywords it was recognised by, a payload, and a marker that says how the
`#` was set off. A payload may hold an expression; `α` is the type of expressions.
-/

set_option autoImplicit false

namespace TriviaTree

/-- A plain comment: the text after its `#`, and whether it stands at the end of a line of
code. -/
structure Comment where
  payload : String
  endOfLine : Bool
deriving DecidableEq, Repr

inductive Family where
  | pragma
  | openMp
  | openAcc
  | inclusion
  | cond
  | ifdef
  | ifndef
  | elif
  | otherwise
  | endif
  | define
  | undef
deriving DecidableEq, Repr

namespace Family

def all : List Family :=
  [.pragma, .openMp, .openAcc, .inclusion, .cond, .ifdef, .ifndef, .elif, .otherwise, .endif,
   .define, .undef]

/-- The name a directive of the family goes by in a tree. -/
def name : Family → String
  | .pragma => "Pragma"
  | .openMp => "OpenMpPragma"
  | .openAcc => "OpenAccPragma"
  | .inclusion => "Include"
  | .cond => "If"
  | .ifdef => "Ifdef"
  | .ifndef => "Ifndef"
  | .elif => "Elif"
  | .otherwise => "Else"
  | .endif => "Endif"
  | .define => "Define"
  | .undef => "Undef"

/-- The name of the family in settings. -/
def shortName : Family → String
  | .pragma => "pragma"
  | .openMp => "openmp"
  | .openAcc => "openacc"
  | .inclusion => "include"
  | .cond => "if"
  | .ifdef => "ifdef"
  | .ifndef => "ifndef"
  | .elif => "elif"
  | .otherwise => "else"
  | .endif => "endif"
  | .define => "define"
  | .undef => "undef"

def ofShortName? (name : String) : Option Family :=
  all.find? (·.shortName = name)

theorem ofShortName?_shortName (family : Family) : ofShortName? family.shortName = some family := by
  cases family <;> decide

def isPragma : Family → Bool
  | .pragma | .openMp | .openAcc => true
  | _ => false

/-- The families of conditional compilation. -/
def isConditional : Family → Bool
  | .cond | .ifdef | .ifndef | .elif | .otherwise | .endif => true
  | _ => false

end Family

/-- How a directive is set off: `#pragma` is attached, `# pragma:` is padded and has a colon. -/
structure Marker where
  padded : Bool
  colon : Bool
deriving DecidableEq, Repr

/-- The delimiters around an included path. -/
inductive HeaderForm where
  | angle
  | quoted
  | bare
deriving DecidableEq, Repr

/-- One clause of a pragma, such as `private(i, j)` or `nowait`. -/
structure Clause where
  name : String
  arguments : Option String
deriving DecidableEq, Repr

/-- `name` or `name(arguments)`. -/
def Clause.text (clause : Clause) : String :=
  match clause.arguments with
  | none => clause.name
  | some arguments => clause.name ++ "(" ++ arguments ++ ")"

/-- What a directive says after its keywords. -/
inductive Payload (α : Type) where
  | empty
  | expression (value : α)
  | symbol (name : String)
  | definition (name : String) (value : Option α)
  | header (path : String) (form : HeaderForm)
  | clauses (list : List Clause)
  | raw (text : String)
deriving DecidableEq, Repr

/-- The expressions of a payload. -/
def Payload.expressions {α : Type} : Payload α → List α
  | .expression value => [value]
  | .definition _ value => value.toList
  | _ => []

/-- Change the expressions of a payload. -/
def Payload.mapMem {α β : Type} (p : Payload α) (f : (a : α) → a ∈ p.expressions → β) :
    Payload β :=
  match p with
  | .empty => .empty
  | .expression value => .expression (f value (List.mem_singleton.2 rfl))
  | .symbol name => .symbol name
  | .definition name none => .definition name none
  | .definition name (some value) =>
      .definition name (some (f value (by simp [expressions])))
  | .header path form => .header path form
  | .clauses list => .clauses list
  | .raw text => .raw text

structure Directive (α : Type) where
  family : Family
  /-- The keyword sequence the directive was recognised by. -/
  keywords : List String
  payload : Payload α
  marker : Marker
deriving DecidableEq, Repr

end TriviaTree
