import TriviaTree.Settings.JsonText

/-!
Settings in TOML: reading.

A text is read into statements first: headers of tables, headers of items of a list of tables,
and keys with values. Carrying the statements out one by one gives the data. A table can be
defined once; what only a path implied may still be defined, and what dotted keys made may only be
added to by dotted keys.
-/

set_option autoImplicit false

namespace TriviaTree.Toml

/-! ### Statements -/

inductive Statement where
  | header (path : List String) (key : String)
  | listHeader (path : List String) (key : String)
  | assign (path : List String) (key : String) (value : Data)

/-! ### Tables -/

/-- A table under construction: what its keys stand for. -/
inductive Item where
  /-- Scalars, lists and inline tables, which nothing can be added to. -/
  | value (data : Data)
  /-- A table; `implied` when only paths through it were seen, `dotted` when they were dotted
  keys. -/
  | table (implied dotted : Bool) (members : List (String × Item))
  /-- A list of tables, the one that is added to and those before it, last first. -/
  | tables (current : List (String × Item)) (earlier : List (List (String × Item)))

/-- Let a key stand for something else; a new key comes last. -/
def put (members : List (String × Item)) (key : String) (item : Item) : List (String × Item) :=
  if members.any (·.1 = key) then
    members.map fun member => if member.1 = key then (key, item) else member
  else members ++ [(key, item)]

/-- Change the table at the end of a path. Tables that are missing on the way are implied.
`change` is also told whether the table was made by dotted keys. -/
def within (dotted : Bool) (change : Bool → List (String × Item) → Option (List (String × Item))) :
    List String → Bool → List (String × Item) → Option (List (String × Item))
  | [], isDotted, members => change isDotted members
  | key :: path, _, members =>
      match members.lookup key with
      | none =>
          (within dotted change path dotted []).map fun made =>
            put members key (.table true dotted made)
      | some (.value _) => none
      | some (.tables current earlier) =>
          (within dotted change path false current).map fun made =>
            put members key (.tables made earlier)
      | some (.table implied isDotted inner) =>
          if dotted && !implied then none
          else
            (within dotted change path isDotted inner).map fun made =>
              put members key (.table implied isDotted made)

/-- Give a new key its value. Below the current table only dotted keys may have made the table
that the key is put into. -/
def assign (path : List String) (key : String) (value : Data) (members : List (String × Item)) :
    Option (List (String × Item)) :=
  within true (fun isDotted inner =>
    if isDotted = path.isEmpty || (inner.lookup key).isSome then none
    else some (put inner key (.value value))) path false members

/-- Define a table. -/
def define (key : String) (members : List (String × Item)) : Option (List (String × Item)) :=
  match members.lookup key with
  | none => some (put members key (.table false false []))
  | some (.table true false inner) => some (put members key (.table false false inner))
  | _ => none

/-- Begin another table of a list of tables. -/
def extend (key : String) (members : List (String × Item)) : Option (List (String × Item)) :=
  match members.lookup key with
  | none => some (put members key (.tables [] []))
  | some (.tables current earlier) => some (put members key (.tables [] (current :: earlier)))
  | _ => none

/-- A document under construction, and the path of the table that keys go to. -/
structure Document where
  current : List String
  members : List (String × Item)

def Document.step (d : Document) : Statement → Option Document
  | .header path key =>
      (within false (fun _ => define key) path false d.members).map fun members =>
        ⟨path ++ [key], members⟩
  | .listHeader path key =>
      (within false (fun _ => extend key) path false d.members).map fun members =>
        ⟨path ++ [key], members⟩
  | .assign path key value =>
      (within false (fun _ => assign path key value) d.current false d.members).map fun members =>
        { d with members := members }

mutual

def Item.toData : Item → Data
  | .value data => data
  | .table _ _ members => .table (membersData members)
  | .tables current earlier => .list (tablesData earlier [.table (membersData current)])

def membersData : List (String × Item) → List (Option String × Data)
  | [] => []
  | (key, item) :: members => (some key, item.toData) :: membersData members

/-- Tables in their order, before those that follow them. -/
def tablesData : List (List (String × Item)) → List Data → List Data
  | [], after => after
  | members :: earlier, after => tablesData earlier (.table (membersData members) :: after)

end

/-- The data of a sequence of statements. -/
def build? (statements : List Statement) : Option Data :=
  (statements.foldlM Document.step ⟨[], []⟩).map fun d => .table (membersData d.members)

/-! ### Blanks and comments -/

def isBlank (c : Char) : Bool :=
  c = ' ' || c = '\t'

def skipBlanks (cs : List Char) : List Char :=
  cs.dropWhile isBlank

/-- May stand in a comment or between quotes on one line. -/
def isPlain (c : Char) : Bool :=
  c = '\t' || (0x20 ≤ c.toNat && c.toNat ≠ 0x7f)

/-- What follows a line break. -/
def afterBreak? : List Char → Option (List Char)
  | '\n' :: cs => some cs
  | '\r' :: '\n' :: cs => some cs
  | _ => none

/-- Without blanks, and without a comment after them. -/
def skipComment (cs : List Char) : List Char :=
  match skipBlanks cs with
  | '#' :: cs => cs.dropWhile isPlain
  | cs => cs

/-- The next line, when nothing but blanks and a comment is left on this one. -/
def endLine? (cs : List Char) : Option (List Char) :=
  match skipComment cs with
  | [] => some []
  | cs => afterBreak? cs

/-- Without blanks, comments and line breaks; at most `fuel` lines. -/
def skipLines : Nat → List Char → List Char
  | 0, cs => skipComment cs
  | fuel + 1, cs =>
      match afterBreak? (skipComment cs) with
      | some rest => skipLines fuel rest
      | none => skipComment cs

/-! ### Strings and keys -/

/-- The number that digits in base sixteen stand for. -/
def hexNumber? (digits : List Char) : Option Nat :=
  digits.foldlM (fun n c => (Text.hexDigit? c).map (n * 16 + ·)) 0

/-- A character given by number; surrogates are none. -/
def charOf? (value : Nat) : Option Char :=
  if value < 0xd800 || (0xe000 ≤ value && value < 0x110000) then some (Char.ofNat value) else none

/-- An escape after its backslash, and what follows. -/
def readEscape : List Char → Option (Char × List Char)
  | 'b' :: cs => some ('\x08', cs)
  | 't' :: cs => some ('\t', cs)
  | 'n' :: cs => some ('\n', cs)
  | 'f' :: cs => some ('\x0c', cs)
  | 'r' :: cs => some ('\r', cs)
  | '"' :: cs => some ('"', cs)
  | '\\' :: cs => some ('\\', cs)
  | 'e' :: cs => some ('\x1b', cs)
  | 'x' :: cs =>
      if cs.length < 2 then none
      else ((hexNumber? (cs.take 2)).bind charOf?).map fun c => (c, cs.drop 2)
  | 'u' :: cs =>
      if cs.length < 4 then none
      else ((hexNumber? (cs.take 4)).bind charOf?).map fun c => (c, cs.drop 4)
  | 'U' :: cs =>
      if cs.length < 8 then none
      else ((hexNumber? (cs.take 8)).bind charOf?).map fun c => (c, cs.drop 8)
  | _ => none

/-- A string on one line, after its quote. -/
def readBasic : Nat → List Char → Option (List Char × List Char)
  | 0, _ => none
  | fuel + 1, cs =>
      match cs with
      | '"' :: rest => some ([], rest)
      | '\\' :: rest => do
          let (c, rest) ← readEscape rest
          let (text, rest) ← readBasic fuel rest
          return (c :: text, rest)
      | c :: rest =>
          if isPlain c then (readBasic fuel rest).map fun (text, rest) => (c :: text, rest)
          else none
      | [] => none

/-- A string on one line without escapes, after its quote. -/
def readLiteral (cs : List Char) : Option (List Char × List Char) :=
  let text := cs.takeWhile fun c => c ≠ '\'' && isPlain c
  match cs.drop text.length with
  | '\'' :: rest => some (text, rest)
  | _ => none

/-- The end of a long string: three quotes, and up to two before them that belong to the text. -/
def longEnd? (quote : Char) (cs : List Char) : Option (List Char × List Char) :=
  let quotes := cs.takeWhile (· = quote)
  if quotes.length < 3 then none
  else
    let own := min (quotes.length - 3) 2
    some (cs.take own, cs.drop (own + 3))

/-- Without blanks and line breaks, when there is a line break among them. -/
def skipFold? (cs : List Char) : Option (List Char) :=
  (afterBreak? (skipBlanks cs)).map fun rest =>
    rest.dropWhile fun c => isBlank c || c = '\n' || c = '\r'

/-- A long string, after its quotes; in one with escapes a backslash at the end of a line takes
the break and the blanks after it. -/
def readLong (quote : Char) (escapes : Bool) : Nat → List Char → Option (List Char × List Char)
  | 0, _ => none
  | fuel + 1, cs =>
      match longEnd? quote cs with
      | some ending => some ending
      | none =>
          match cs with
          | [] => none
          | c :: rest =>
              if escapes && c = '\\' then
                match skipFold? rest with
                | some rest => readLong quote escapes fuel rest
                | none => do
                    let (e, rest) ← readEscape rest
                    let (text, rest) ← readLong quote escapes fuel rest
                    return (e :: text, rest)
              else
                match afterBreak? cs with
                | some rest =>
                    (readLong quote escapes fuel rest).map fun (text, rest) => ('\n' :: text, rest)
                | none =>
                    if isPlain c then
                      (readLong quote escapes fuel rest).map fun (text, rest) => (c :: text, rest)
                    else none

/-- A long string after its quotes, without a line break right after them. -/
def readLongBody (quote : Char) (escapes : Bool) (cs : List Char) :
    Option (List Char × List Char) :=
  readLong quote escapes (cs.length + 1) ((afterBreak? cs).getD cs)

def isBareKey (c : Char) : Bool :=
  c.isAlphanum || c = '_' || c = '-'

/-- One part of a key. -/
def readSimpleKey (cs : List Char) : Option (String × List Char) :=
  match cs with
  | '"' :: rest => (readBasic (rest.length + 1) rest).map fun (text, rest) => (String.ofList text, rest)
  | '\'' :: rest => (readLiteral rest).map fun (text, rest) => (String.ofList text, rest)
  | cs =>
      match cs.takeWhile isBareKey with
      | [] => none
      | key => some (String.ofList key, cs.drop key.length)

/-- A key whose parts are divided by dots: the path and the last part. -/
def readKey : Nat → List Char → Option ((List String × String) × List Char)
  | 0, _ => none
  | fuel + 1, cs => do
      let (part, rest) ← readSimpleKey (skipBlanks cs)
      match skipBlanks rest with
      | '.' :: rest =>
          let ((path, key), rest) ← readKey fuel rest
          return ((part :: path, key), rest)
      | rest => return (([], part), rest)

/-! ### Values -/

/-- Digits with single underscores between them. -/
def isGrouped (isDigit : Char → Bool) (cs : List Char) : Bool :=
  (cs.splitOn '_').all fun group => !group.isEmpty && group.all isDigit

/-- Digits without a zero before them. -/
def isDecimal (cs : List Char) : Bool :=
  isGrouped (·.isDigit) cs && (cs.length = 1 || cs.head? ≠ some '0')

def numberIn (base : Nat) (cs : List Char) : Nat :=
  (cs.filter (· ≠ '_')).foldl (fun n c => n * base + (Text.hexDigit? c).getD 0) 0

/-- Digits, and perhaps a fraction and an exponent, not both missing. -/
def isFloat (cs : List Char) : Bool :=
  let whole := cs.takeWhile fun c => c.isDigit || c = '_'
  let rest := cs.drop whole.length
  let fraction := match rest with
    | '.' :: digits => digits.takeWhile fun c => c.isDigit || c = '_'
    | _ => []
  let exponent := match rest with
    | '.' :: digits => digits.drop fraction.length
    | rest => rest
  let fractionFits := match rest with
    | '.' :: _ => isGrouped (·.isDigit) fraction
    | _ => true
  let exponentFits := match exponent with
    | [] => true
    | e :: '+' :: digits => (e = 'e' || e = 'E') && isGrouped (·.isDigit) digits
    | e :: '-' :: digits => (e = 'e' || e = 'E') && isGrouped (·.isDigit) digits
    | e :: digits => (e = 'e' || e = 'E') && isGrouped (·.isDigit) digits
  isDecimal whole && !rest.isEmpty && fractionFits && exponentFits

/-- A number that has a sign or none: only a natural one is of use. -/
def signedNumber? (negative : Bool) (cs : List Char) : Option Data :=
  if isDecimal cs then
    let value := numberIn 10 cs
    some (if negative && value ≠ 0 then .number else .natural value)
  else if isFloat cs || cs = ['i', 'n', 'f'] || cs = ['n', 'a', 'n'] then some .number
  else none

/-- A value without quotes or brackets. -/
def scalar? : List Char → Option Data
  | ['t', 'r', 'u', 'e'] => some (.bool true)
  | ['f', 'a', 'l', 's', 'e'] => some (.bool false)
  | '0' :: 'x' :: cs =>
      if isGrouped (fun c => (Text.hexDigit? c).isSome) cs then some (.natural (numberIn 16 cs))
      else none
  | '0' :: 'o' :: cs =>
      if isGrouped (fun c => '0' ≤ c && c ≤ '7') cs then some (.natural (numberIn 8 cs)) else none
  | '0' :: 'b' :: cs =>
      if isGrouped (fun c => c = '0' || c = '1') cs then some (.natural (numberIn 2 cs)) else none
  | '+' :: cs => signedNumber? false cs
  | '-' :: cs => signedNumber? true cs
  | cs => signedNumber? false cs

/-- May stand in a value without quotes or brackets. -/
def isScalarPart (c : Char) : Bool :=
  c.isAlphanum || c = '_' || c = '-' || c = '+' || c = '.' || c = ':'

mutual

/-- A value, and what follows it. -/
def readValue : Nat → List Char → Option (Data × List Char)
  | 0, _ => none
  | fuel + 1, cs =>
      let texts : Option (List Char × List Char) → Option (Data × List Char) :=
        Option.map fun (text, rest) => (.text (some (String.ofList text)), rest)
      match cs with
      | '"' :: '"' :: '"' :: rest => texts (readLongBody '"' true rest)
      | '\'' :: '\'' :: '\'' :: rest => texts (readLongBody '\'' false rest)
      | '"' :: rest => texts (readBasic (rest.length + 1) rest)
      | '\'' :: rest => texts (readLiteral rest)
      | '[' :: rest => (readItems fuel rest).map fun (items, rest) => (.list items, rest)
      | '\x7b' :: rest => do
          let (statements, rest) ← readMembers fuel rest
          return (← build? statements, rest)
      | cs =>
          let token := cs.takeWhile isScalarPart
          (scalar? token).map fun data => (data, cs.drop token.length)

/-- The items of a list up to its bracket; a comma may follow the last. -/
def readItems : Nat → List Char → Option (List Data × List Char)
  | 0, _ => none
  | fuel + 1, cs =>
      match skipLines cs.length cs with
      | ']' :: rest => some ([], rest)
      | cs => do
          let (item, rest) ← readValue fuel cs
          match skipLines rest.length rest with
          | ']' :: rest => return ([item], rest)
          | ',' :: rest =>
              let (items, rest) ← readItems fuel rest
              return (item :: items, rest)
          | _ => none

/-- The members of an inline table up to its brace; a comma may follow the last. -/
def readMembers : Nat → List Char → Option (List Statement × List Char)
  | 0, _ => none
  | fuel + 1, cs =>
      match skipLines cs.length cs with
      | '\x7d' :: rest => some ([], rest)
      | cs => do
          let ((path, key), rest) ← readKey cs.length cs
          match rest with
          | '=' :: rest =>
              let (value, rest) ← readValue fuel (skipBlanks rest)
              let member := Statement.assign path key value
              match skipLines rest.length rest with
              | '\x7d' :: rest => return ([member], rest)
              | ',' :: rest =>
                  let (members, rest) ← readMembers fuel rest
                  return (member :: members, rest)
              | _ => none
          | _ => none

end

/-! ### Documents -/

/-- One statement, and the text after it on its line. -/
def readStatement (cs : List Char) : Option (Statement × List Char) :=
  match cs with
  | '[' :: '[' :: rest => do
      let ((path, key), rest) ← readKey rest.length rest
      match rest with
      | ']' :: ']' :: rest => return (.listHeader path key, rest)
      | _ => none
  | '[' :: rest => do
      let ((path, key), rest) ← readKey rest.length rest
      match rest with
      | ']' :: rest => return (.header path key, rest)
      | _ => none
  | cs => do
      let ((path, key), rest) ← readKey cs.length cs
      match rest with
      | '=' :: rest =>
          let (value, rest) ← readValue (2 * rest.length + 2) (skipBlanks rest)
          return (.assign path key value, rest)
      | _ => none

/-- The statements of a text, each on a line of its own; at most `fuel` of them. -/
def readStatements : Nat → List Char → Option (List Statement)
  | 0, _ => none
  | fuel + 1, cs =>
      match skipLines cs.length cs with
      | [] => some []
      | cs => do
          let (statement, rest) ← readStatement cs
          let statements ← readStatements fuel (← endLine? rest)
          return statement :: statements

/-- The data of a whole text. A mark of the byte order at its start does not count. -/
def read? (text : String) : Option Data :=
  let cs := match text.toList with
    | '\ufeff' :: cs => cs
    | cs => cs
  (readStatements (cs.length + 1) cs).bind build?

/-- A list may be longer than its record, and an empty table or list stands beside the name of a
family. -/
def dialect : Data.Dialect where
  longLists := true
  isUnit
    | .table [] => true
    | .list [] => true
    | _ => false

/-- The settings of a TOML text. -/
def settings? (text : String) : Option Settings :=
  (read? text).bind (Data.settings? dialect)

end TriviaTree.Toml
