import TriviaTree.Settings.Data
import TriviaTree.Text.Literal

/-!
Settings in JSON.

The text is one value with blanks around it. A string may hold escapes that denote no text, since
half of a surrogate pair can stand alone; such a string can be passed over but not used.
-/

set_option autoImplicit false

namespace TriviaTree.JsonText

def isBlank (c : Char) : Bool :=
  c = ' ' || c = '\n' || c = '\t' || c = '\r'

def skipBlanks (cs : List Char) : List Char :=
  cs.dropWhile isBlank

/-- The number that four digits in base sixteen stand for. -/
def codeUnit? (a b c d : Char) : Option Nat := do
  return (((← Text.hexDigit? a) * 16 + (← Text.hexDigit? b)) * 16 + (← Text.hexDigit? c)) * 16 +
    (← Text.hexDigit? d)

def isHighSurrogate (unit : Nat) : Bool :=
  0xd800 ≤ unit && unit < 0xdc00

def isLowSurrogate (unit : Nat) : Bool :=
  0xdc00 ≤ unit && unit < 0xe000

/-- The character that a surrogate pair stands for. -/
def pairChar (high low : Nat) : Char :=
  Char.ofNat (0x10000 + (high - 0xd800) * 0x400 + (low - 0xdc00))

def simpleEscape? : Char → Option Char
  | '"' => some '"'
  | '\\' => some '\\'
  | '/' => some '/'
  | 'b' => some '\x08'
  | 'f' => some '\x0c'
  | 'n' => some '\n'
  | 'r' => some '\r'
  | 't' => some '\t'
  | _ => none

/-- What a string literal is made of: characters, and code units given by number. -/
inductive Piece where
  | char (c : Char)
  | unit (value : Nat)

/-- The rest of a string literal after its first quote, and what follows the literal. -/
def readPieces : List Char → Option (List Piece × List Char)
  | [] => none
  | '"' :: rest => some ([], rest)
  | '\\' :: 'u' :: a :: b :: c :: d :: rest =>
      match codeUnit? a b c d with
      | none => none
      | some value => (readPieces rest).map fun (pieces, rest) => (.unit value :: pieces, rest)
  | '\\' :: c :: rest =>
      match simpleEscape? c with
      | none => none
      | some e => (readPieces rest).map fun (pieces, rest) => (.char e :: pieces, rest)
  | c :: rest =>
      if c.toNat < 0x20 then none
      else (readPieces rest).map fun (pieces, rest) => (.char c :: pieces, rest)

/-- The text that pieces denote: none when half of a surrogate pair stands alone. -/
def textOf? : List Piece → Option (List Char)
  | [] => some []
  | .char c :: rest => (textOf? rest).map (c :: ·)
  | .unit high :: .unit low :: rest =>
      if isHighSurrogate high && isLowSurrogate low then
        (textOf? rest).map (pairChar high low :: ·)
      else if isHighSurrogate high || isLowSurrogate high then none
      else (textOf? (.unit low :: rest)).map (Char.ofNat high :: ·)
  | .unit value :: rest =>
      if isHighSurrogate value || isLowSurrogate value then none
      else (textOf? rest).map (Char.ofNat value :: ·)

/-- A string literal after its first quote: the text it denotes, if it denotes one, and what
follows the literal. -/
def readString (cs : List Char) : Option (Option String × List Char) :=
  (readPieces cs).map fun (pieces, rest) => ((textOf? pieces).map String.ofList, rest)

/-- Digits, at least one. -/
def readDigits (cs : List Char) : Option (List Char × List Char) :=
  match cs.takeWhile (·.isDigit) with
  | [] => none
  | digits => some (digits, cs.dropWhile (·.isDigit))

/-- Digits without a zero before them. -/
def readInteger (cs : List Char) : Option (List Char × List Char) :=
  match readDigits cs with
  | some ('0' :: _ :: _, _) => none
  | result => result

/-- A fraction, if there is one. -/
def skipFraction : List Char → Option (List Char)
  | '.' :: cs => (readDigits cs).map (·.2)
  | cs => some cs

/-- An exponent, if there is one. -/
def skipExponent : List Char → Option (List Char)
  | c :: cs =>
      if c = 'e' || c = 'E' then
        match cs with
        | '+' :: cs => (readDigits cs).map (·.2)
        | '-' :: cs => (readDigits cs).map (·.2)
        | cs => (readDigits cs).map (·.2)
      else some (c :: cs)
  | [] => some []

def naturalOf (digits : List Char) : Nat :=
  digits.foldl (fun n c => n * 10 + (c.toNat - '0'.toNat)) 0

/-- A number; only one without sign, fraction and exponent is natural. -/
def readNumber (cs : List Char) : Option (Data × List Char) := do
  let unsigned := match cs with
    | '-' :: cs => cs
    | cs => cs
  let (digits, afterDigits) ← readInteger unsigned
  let rest ← skipExponent (← skipFraction afterDigits)
  if unsigned.length = cs.length && rest.length = afterDigits.length then
    return (.natural (naturalOf digits), rest)
  else return (.number, rest)

mutual

/-- A value, and what follows it. -/
def readValue : Nat → List Char → Option (Data × List Char)
  | 0, _ => none
  | fuel + 1, cs =>
      match skipBlanks cs with
      | 'n' :: 'u' :: 'l' :: 'l' :: rest => some (.null, rest)
      | 't' :: 'r' :: 'u' :: 'e' :: rest => some (.bool true, rest)
      | 'f' :: 'a' :: 'l' :: 's' :: 'e' :: rest => some (.bool false, rest)
      | '"' :: rest =>
          (readString rest).map fun (text, rest) => (.text text, rest)
      | '[' :: rest =>
          match skipBlanks rest with
          | ']' :: rest => some (.list [], rest)
          | _ => (readItems fuel rest).map fun (items, rest) => (.list items, rest)
      | '\x7b' :: rest =>
          match skipBlanks rest with
          | '\x7d' :: rest => some (.table [], rest)
          | _ => (readMembers fuel rest).map fun (members, rest) => (.table members, rest)
      | cs => readNumber cs

/-- The items of a list up to its bracket. -/
def readItems : Nat → List Char → Option (List Data × List Char)
  | 0, _ => none
  | fuel + 1, cs => do
      let (item, rest) ← readValue fuel cs
      match skipBlanks rest with
      | ']' :: rest => return ([item], rest)
      | ',' :: rest =>
          let (items, rest) ← readItems fuel rest
          return (item :: items, rest)
      | _ => none

/-- The members of an object up to its brace. -/
def readMembers : Nat → List Char → Option (List (Option String × Data) × List Char)
  | 0, _ => none
  | fuel + 1, cs => do
      match skipBlanks cs with
      | '"' :: rest =>
          let (key, rest) ← readString rest
          match skipBlanks rest with
          | ':' :: rest =>
              let (value, rest) ← readValue fuel rest
              let member := (key, value)
              match skipBlanks rest with
              | '\x7d' :: rest => return ([member], rest)
              | ',' :: rest =>
                  let (members, rest) ← readMembers fuel rest
                  return (member :: members, rest)
              | _ => none
          | _ => none
      | _ => none

end

/-- The value of a whole text. Every step of the reader takes a character or goes one level into
a bracket just taken, so twice the length of the text is fuel enough. -/
def read? (text : String) : Option Data :=
  let cs := text.toList
  match readValue (2 * cs.length + 2) cs with
  | some (data, rest) => if (skipBlanks rest).isEmpty then some data else none
  | none => none

/-- A list is exactly as long as its record, and `null` stands beside the name of a family. -/
def dialect : Data.Dialect where
  longLists := false
  isUnit
    | .null => true
    | _ => false

/-- The settings of a JSON text. -/
def settings? (text : String) : Option Settings :=
  (read? text).bind (Data.settings? dialect)

end TriviaTree.JsonText
