import TriviaTree.Text.Quoted

/-!
String literals of the source language.

`decodeString` gives the value of a literal, `quoteString` writes a value as a literal on one
line: between single quotes, unless the value has a single quote and no double one.
-/

set_option autoImplicit false

namespace TriviaTree.Text

/-- The value of a digit in base sixteen, either case. -/
def hexDigit? (c : Char) : Option Nat :=
  if '0' ≤ c && c ≤ '9' then some (c.toNat - '0'.toNat)
  else if 'a' ≤ c && c ≤ 'f' then some (c.toNat - 'a'.toNat + 10)
  else if 'A' ≤ c && c ≤ 'F' then some (c.toNat - 'A'.toNat + 10)
  else none

/-- The character named by at most two characters after `\x`: two digits, or a single one that
may have a plus sign before it. -/
def hexEscape? : List Char → Option Char
  | [d] => (hexDigit? d).map Char.ofNat
  | ['+', d] => (hexDigit? d).map Char.ofNat
  | [d, e] =>
      match hexDigit? d, hexDigit? e with
      | some high, some low => some (Char.ofNat (16 * high + low))
      | _, _ => none
  | _ => none

/-- Resolve the escapes of a literal's body. What is no escape stays as it is written. -/
def decodeBody : List Char → List Char
  | [] => []
  | '\\' :: 'n' :: cs => '\n' :: decodeBody cs
  | '\\' :: 't' :: cs => '\t' :: decodeBody cs
  | '\\' :: 'r' :: cs => '\r' :: decodeBody cs
  | '\\' :: '0' :: cs => '\x00' :: decodeBody cs
  | '\\' :: '\\' :: cs => '\\' :: decodeBody cs
  | '\\' :: '\'' :: cs => '\'' :: decodeBody cs
  | '\\' :: '"' :: cs => '"' :: decodeBody cs
  | '\\' :: '\n' :: cs => decodeBody cs
  | '\\' :: 'x' :: d :: e :: cs =>
      match hexEscape? [d, e] with
      | some c => c :: decodeBody cs
      | none => '\\' :: 'x' :: d :: e :: decodeBody cs
  | ['\\', 'x', d] =>
      match hexEscape? [d] with
      | some c => [c]
      | none => ['\\', 'x', d]
  | c :: cs => c :: decodeBody cs

/-- The value of a literal: its body between the quotes, which are three on each side when the
first three are the same, with the escapes resolved. -/
def decodeString (raw : String) : String :=
  let cs := raw.toList
  let size := byteSize cs
  let width :=
    if (afterStart ['"', '"', '"'] cs).isSome || (afterStart ['\'', '\'', '\''] cs).isSome
    then 3 else 1
  String.ofList (decodeBody ((sliceBytes width (size - width) cs).getD []))

/-- A character between the quotes `quote`. -/
def literalChar (quote c : Char) : List Char :=
  if c = '\\' then ['\\', '\\']
  else if c = '\n' then ['\\', 'n']
  else if c = '\r' then ['\\', 'r']
  else if c = '\t' then ['\\', 't']
  else if c = quote then ['\\', c]
  else if isControl c then
    ['\\', 'x', Nat.digitChar (c.toNat / 16), Nat.digitChar (c.toNat % 16)]
  else [c]

/-- The quote a value is written with. -/
def quoteFor (value : List Char) : Char :=
  if value.contains '\'' && !value.contains '"' then '"' else '\''

/-- A value as a literal. -/
def quoteString (value : String) : String :=
  let cs := value.toList
  let quote := quoteFor cs
  String.ofList (quote :: (cs.flatMap (literalChar quote) ++ [quote]))

end TriviaTree.Text
