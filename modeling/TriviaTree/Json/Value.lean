import TriviaTree.Text.Quoted

/-!
JSON values and their text on several lines.

Members of an object keep their order. Every item stands on a line of its own, two spaces deeper
than its brackets; empty brackets stay closed.
-/

set_option autoImplicit false

namespace TriviaTree

inductive Json where
  | null
  | bool (value : Bool)
  | nat (value : Nat)
  | str (value : String)
  | arr (items : List Json)
  | obj (members : List (String × Json))

namespace Json

/-- A character of a JSON string: only quotes, backslashes and the characters below the space
are escaped. -/
def stringChar (c : Char) : List Char :=
  if c = '"' || c = '\\' then ['\\', c]
  else if c = '\n' then ['\\', 'n']
  else if c = '\r' then ['\\', 'r']
  else if c = '\t' then ['\\', 't']
  else if c = '\x08' then ['\\', 'b']
  else if c = '\x0c' then ['\\', 'f']
  else if c.toNat < 0x10 then ['\\', 'u', '0', '0', '0'] ++ Text.hexDigits c.toNat
  else if c.toNat < 0x20 then ['\\', 'u', '0', '0'] ++ Text.hexDigits c.toNat
  else [c]

def quote (text : String) : String :=
  "\"" ++ String.ofList (text.toList.flatMap stringChar) ++ "\""

/-- The start of a line at a depth. -/
def margin (depth : Nat) : String :=
  String.ofList ('\n' :: List.replicate (2 * depth) ' ')

mutual

/-- The text of a value whose brackets stand at `depth`. -/
def pretty (depth : Nat) : Json → String
  | .null => "null"
  | .bool true => "true"
  | .bool false => "false"
  | .nat n => toString n
  | .str s => quote s
  | .arr [] => "[]"
  | .arr (j :: js) =>
      "[" ++ margin (depth + 1) ++ j.pretty (depth + 1) ++ prettyItems (depth + 1) js ++
        margin depth ++ "]"
  | .obj [] => "\x7b\x7d"
  | .obj ((key, j) :: members) =>
      "\x7b" ++ margin (depth + 1) ++ quote key ++ ": " ++ j.pretty (depth + 1) ++
        prettyMembers (depth + 1) members ++ margin depth ++ "\x7d"

/-- Further items of an array. -/
def prettyItems (depth : Nat) : List Json → String
  | [] => ""
  | j :: js => "," ++ margin depth ++ j.pretty depth ++ prettyItems depth js

/-- Further members of an object. -/
def prettyMembers (depth : Nat) : List (String × Json) → String
  | [] => ""
  | (key, j) :: members =>
      "," ++ margin depth ++ quote key ++ ": " ++ j.pretty depth ++ prettyMembers depth members

end

/-- The text of a value. -/
def text (j : Json) : String :=
  j.pretty 0

/-- A value or `null`. -/
def orNull (j : Option Json) : Json :=
  j.getD .null

end Json

end TriviaTree
