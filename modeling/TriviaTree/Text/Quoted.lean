import TriviaTree.Text.Classes

/-!
Texts shown between quotes, with every character that a reader could not see or would misread
written as an escape.

The short escapes are those of tab, line break, carriage return, NUL and backslash; any other
hidden character is `\u` with its code point in braces. `quote` shows a text, `quoteChar` a
single character, and `escape` is the form without quotes around it.
-/

set_option autoImplicit false

namespace TriviaTree.Text

/-- Digits of `n` in base sixteen, small letters, no leading zeros. -/
def hexDigits (n : Nat) : List Char :=
  Nat.toDigits 16 n

/-- The code point of `c` between braces. -/
def codePointEscape (c : Char) : List Char :=
  ['\\', 'u', '{'] ++ hexDigits c.toNat ++ ['}']

/-- Which characters are escaped although they print: the quotes in `quotes`, and the extending
characters when `extending` holds. -/
structure EscapeRule where
  quotes : List Char
  extending : Bool

def EscapeRule.apply (rule : EscapeRule) (c : Char) : List Char :=
  if c = '\x00' then ['\\', '0']
  else if c = '\t' then ['\\', 't']
  else if c = '\r' then ['\\', 'r']
  else if c = '\n' then ['\\', 'n']
  else if c = '\\' || rule.quotes.contains c then ['\\', c]
  else if rule.extending && isExtending c then codePointEscape c
  else if isPrintable c then [c]
  else codePointEscape c

/-- A text between double quotes. -/
def quote (text : String) : String :=
  String.ofList (['"'] ++ text.toList.flatMap (EscapeRule.apply ⟨['"'], true⟩) ++ ['"'])

/-- A character between single quotes. -/
def quoteChar (c : Char) : String :=
  String.ofList (['\''] ++ EscapeRule.apply ⟨['\''], true⟩ c ++ ['\''])

/-- The escaped text alone, safe between quotes of either kind. An extending character has
something to extend everywhere but at the start, so only there it is escaped. -/
def escape (text : String) : String :=
  match text.toList with
  | [] => ""
  | c :: cs =>
      String.ofList (EscapeRule.apply ⟨['\'', '"'], true⟩ c ++
        cs.flatMap (EscapeRule.apply ⟨['\'', '"'], false⟩))

/-- Shown texts between brackets, as a list. -/
def quoteList (texts : List String) : String :=
  "[" ++ String.intercalate ", " (texts.map quote) ++ "]"

end TriviaTree.Text
