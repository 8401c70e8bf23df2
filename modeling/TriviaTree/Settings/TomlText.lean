import TriviaTree.Settings.Basic
import TriviaTree.Text.Quoted

/-!
Settings in TOML: writing.

What is open is left out. Values of the whole come first, then one table for each section, with an
empty line before it. A list of several items has a line for each.
-/

set_option autoImplicit false

namespace TriviaTree.Toml

/-- Cannot stand in a string without an escape. -/
def needsEscape (c : Char) : Bool :=
  (c.toNat < 0x20 && c ≠ '\t' && c ≠ '\n') || c.toNat = 0x7f

/-- The longest run of a character. -/
def longestRun (c : Char) (cs : List Char) : Nat :=
  (cs.foldl (fun (run, longest) d =>
    if d = c then (run + 1, max longest (run + 1)) else (0, longest)) (0, 0)).2

def hexCapital (c : Char) : Char :=
  if 'a' ≤ c && c ≤ 'f' then Char.ofNat (c.toNat - 32) else c

/-- A character in a string with escapes; a long string keeps line breaks. -/
def escapeChar (long : Bool) (c : Char) : List Char :=
  if c = '\x08' then ['\\', 'b']
  else if c = '\t' then ['\\', 't']
  else if c = '\n' then if long then ['\n'] else ['\\', 'n']
  else if c = '\x0c' then ['\\', 'f']
  else if c = '\r' then ['\\', 'r']
  else if c = '\\' then ['\\', '\\']
  else if needsEscape c then
    let digits := (Text.hexDigits c.toNat).map hexCapital
    ['\\', 'u'] ++ List.replicate (4 - digits.length) '0' ++ digits
  else [c]

/-- The body of a string with escapes, where at most `quotes` quotes may stand side by side;
`run` have just been written. -/
def escapeBody (long : Bool) (quotes : Nat) : Nat → List Char → List Char
  | _, [] => []
  | run, c :: cs =>
      if c = '"' then
        if run < quotes then '"' :: escapeBody long quotes (run + 1) cs
        else '\\' :: '"' :: escapeBody long quotes 0 cs
      else escapeChar long c ++ escapeBody long quotes 0 cs

/-- A string in the plainest form that can hold it: with escapes allowed but unused, without
escapes, the long forms of the two, and at last with escapes. -/
def quote (text : String) : String :=
  let cs := text.toList
  let escapes := cs.any needsEscape
  let backslash := cs.contains '\\'
  let broken := cs.contains '\n'
  let doubles := longestRun '"' cs
  let singles := longestRun '\'' cs
  let opening := if broken then "\n" else ""
  let basic := "\"" ++ String.ofList (escapeBody false 0 0 cs) ++ "\""
  let longBasic := "\"\"\"" ++ opening ++ String.ofList (escapeBody true 2 0 cs) ++ "\"\"\""
  if !escapes && !backslash && doubles = 0 && !broken then basic
  else if !escapes && singles = 0 && !broken then "'" ++ text ++ "'"
  else if !escapes && !backslash && doubles ≤ 2 then longBasic
  else if !escapes && singles ≤ 2 then "'''" ++ opening ++ text ++ "'''"
  else if broken then longBasic
  else basic

/-- A list of strings. -/
def quoteList : List String → String
  | [] => "[]"
  | [item] => "[" ++ quote item ++ "]"
  | items => "[\n" ++ String.join (items.map fun item => "    " ++ quote item ++ ",\n") ++ "]"

def truth (value : Bool) : String :=
  if value then "true" else "false"

/-- A line for a value that is set. -/
def entry {α : Type} (key : String) (write : α → String) (value : Option α) : String :=
  match value with
  | some value => key ++ " = " ++ write value ++ "\n"
  | none => ""

def classifierTable (s : ClassifierSettings) : String :=
  "[classifier]\n" ++ entry "enabled" truth s.enabled ++
    entry "families" (fun families => quoteList (families.map Family.shortName)) s.families

def printerTable (s : PrinterSettings) : String :=
  "[printer]\n" ++ entry "indentSize" toString s.indentSize ++
    entry "eolPadding" toString s.eolPadding

/-- The text of settings. -/
def write (s : Settings) : String :=
  let parts := [entry (quote "$schema") quote s.schema, (s.classifier.map classifierTable).getD "",
    (s.printer.map printerTable).getD ""]
  "\n".intercalate (parts.filter (· ≠ ""))

end TriviaTree.Toml
