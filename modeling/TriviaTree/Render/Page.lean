/-!
A page that text is written on, line by line.

Statements start on a fresh line with `Page.fill`; everything else goes to the end of the current
line with `Page.write`. The page knows its indentation and counts its lines. What is written is
kept last character first, since writing only ever looks at the end of the current line.
-/

set_option autoImplicit false

namespace TriviaTree

/-- Spaces for one level of indentation, and between code and a comment after it. -/
structure PageOptions where
  indentSize : Nat
  eolPadding : Nat
deriving DecidableEq, Repr

namespace PageOptions

def defaultIndentSize : Nat := 4

def defaultEolPadding : Nat := 2

def standard : PageOptions := ⟨defaultIndentSize, defaultEolPadding⟩

end PageOptions

structure Page where
  options : PageOptions
  /-- What is written, last character first. -/
  written : List Char
  indentLevel : Nat
  lineNumber : Nat
deriving DecidableEq, Repr

namespace Page

def blank (options : PageOptions) : Page :=
  ⟨options, [], 0, 1⟩

/-- Write `text` at the end of the current line. -/
def write (page : Page) (text : String) : Page :=
  { page with
    written := text.toList.reverse ++ page.written
    lineNumber := page.lineNumber + text.toList.count '\n' }

def spaces (count : Nat) : List Char :=
  List.replicate count ' '

/-- Start a line at an indentation of `level`. -/
def newline (page : Page) (level : Nat) : Page :=
  { page with
    written := spaces (level * page.options.indentSize) ++ '\n' :: page.written
    lineNumber := page.lineNumber + 1 }

/-- Start a line at the current indentation and write `text` on it. -/
def fill (page : Page) (text : String) : Page :=
  (page.newline page.indentLevel).write text

/-- Start a line one level deeper than the current indentation, as inside brackets. -/
def continuation (page : Page) : Page :=
  page.newline (page.indentLevel + 1)

/-- Write `text` at a distance from what stands on the line. -/
def writePadded (page : Page) (text : String) : Page :=
  { page with written := spaces page.options.eolPadding ++ page.written }.write text

/-- Take back the spaces at the end of the current line. -/
def trimTrailingSpaces (page : Page) : Page :=
  { page with written := page.written.dropWhile (· = ' ') }

/-- The current line holds nothing but spaces. -/
def atLineStart (page : Page) : Bool :=
  (page.written.takeWhile (· ≠ '\n')).all (· = ' ')

def indent (page : Page) : Page :=
  { page with indentLevel := page.indentLevel + 1 }

def dedent (page : Page) : Page :=
  { page with indentLevel := page.indentLevel - 1 }

/-- The text of the page: no empty lines at the start, one line feed at the end, unless nothing
is left. -/
def finish (page : Page) : String :=
  match page.written.reverse.dropWhile (· = '\n') with
  | [] => ""
  | text => String.ofList ((text.reverse.dropWhile (· = '\n')).reverse ++ ['\n'])

end Page

end TriviaTree
