import TriviaTree.Text.Alphabetic
import TriviaTree.Text.Extending
import TriviaTree.Text.Numeric
import TriviaTree.Text.Unprintable

/-!
Character classes, for all of Unicode, and the cuts of a text that they induce.

ASCII characters are decided by comparison and never reach a table. Texts are lists of
characters here: `trimStart`, `trimEnd` and `trim` drop blanks, `byteSize` measures a text in
UTF-8 bytes, and `takeBytes`, `dropBytes` and `sliceBytes` cut it at byte offsets.
-/

set_option autoImplicit false

namespace TriviaTree.Text

/-- The code point of `c` lies in one of the closed ranges. -/
def inRanges (ranges : List (Nat × Nat)) (c : Char) : Bool :=
  ranges.any fun range => range.1 ≤ c.toNat && c.toNat ≤ range.2

def isAscii (c : Char) : Bool :=
  c.toNat < 0x80

/-- Unicode property `Alphabetic`. -/
def isAlphabetic (c : Char) : Bool :=
  if isAscii c then c.isAlpha else inRanges alphabeticRanges c

/-- Alphabetic, or a number of any kind. -/
def isAlphanumeric (c : Char) : Bool :=
  if isAscii c then c.isAlphanum
  else inRanges alphabeticRanges c || inRanges numericRanges c

/-- Blanks beyond ASCII, as closed ranges. -/
def blankRanges : List (Nat × Nat) :=
  [(0x85, 0x85), (0xa0, 0xa0), (0x1680, 0x1680), (0x2000, 0x200a), (0x2028, 0x2029),
   (0x202f, 0x202f), (0x205f, 0x205f), (0x3000, 0x3000)]

/-- Unicode property `White_Space`: tabs, line breaks of every kind, spaces. -/
def isBlank (c : Char) : Bool :=
  if isAscii c then c = ' ' || (0x09 ≤ c.toNat && c.toNat ≤ 0x0d)
  else inRanges blankRanges c

/-- The control characters: the two blocks at the start of ASCII and of Latin-1, and DEL. -/
def isControl (c : Char) : Bool :=
  c.toNat < 0x20 || (0x7f ≤ c.toNat && c.toNat ≤ 0x9f)

/-- Extends the character before it. -/
def isExtending (c : Char) : Bool :=
  !isAscii c && inRanges extendingRanges c

/-- Has a shape of its own on the page; of the blanks only the plain space does. -/
def isPrintable (c : Char) : Bool :=
  if isAscii c then !isControl c else !inRanges unprintableRanges c

/-- A name starts with a letter or an underscore. -/
def isNameStart (c : Char) : Bool :=
  c = '_' || isAlphabetic c

/-- A name goes on with letters, numbers and underscores. -/
def isNamePart (c : Char) : Bool :=
  c = '_' || isAlphanumeric c

theorem isNamePart_of_isNameStart {c : Char} (h : isNameStart c = true) :
    isNamePart c = true := by
  simp only [isNameStart, isNamePart, isAlphabetic, isAlphanumeric,
    Bool.or_eq_true] at *
  refine h.imp id fun h => ?_
  split at h
  · simp_all [Char.isAlphanum]
  · simp_all

/-- A letter or underscore, then letters, numbers and underscores. -/
def isIdentifier : List Char → Bool
  | [] => false
  | c :: cs => isNameStart c && cs.all isNamePart

def trimStart (cs : List Char) : List Char :=
  cs.dropWhile isBlank

def trimEnd (cs : List Char) : List Char :=
  (cs.reverse.dropWhile isBlank).reverse

def trim (cs : List Char) : List Char :=
  trimEnd (trimStart cs)

/-- Size of a text in UTF-8 bytes. -/
def byteSize (cs : List Char) : Nat :=
  cs.foldl (fun size c => size + c.utf8Size) 0

/-- The first `size` bytes of a text, when they end between two characters. -/
def takeBytes (size : Nat) : List Char → Option (List Char)
  | [] => if size = 0 then some [] else none
  | c :: cs =>
      if size = 0 then some []
      else if c.utf8Size ≤ size then (takeBytes (size - c.utf8Size) cs).map (c :: ·)
      else none

/-- A text without its first `size` bytes, when they end between two characters. -/
def dropBytes (size : Nat) : List Char → Option (List Char)
  | [] => if size = 0 then some [] else none
  | c :: cs =>
      if size = 0 then some (c :: cs)
      else if c.utf8Size ≤ size then dropBytes (size - c.utf8Size) cs
      else none

/-- The bytes from `start` up to `stop`, when both stand between two characters. -/
def sliceBytes (start stop : Nat) (cs : List Char) : Option (List Char) :=
  if start ≤ stop then (dropBytes start cs).bind (takeBytes (stop - start)) else none

/-- What is left of `cs` after `start`, when `cs` begins with it. -/
def afterStart (start cs : List Char) : Option (List Char) :=
  match start, cs with
  | [], rest => some rest
  | _ :: _, [] => none
  | a :: start, c :: cs => if a = c then afterStart start cs else none

end TriviaTree.Text
