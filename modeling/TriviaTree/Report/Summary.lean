import TriviaTree.Report.Duration
import TriviaTree.Report.Paint

/-!
What is said at the end of a run over files.
-/

set_option autoImplicit false

namespace TriviaTree

/-- Counts over one run. -/
structure Summary where
  checked : Nat
  /-- Files whose rendering differs from them, or that did not survive a round trip. -/
  changed : Nat
  /-- Files that could not be read or understood. -/
  failed : Nat
deriving DecidableEq, Repr

namespace Summary

def empty : Summary := ⟨0, 0, 0⟩

def isClean (s : Summary) : Bool :=
  s.changed = 0 && s.failed = 0

def unprocessed (s : Summary) (paint : Paint) : String :=
  if s.failed = 0 then ""
  else "  " ++ paint.apply .red "✗" ++ " " ++ paint.apply .red (toString s.failed) ++
    " file(s) could not be processed\n"

/-- The lines around the outcome. -/
def frame (s : Summary) (paint : Paint) (title outcome : String) (elapsed : Nat) : String :=
  "\n" ++ paint.apply .heading title ++ "\n  Files checked: " ++ toString s.checked ++ "\n" ++
    outcome ++ "  Completed in " ++ Duration.text elapsed ++ "\n"

/-- After formatting; with `check` nothing was written. -/
def formatText (s : Summary) (paint : Paint) (check : Bool) (elapsed : Nat) : String :=
  let outcome :=
    if s.changed = 0 then "  " ++ paint.apply .green "✓" ++ " All files are formatted correctly\n"
    else if check then
      "  " ++ paint.apply .yellow "✗" ++ " " ++ paint.apply .yellow (toString s.changed) ++
        " file(s) would be reformatted\n"
    else
      "  " ++ paint.apply .green "✓" ++ " Applied formatting to " ++
        paint.apply .green (toString s.changed) ++ " file(s)\n"
  s.frame paint "Format Summary" (outcome ++ s.unprocessed paint) elapsed

/-- After checking round trips. -/
def checkText (s : Summary) (paint : Paint) (elapsed : Nat) : String :=
  let outcome :=
    if s.isClean then "  " ++ paint.apply .green "✓" ++ " Every file round-trips\n"
    else if s.changed = 0 then ""
    else
      "  " ++ paint.apply .red "✗" ++ " " ++ paint.apply .red (toString s.changed) ++
        " file(s) do not round-trip\n"
  s.frame paint "Round-trip Summary" (outcome ++ s.unprocessed paint) elapsed

end Summary

end TriviaTree
