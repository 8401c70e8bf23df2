import TriviaTree.Text.Classes

/-!
Names of files: parts divided by slashes.
-/

set_option autoImplicit false

namespace TriviaTree.FilePath

/-- The parts between the slashes of a path. -/
def parts (path : String) : List String :=
  (path.toList.splitOn '/').map String.ofList

/-- The parts that name something: empty parts and single dots stay where they are. -/
def named (path : String) : List String :=
  (parts path).filter fun part => part ≠ "" && part ≠ "."

/-- The last part of a path. -/
def fileName? (path : String) : Option String :=
  (named path).getLast?.filter (· ≠ "..")

/-- The text after the last dot of a file's name; a dot at the start of a name does not count. -/
def extension? (path : String) : Option String :=
  match fileName? path with
  | none => none
  | some name =>
      match (name.toList.splitOn '.').reverse with
      | last :: first :: rest =>
          if rest.isEmpty && first.isEmpty then none else some (String.ofList last)
      | _ => none

/-- The directory of a file: everything before the last part. -/
def parent (path : String) : String :=
  "/".intercalate (parts path).dropLast

/-- A name in a directory. -/
def join (directory name : String) : String :=
  if directory.toList.getLast? = some '/' then directory ++ name else directory ++ "/" ++ name

end TriviaTree.FilePath
