import TriviaTree.Files.Path

/-!
What a program sees of the machine it runs on.

A `Host` gives access to files, to the two output streams and to a clock, in a monad of its own,
so programs can be run on a machine or on a model of one.
-/

set_option autoImplicit false

namespace TriviaTree

/-- Why a file cannot be used. -/
inductive FileFault where
  | notFound
  | notDirectory
  | isDirectory
  | notText
  | other (message : String)
deriving DecidableEq, Repr

def FileFault.message : FileFault → String
  | .notFound => "No such file or directory (os error 2)"
  | .notDirectory => "Not a directory (os error 20)"
  | .isDirectory => "Is a directory (os error 21)"
  | .notText => "stream did not contain valid UTF-8"
  | .other message => message

inductive FileKind where
  | file
  | directory
deriving DecidableEq, Repr

/-- What a directory holds. -/
inductive DirEntry where
  | file (name : String)
  | directory (name : String) (entries : List DirEntry)

structure Host (m : Type → Type) where
  /-- What is at a path. -/
  kind? : String → m (Option FileKind)
  /-- The text of a file. -/
  read : String → m (Except FileFault String)
  write : String → String → m (Except FileFault Unit)
  /-- Everything below a directory, in any order. -/
  entries : String → m (List DirEntry)
  /-- The full name of what is at a path. -/
  fullPath : String → m (Except FileFault String)
  print : String → m Unit
  printError : String → m Unit
  /-- Milliseconds since the program was started. -/
  elapsed : m Nat

/-- Names of files are ordered by their characters. -/
def nameOrder (a b : String) : Bool :=
  !(b < a)

mutual

/-- The sources below a directory at `path`, by name, each directory where its name belongs.
Hidden files and directories are left out. -/
def DirEntry.sources (path : String) : DirEntry → List String
  | .file name =>
      if name.startsWith "." || FilePath.extension? name ≠ some "py" then []
      else [FilePath.join path name]
  | .directory name entries =>
      if name.startsWith "." then []
      else ((sourcesBelow (FilePath.join path name) entries).mergeSort
        fun a b => nameOrder a.1 b.1).flatMap (·.2)

/-- The sources of each entry, with the entry's name. -/
def sourcesBelow (path : String) : List DirEntry → List (String × List String)
  | [] => []
  | .file name :: rest => (name, DirEntry.sources path (.file name)) :: sourcesBelow path rest
  | .directory name entries :: rest =>
      (name, DirEntry.sources path (.directory name entries)) :: sourcesBelow path rest

end

/-- The sources below a directory, whatever its own name. -/
def sourcesIn (path : String) (entries : List DirEntry) : List String :=
  ((sourcesBelow path entries).mergeSort fun a b => nameOrder a.1 b.1).flatMap (·.2)

end TriviaTree
