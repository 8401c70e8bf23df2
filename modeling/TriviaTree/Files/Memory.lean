import TriviaTree.Files.Host

/-!
A machine that consists of the files below one directory.

The directory is both the working directory and the root of everything; nothing exists outside of
it. Files are given by the parts of their names.
-/

set_option autoImplicit false

namespace TriviaTree

/-- What is in a file; bytes that are no text cannot be read. -/
inductive FileContent where
  | text (text : String)
  | bytes
deriving DecidableEq, Repr

structure Memory where
  /-- The full name of the directory. -/
  base : String
  files : List (List String × FileContent)
  /-- Directories besides those that hold files. -/
  directories : List (List String)
  stdout : String
  stderr : String

namespace Memory

def ofFiles (base : String) (files : List (String × FileContent)) (directories : List String) :
    Memory :=
  { base := base
    files := files.map fun (name, content) => (FilePath.named name, content)
    directories := directories.map FilePath.named
    stdout := ""
    stderr := "" }

/-- What is at a place, given by its parts. -/
def at? (memory : Memory) (place : List String) : Option FileKind :=
  if (memory.files.lookup place).isSome then some .file
  else if place.isEmpty || (memory.files.map (·.1) ++ memory.directories).any place.isPrefixOf then
    some .directory
  else none

/-- Follow the parts of a path from a place. -/
def follow (memory : Memory) : List String → List String → Except FileFault (List String)
  | place, [] => .ok place
  | place, part :: rest =>
      if memory.at? place ≠ some .directory then .error .notDirectory
      else if part = "" || part = "." then memory.follow place rest
      else if part = ".." then
        if place.isEmpty then .error .notFound else memory.follow place.dropLast rest
      else if (memory.at? (place ++ [part])).isNone then .error .notFound
      else memory.follow (place ++ [part]) rest

/-- The place that a path leads to. A path starts with the full name of the directory, or in the
directory. -/
def place (memory : Memory) (path : String) : Except FileFault (List String) :=
  match Text.afterStart memory.base.toList path.toList with
  | some [] => .ok []
  | some ('/' :: rest) => memory.follow [] (FilePath.parts (String.ofList rest))
  | _ =>
      if path = "" || path.startsWith "/" then .error .notFound
      else memory.follow [] (FilePath.parts path)

def kind? (memory : Memory) (path : String) : Option FileKind :=
  match memory.place path with
  | .ok place => memory.at? place
  | .error _ => none

def read (memory : Memory) (path : String) : Except FileFault String :=
  match memory.place path with
  | .error fault => .error fault
  | .ok place =>
      match memory.files.lookup place with
      | some (.text text) => .ok text
      | some .bytes => .error .notText
      | none => .error .isDirectory

/-- Put a text into a file that is there already. -/
def write (memory : Memory) (path text : String) : Except FileFault Memory :=
  match memory.place path with
  | .error fault => .error fault
  | .ok place =>
      if memory.at? place = some .file then
        .ok { memory with
          files := memory.files.map fun file => if file.1 = place then (place, .text text) else file }
      else .error .isDirectory

/-- The entries that a list of places makes, down to a depth. A place with `true` is a file. -/
def entriesOf : Nat → List (List String × Bool) → List DirEntry
  | 0, _ => []
  | depth + 1, places =>
      let names := (places.filterMap (·.1.head?)).eraseDups
      names.map fun name =>
        let below := places.filterMap fun (place, isFile) =>
          match place with
          | head :: rest => if head = name then some (rest, isFile) else none
          | [] => none
        if below.contains ([], true) then .file name
        else .directory name (entriesOf depth (below.filter (·.1 ≠ [])))

def entries (memory : Memory) (path : String) : List DirEntry :=
  match memory.place path with
  | .error _ => []
  | .ok place =>
      let places := memory.files.map (fun file => (file.1, true)) ++
        memory.directories.map (·, false)
      let below := places.filterMap fun (full, isFile) =>
        if place.isPrefixOf full && full.length ≠ place.length then
          some (full.drop place.length, isFile)
        else none
      entriesOf ((below.map (·.1.length)).foldl max 0) below

def fullPath (memory : Memory) (path : String) : Except FileFault String :=
  (memory.place path).map fun place => "/".intercalate (memory.base :: place)

/-- The directory as a machine; no time passes on it. -/
def host : Host (StateM Memory) where
  kind? path := return (← get).kind? path
  read path := return (← get).read path
  write path text := do
    match (← get).write path text with
    | .ok memory => set memory; return .ok ()
    | .error fault => return .error fault
  entries path := return (← get).entries path
  fullPath path := return (← get).fullPath path
  print text := modify fun memory => { memory with stdout := memory.stdout ++ text }
  printError text := modify fun memory => { memory with stderr := memory.stderr ++ text }
  elapsed := return 0

end Memory

end TriviaTree
