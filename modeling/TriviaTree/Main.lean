import TriviaTree.Arguments

/-!
The program: commands carried out on the machine at hand.
-/

set_option autoImplicit false

namespace TriviaTree

/-- Everything below a directory. -/
partial def machineEntries (path : String) : IO (List DirEntry) := do
  let found ← ((← IO.currentDir) / path).readDir
  found.toList.mapM fun entry => do
    if ← entry.path.isDir then
      return .directory entry.fileName (← machineEntries entry.path.toString)
    else return .file entry.fileName

def machineKind? (path : String) : IO (Option FileKind) := do
  let full := (← IO.currentDir) / path
  if path = "" then return none
  else if ← full.isDir then return some .directory
  else if ← full.pathExists then return some .file
  else return none

def machineRead (path : String) : IO (Except FileFault String) := do
  match ← machineKind? path with
  | none => return .error .notFound
  | some .directory => return .error .isDirectory
  | some .file =>
      try
        match String.fromUTF8? (← IO.FS.readBinFile path) with
        | some text => return .ok text
        | none => return .error .notText
      catch e => return .error (.other (toString e))

def machineWrite (path text : String) : IO (Except FileFault Unit) := do
  try
    IO.FS.writeFile path text
    return .ok ()
  catch e => return .error (.other (toString e))

def machineFullPath (path : String) : IO (Except FileFault String) := do
  match ← machineKind? path with
  | none => return .error .notFound
  | some _ =>
      try return .ok (← IO.FS.realPath path).toString
      catch e => return .error (.other (toString e))

/-- The machine at hand; its clock started at `start`. -/
def machine (start : Nat) : Host IO where
  kind? := machineKind?
  read := machineRead
  write := machineWrite
  entries := machineEntries
  fullPath := machineFullPath
  print := IO.print
  printError := IO.eprint
  elapsed := return (← IO.monoMsNow) - start

end TriviaTree

open TriviaTree in
def main (arguments : List String) : IO UInt32 := do
  match parseArguments arguments with
  | .error e =>
      IO.eprintln ("error: " ++ e.message)
      return 2
  | .ok invocation =>
      let coloured := (← (← IO.getStdout).isTty) && !invocation.noColour
      let session : Session IO :=
        ⟨machine (← IO.monoMsNow), ⟨coloured⟩, invocation.settingsPath⟩
      match ← session.run invocation.command with
      | .ok code => return UInt32.ofNat code
      | .error e =>
          IO.eprintln ("error: " ++ e.message)
          return 2
