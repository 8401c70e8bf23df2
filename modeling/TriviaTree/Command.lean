import TriviaTree.Json.Tree
import TriviaTree.Report.LineDiff
import TriviaTree.Report.Summary
import TriviaTree.RoundTrip
import TriviaTree.Settings.Load
import TriviaTree.Settings.Schema
import TriviaTree.Settings.TomlText

/-!
The commands of the program.

Every command ends with an exit code: 0, or 1 when files need attention. `Host` is the machine it
runs on. Files are all read before any is written.
-/

set_option autoImplicit false

namespace TriviaTree

/-- Why a command cannot go on. -/
inductive CommandError where
  | settings (error : SettingsError)
  | splice (error : SpliceError)
  | noSuchPath (path : String)
  | unreadable (path : String) (fault : FileFault)
  | unwritable (path : String) (fault : FileFault)
deriving DecidableEq, Repr

def CommandError.message : CommandError → String
  | .settings error => error.message
  | .splice error => error.message
  | .noSuchPath path => "Path not found: " ++ path
  | .unreadable path fault => "Failed to read " ++ path ++ ": " ++ fault.message
  | .unwritable path fault => "Failed to write " ++ path ++ ": " ++ fault.message

/-- Why one file of several is left out. -/
inductive FileError where
  | unreadable (path : String) (fault : FileFault)
  | unparsable (path : String) (error : SpliceError)
deriving DecidableEq, Repr

def FileError.message : FileError → String
  | .unreadable path fault => "Failed to read " ++ path ++ ": " ++ fault.message
  | .unparsable path error => "Failed to parse " ++ path ++ ": " ++ error.message

inductive Command where
  /-- Write files anew; with `check` only say which would change. -/
  | format (paths : List String) (check diff : Bool)
  /-- Show the tree of a file. -/
  | dump (file : String) (json plain : Bool)
  /-- Show the comments of a file and where they went. -/
  | tokens (file : String) (json : Bool)
  /-- Check that files survive a round trip. -/
  | check (paths : List String) (details : Bool)
  | showSettings (resolved : Bool)
  | showSchema
  | version (detailed : Bool)
deriving DecidableEq, Repr

/-- Where and how commands run. -/
structure Session (m : Type → Type) where
  host : Host m
  paint : Paint
  /-- The settings file that was asked for. -/
  settingsPath : Option String

namespace Session

variable {m : Type → Type} [Monad m]

abbrev Run (m : Type → Type) := ExceptT CommandError m

def print (s : Session m) (text : String) : Run m Unit :=
  ExceptT.lift (s.host.print text)

def printLine (s : Session m) (text : String) : Run m Unit :=
  s.print (text ++ "\n")

/-- Say why a file is left out. -/
def complain (s : Session m) (error : FileError) : Run m Unit :=
  ExceptT.lift (s.host.printError ("error: " ++ error.message ++ "\n"))

/-- The settings that were asked for, or those nearest to the first path. -/
def settings (s : Session m) (paths : List String) : Run m Settings := do
  let start ← match paths.head? with
    | none => pure none
    | some path =>
        match ← ExceptT.lift (s.host.kind? path) with
        | some .file => pure (some (FilePath.parent path))
        | some .directory => pure (some path)
        | none => pure none
  match ← ExceptT.lift (s.host.loadSettings s.settingsPath start) with
  | .ok settings => return settings
  | .error error => throw (.settings error)

/-- The files that paths stand for: a file for itself, a directory for the sources below it. -/
def sources (s : Session m) (paths : List String) : Run m (List String) := do
  let found ← paths.mapM fun path => do
    match ← ExceptT.lift (s.host.kind? path) with
    | some .file => pure [path]
    | some .directory => return sourcesIn path (← ExceptT.lift (s.host.entries path))
    | none => throw (.noSuchPath path)
  return found.flatten

def readSource (s : Session m) (path : String) : Run m String := do
  match ← ExceptT.lift (s.host.read path) with
  | .ok text => return text
  | .error fault => throw (.unreadable path fault)

/-- What becomes of one file of several. -/
def attempt {α : Type} (s : Session m) (path : String) (work : String → Except SpliceError α) :
    Run m (Except FileError α) := do
  match ← ExceptT.lift (s.host.read path) with
  | .error fault => return .error (.unreadable path fault)
  | .ok text => return (work text).mapError (.unparsable path)

def orFail {α : Type} (x : Except SpliceError α) : Run m α :=
  match x with
  | .ok a => return a
  | .error error => throw (.splice error)

/-! ### Formatting -/

/-- A file and its new text. -/
structure Formatted where
  path : String
  old : String
  new : String

/-- Show and write one file that changes. -/
def applyFormat (s : Session m) (check diff : Bool) (file : Formatted) : Run m Unit := do
  if diff then s.print (renderDiff s.paint file.path file.old file.new)
  if check then s.printLine ("Would reformat: " ++ file.path)
  else
    match ← ExceptT.lift (s.host.write file.path file.new) with
    | .ok () => s.printLine ("Formatted: " ++ file.path)
    | .error fault => throw (.unwritable file.path fault)

def format (s : Session m) (paths : List String) (check diff : Bool) : Run m Nat := do
  let settings ← s.settings paths
  let files ← s.sources paths
  let outcomes ← files.mapM fun path => s.attempt path fun old => do
    let tree ← parseAugmented settings.toClassifier old
    return (⟨path, old, tree.source .trivia settings.toOptions⟩ : Formatted)
  let summary ← outcomes.foldlM (fun (summary : Summary) outcome => do
    let summary := { summary with checked := summary.checked + 1 }
    match outcome with
    | .error error =>
        s.complain error
        return { summary with failed := summary.failed + 1 }
    | .ok file =>
        if file.old = file.new then return summary
        else
          s.applyFormat check diff file
          return { summary with changed := summary.changed + 1 }) Summary.empty
  s.print (summary.formatText s.paint check (← ExceptT.lift s.host.elapsed))
  return if summary.failed > 0 || (check && summary.changed > 0) then 1 else 0

/-! ### Showing trees -/

def dump (s : Session m) (file : String) (json plain : Bool) : Run m Nat := do
  let settings ← s.settings [file]
  let source ← s.readSource file
  let tree ← orFail <|
    if plain then (parseModule source .native).mapError .malformed
    else parseAugmented settings.toClassifier source
  if json then s.printLine tree.toJson.text
  else s.printLine (tree.dump (if plain then .codeOnly else .standard))
  return 0

/-! ### Showing comments -/

/-- Fill a text up with spaces to a width. -/
def padTo (width : Nat) (text : String) : String :=
  text ++ String.ofList (List.replicate (width - text.length) ' ')

def eventText : SpliceEvent → String
  | .classified _ label => "  [" ++ label ++ "]"
  | .anchored _ owner field index => "  -> " ++ owner ++ "." ++ field ++ "[" ++ toString index ++ "]"
  | .inserted _ _ true => "  (end of line)"
  | .inserted _ _ false => ""

/-- A comment and everything that happened to it. -/
def tokenLine (events : List SpliceEvent) (token : TriviaToken) : String :=
  padTo 12 token.span.start.text ++ " #" ++ token.text ++
    String.join ((events.filter (·.span = token.span)).map eventText)

def tokens (s : Session m) (file : String) (json : Bool) : Run m Nat := do
  let settings ← s.settings [file]
  let source ← s.readSource file
  let tree ← orFail ((parseModule source .native).mapError .malformed)
  let tokens ← orFail ((triviaTokens source).mapError .malformed)
  let _ ← orFail (insertTrivia settings.toClassifier source tree tokens)
  let events := spliceEvents settings.toClassifier source tree tokens
  if json then s.printLine (Json.arr (events.map SpliceEvent.toJson)).text
  else
    s.print (String.join (tokens.map fun token => tokenLine events token ++ "\n"))
    s.printLine (toString (events.countP (·.isInserted)) ++ " trivia token(s)")
  return 0

/-! ### Checking round trips -/

/-- What both sides of a difference were. -/
def detailLines (d : Difference) : List String :=
  match d.expected?, d.actual? with
  | some expected, some actual => ["  expected: " ++ expected, "  actual:   " ++ actual]
  | _, _ => []

/-- Everything to be said about a file that does not survive. -/
def failureLines (path : String) (v : Validation) (details : Bool) : List String :=
  let issues := v.differences.map fun d => "  " ++ d.issue
  let more :=
    if details then
      v.differences.flatMap detailLines ++ ["  rendered:"] ++
        (textLines v.rendered.toList).map fun line => "    " ++ String.ofList line
    else []
  ("Does not round-trip: " ++ path) :: issues ++ more

def check (s : Session m) (paths : List String) (details : Bool) : Run m Nat := do
  let settings ← s.settings paths
  let roundTrip : RoundTrip := ⟨settings.toClassifier, settings.toOptions⟩
  let files ← s.sources paths
  let outcomes ← files.mapM fun path => do
    return (path, ← s.attempt path roundTrip.validate)
  let summary ← outcomes.foldlM (fun (summary : Summary) (path, outcome) => do
    let summary := { summary with checked := summary.checked + 1 }
    match outcome with
    | .error error =>
        s.complain error
        return { summary with failed := summary.failed + 1 }
    | .ok v =>
        if v.isValid then return summary
        else
          (failureLines path v details).forM s.printLine
          return { summary with changed := summary.changed + 1 }) Summary.empty
  s.print (summary.checkText s.paint (← ExceptT.lift s.host.elapsed))
  return if summary.isClean then 0 else 1

/-! ### Settings and version -/

/-- Where the settings come from, as a comment. -/
def originLine : Option String → String
  | some path => "# Loaded from " ++ path
  | none => "# No configuration file found, using defaults"

def showSettings (s : Session m) (resolved : Bool) : Run m Nat := do
  let settings ← s.settings []
  if resolved then
    let origin ← match s.settingsPath with
      | some path => pure (some path)
      | none =>
          match ← ExceptT.lift (s.host.findSettings ".") with
          | .ok found => pure found
          | .error error => throw (.settings error)
    s.printLine (originLine origin)
    s.print (Toml.write (settings.merge ⟨none, some .standard, some .standard⟩))
  else s.print (Toml.write settings)
  return 0

def programName : String := "marginalia"

def libraryName : String := "marginalia-core"

def versionText : String := "0.1.0"

def version (s : Session m) (detailed : Bool) : Run m Nat := do
  s.printLine (programName ++ " " ++ versionText)
  if detailed then
    s.printLine (libraryName ++ " " ++ versionText)
    s.printLine ("Directive families: " ++ ", ".intercalate (Family.all.map Family.name))
  return 0

/-- Carry out a command. -/
def run (s : Session m) : Command → m (Except CommandError Nat)
  | .format paths check diff => (s.format paths check diff).run
  | .dump file json plain => (s.dump file json plain).run
  | .tokens file json => (s.tokens file json).run
  | .check paths details => (s.check paths details).run
  | .showSettings resolved => (s.showSettings resolved).run
  | .showSchema => (do s.printLine Schema.settings.text; return 0 : Run m Nat).run
  | .version detailed => (s.version detailed).run

end Session

end TriviaTree
