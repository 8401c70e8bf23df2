import TriviaTree.Files.Host
import TriviaTree.Settings.JsonText
import TriviaTree.Settings.Toml

/-!
Settings files: reading one, and finding the nearest.

The ending of a file's name tells its format. The nearest settings file is looked for in the
starting directory and then in each directory above it.
-/

set_option autoImplicit false

namespace TriviaTree

/-- Why a settings file is of no use. -/
inductive SettingsFault where
  | unreadable (fault : FileFault)
  | unknownFormat
  | malformed
deriving DecidableEq, Repr

inductive SettingsError where
  /-- The file at `path` cannot be used. -/
  | file (path : String) (fault : SettingsFault)
  /-- There is no file at `path`, although it was asked for. -/
  | missing (path : String)
deriving DecidableEq, Repr

def unreadableMessage (path : String) (fault : FileFault) : String :=
  "IO error for path '" ++ path ++ "': " ++ fault.message

def unknownFormatMessage (path : String) : String :=
  "unsupported config format '" ++ path ++ "' (expected .toml or .json)"

def SettingsError.message : SettingsError → String
  | .file path (.unreadable fault) => unreadableMessage path fault
  | .file path .unknownFormat =>
      "Configuration error: Failed to load config from '" ++ path ++ "': " ++
        unknownFormatMessage path
  | .file path .malformed => "Configuration error: Failed to load config from '" ++ path ++ "'"
  | .missing path => "Configuration error: Config file not found: " ++ path

/-- The settings in the text of the file at `path`. -/
def Settings.ofText (path text : String) : Except SettingsFault Settings :=
  let found :=
    match FilePath.extension? path with
    | some "toml" => some (Toml.settings? text)
    | some "json" => some (JsonText.settings? text)
    | _ => none
  match found with
  | none => .error .unknownFormat
  | some none => .error .malformed
  | some (some settings) => .ok settings

/-- Names of settings files, the first choice first. -/
def settingsFileNames : List String :=
  [".marginaliarc.toml", ".marginaliarc.json", "marginalia.toml"]

namespace Host

variable {m : Type → Type} [Monad m]

/-- The settings in the file at `path`. -/
def readSettings (host : Host m) (path : String) : m (Except SettingsFault Settings) := do
  match ← host.read path with
  | .error fault => return .error (.unreadable fault)
  | .ok text => return Settings.ofText path text

/-- The first path that is a file. -/
def firstFile? (host : Host m) : List String → m (Option String)
  | [] => return none
  | path :: paths => do
      if (← host.kind? path) = some .file then return some path else host.firstFile? paths

/-- The directories from `path` upwards; the topmost is `/`, or the first part of the path. -/
def ancestors (path : String) : List String :=
  let parts := FilePath.parts path
  (List.range parts.length).map fun above =>
    let text := "/".intercalate (parts.take (parts.length - above))
    if text = "" then "/" else text

/-- The nearest settings file, looked for from `start` upwards. -/
def findSettings (host : Host m) (start : String) : m (Except SettingsError (Option String)) := do
  match ← host.fullPath start with
  | .error fault => return .error (.file start (.unreadable fault))
  | .ok path =>
      return .ok (← host.firstFile? ((ancestors path).flatMap fun directory =>
        settingsFileNames.map (FilePath.join directory)))

def loadSettingsFile (host : Host m) (path : String) : m (Except SettingsError Settings) := do
  return (← host.readSettings path).mapError (.file path)

/-- The settings of the file that was asked for, or of the nearest one. -/
def loadSettings (host : Host m) (asked start : Option String) :
    m (Except SettingsError Settings) := do
  match asked with
  | some path =>
      if (← host.kind? path).isNone then return .error (.missing path)
      else host.loadSettingsFile path
  | none =>
      match ← host.findSettings (start.getD ".") with
      | .error e => return .error e
      | .ok none => return .ok .empty
      | .ok (some path) => host.loadSettingsFile path

end Host

end TriviaTree
