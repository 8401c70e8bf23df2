import TriviaTree.Command

/-!
The arguments of the program.

Options that hold for every command may stand before or after its name. Anything that does not
begin with a dash is a name of a file or directory; after `--` everything is.
-/

set_option autoImplicit false

namespace TriviaTree

/-- What the arguments ask for. -/
structure Invocation where
  command : Command
  settingsPath : Option String
  noColour : Bool
deriving DecidableEq, Repr

/-- Arguments that make no sense. -/
inductive UsageError where
  | noCommand
  | unknownCommand (name : String)
  | unknownOption (name : String)
  | missingValue (option : String)
  | missingFile
  | surplus (argument : String)
deriving DecidableEq, Repr

def UsageError.message : UsageError → String
  | .noCommand => "no command given"
  | .unknownCommand name => "unrecognized subcommand '" ++ name ++ "'"
  | .unknownOption name => "unexpected argument '" ++ name ++ "' found"
  | .missingValue option => "a value is required for '" ++ option ++ "'"
  | .missingFile => "the file argument is missing"
  | .surplus argument => "unexpected argument '" ++ argument ++ "' found"

/-- Arguments sorted by what they are. -/
structure Arguments where
  names : List String
  flags : List String
  settingsPath : Option String
deriving DecidableEq, Repr

/-- Options that take a value. -/
def valueOptions : List String := ["-c", "--config", "-j", "--threads"]

def isSettingsOption (name : String) : Bool :=
  name = "-c" || name = "--config"

/-- An option and the value written to it with an equals sign. -/
def splitOption (argument : String) : String × Option String :=
  match argument.toList.dropWhile (· ≠ '=') with
  | [] => (argument, none)
  | _ :: value => (String.ofList (argument.toList.takeWhile (· ≠ '=')), some (String.ofList value))

def Arguments.setValue (a : Arguments) (option value : String) : Arguments :=
  if isSettingsOption option then { a with settingsPath := some value } else a

/-- Sort arguments by what they are. -/
def sortArguments (sorted : Arguments) : List String → Except UsageError Arguments
  | [] => .ok sorted
  | "--" :: rest => .ok { sorted with names := sorted.names ++ rest }
  | argument :: rest =>
      if argument.startsWith "-" && argument ≠ "-" then
        let (option, value) := splitOption argument
        if valueOptions.contains option then
          match value with
          | some value => sortArguments (sorted.setValue option value) rest
          | none =>
              match rest with
              | [] => .error (.missingValue option)
              | value :: rest => sortArguments (sorted.setValue option value) rest
        else sortArguments { sorted with flags := sorted.flags ++ [argument] } rest
      else sortArguments { sorted with names := sorted.names ++ [argument] } rest
termination_by arguments => arguments.length

/-- Flags that hold for every command. -/
def commonFlags : List String := ["-v", "-vv", "-vvv", "--verbose", "--no-color"]

/-- Every flag is one of those allowed. -/
def Arguments.allow (a : Arguments) (allowed : List String) : Except UsageError Unit :=
  match a.flags.find? fun flag => !(commonFlags ++ allowed).contains flag with
  | some flag => .error (.unknownOption flag)
  | none => .ok ()

/-- Paths, or the working directory when there are none. -/
def orHere (paths : List String) : List String :=
  if paths.isEmpty then ["."] else paths

def oneFile : List String → Except UsageError String
  | [] => .error .missingFile
  | [file] => .ok file
  | _ :: surplus :: _ => .error (.surplus surplus)

def noNames : List String → Except UsageError Unit
  | [] => .ok ()
  | surplus :: _ => .error (.surplus surplus)

/-- The command that arguments name. -/
def Arguments.command (a : Arguments) : Except UsageError Command :=
  let flag (name : String) : Bool := a.flags.contains name
  match a.names with
  | [] => .error .noCommand
  | "fmt" :: paths => do
      a.allow ["--check", "--diff"]
      return .format (orHere paths) (flag "--check") (flag "--diff")
  | "dump" :: files => do
      a.allow ["--json", "--plain"]
      return .dump (← oneFile files) (flag "--json") (flag "--plain")
  | "tokens" :: files => do
      a.allow ["--json"]
      return .tokens (← oneFile files) (flag "--json")
  | "check" :: paths => do
      a.allow ["--details"]
      return .check (orHere paths) (flag "--details")
  | "config" :: "show" :: rest => do
      a.allow ["--resolved"]
      noNames rest
      return .showSettings (flag "--resolved")
  | "config" :: "schema" :: rest => do
      a.allow []
      noNames rest
      return .showSchema
  | "version" :: rest => do
      a.allow ["--detailed"]
      noNames rest
      return .version (flag "--detailed")
  | name :: _ => .error (.unknownCommand name)

/-- What a list of arguments asks for. -/
def parseArguments (arguments : List String) : Except UsageError Invocation := do
  let sorted ← sortArguments ⟨[], [], none⟩ arguments
  return ⟨← sorted.command, sorted.settingsPath, sorted.flags.contains "--no-color"⟩

end TriviaTree
