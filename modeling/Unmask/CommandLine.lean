/-
# `Unmask.CommandLine` — the command from arguments to outcome

A command asks for at most two files, the settings and the script; what it does
is then a function of its arguments, the environment and the contents of these
files.  The outcome is an exit code with a text to show or a file to write.
Settings are loaded before the script is looked at.
-/
import Unmask.CommandLine.Arguments
import Unmask.Document.JsonText
import Unmask.Document.YamlText
import Unmask.RunError
import Unmask.Settings.File

namespace Unmask

/-- What a file holds, as far as it can be told. -/
inductive FileState where
  | missing
  | unreadable
  | text (s : String)
deriving Repr, DecidableEq, Inhabited

/-- What a command finds around it. -/
structure Surroundings where
  environment : List (String × String) := []
  standardInput : FileState := .text ""
  file : String → FileState

inductive Ending where
  | shows (text : String) (code : Nat)
  | saves (path text : String) (code : Nat)
  | fails (e : RunError)
  | misused
deriving Repr, Inhabited

/-- The exit code of an ending, if the file to be written can be written. -/
def Ending.exitCode : Ending → Nat
  | .shows _ code => code
  | .saves _ _ code => code
  | .fails (.settings .beforeStart) => 101
  | .fails _ => 1
  | .misused => 2

def versionText : String := "js-deobfuscator 0.1.0\n"

/-- A line of the help text: an option, padded to the column of the descriptions. -/
def helpLine (option description : String) : String :=
  option ++ String.ofList (List.replicate (37 - option.length) ' ') ++ description ++ "\n"

def helpText : String :=
  "Rename obfuscated JavaScript identifiers and numbers\n\n" ++
  "Usage: js-deobfuscator [OPTIONS] <INPUT>\n\n" ++
  "Arguments:\n  <INPUT>  Script to transform, `-` for stdin\n\nOptions:\n" ++
  helpLine "  -c, --config <CONFIG>" "" ++
  helpLine "      --decode-chars"
    "Replace char-code numbers with character literals instead of tokens" ++
  helpLine "      --timeout-secs <TIMEOUT_SECS>" "" ++
  helpLine "  -f, --format <FORMAT>" "[default: json] [possible values: json, yaml]" ++
  helpLine "  -o, --output <OUTPUT>" "" ++
  helpLine "  -h, --help" "Print help" ++
  helpLine "  -V, --version" "Print version"

namespace Invocation

def overrides (i : Invocation) : Overrides where
  decodeNumbers := if i.decodeNumbers then some true else none
  timeLimit := i.timeLimit

def settingsFile (i : Invocation) (s : Surroundings) : SettingsFile :=
  match i.config with
  | none => .none
  | some path =>
      match s.file path with
      | .missing => .missing path
      | .unreadable => .found path none
      | .text t => .found path (some t)

/-- The script: standard input for a dash, else a file. -/
def source (i : Invocation) (s : Surroundings) : Except RunError String :=
  match if i.input == "-" then s.standardInput else s.file i.input with
  | .missing => .error (.storage ("no such file: " ++ i.input))
  | .unreadable => .error (.storage ("not a text: " ++ i.input))
  | .text t => .ok t

/-- How a run ended, written as asked for. -/
def render (i : Invocation) (outcome : Except Failure Report) : String :=
  let d := Document.ofOutcome outcome
  match i.format with
  | .json => d.prettyJson
  | .yaml => d.yaml

/-- The ending of a run: its report, shown with a line end or saved as it is.  A
failed run is reported too. -/
def ending (i : Invocation) (outcome : Except Failure Report) : Ending :=
  let code := match outcome with
    | .ok _ => 0
    | .error _ => 1
  match i.output with
  | some path => .saves path (i.render outcome) code
  | none => .shows (i.render outcome ++ "\n") code

def run (i : Invocation) (s : Surroundings) : Ending :=
  match Settings.load (i.settingsFile s) s.environment i.overrides with
  | .error e => .fails (.settings e)
  | .ok settings =>
      match i.source s with
      | .error e => .fails e
      | .ok script => i.ending (unmaskWithin settings.timeLimit settings.options script)

end Invocation

namespace Command

def files : Command → List String
  | .unmask i => i.config.toList ++ (if i.input == "-" then [] else [i.input])
  | _ => []

def readsInput : Command → Bool
  | .unmask i => i.input == "-"
  | _ => false

def run (c : Command) (s : Surroundings) : Ending :=
  match c with
  | .help => .shows helpText 0
  | .version => .shows versionText 0
  | .misuse => .misused
  | .unmask i => i.run s

end Command

end Unmask
