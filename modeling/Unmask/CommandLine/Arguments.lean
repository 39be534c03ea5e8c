/-
# `Unmask.CommandLine.Arguments` — what a command line asks for

The arguments are read from left to right.  An option takes its value from the
same argument or from the next; a value that looks like an option is none.
Short flags may be clustered.  Everything is checked where it stands, so the
first thing that is wrong, or that asks for help or the version, decides; only
a missing script is noticed at the end.
-/
import Unmask.Settings

namespace Unmask

inductive ReportFormat where
  | json
  | yaml
deriving Repr, DecidableEq, Inhabited

def ReportFormat.ofName? : String → Option ReportFormat
  | "json" => some .json
  | "yaml" => some .yaml
  | _ => none

/-- A run as it was asked for. -/
structure Invocation where
  input : String
  config : Option String := none
  decodeNumbers : Bool := false
  timeLimit : Option Nat := none
  format : ReportFormat := .json
  output : Option String := none
deriving Repr, DecidableEq, Inhabited

inductive Command where
  | help
  | version
  | misuse
  | unmask (i : Invocation)
deriving Repr, DecidableEq, Inhabited

/-- The options that take a value. -/
inductive Setting where
  | config
  | timeLimit
  | format
  | output
deriving Repr, DecidableEq, Inhabited

/-- What an option without a value does. -/
inductive Switch where
  | decodeNumbers
  | help
  | version
deriving Repr, DecidableEq, Inhabited

def longOption? : String → Option (Setting ⊕ Switch)
  | "config" => some (.inl .config)
  | "timeout-secs" => some (.inl .timeLimit)
  | "format" => some (.inl .format)
  | "output" => some (.inl .output)
  | "decode-chars" => some (.inr .decodeNumbers)
  | "help" => some (.inr .help)
  | "version" => some (.inr .version)
  | _ => none

def shortOption? : Char → Option (Setting ⊕ Switch)
  | 'c' => some (.inl .config)
  | 'f' => some (.inl .format)
  | 'o' => some (.inl .output)
  | 'h' => some (.inr .help)
  | 'V' => some (.inr .version)
  | _ => none

/-- What has been read so far.  Every option may be given once. -/
structure Draft where
  input : Option String := none
  config : Option String := none
  decodeNumbers : Bool := false
  timeLimit : Option Nat := none
  format : Option ReportFormat := none
  output : Option String := none
deriving Repr, DecidableEq, Inhabited

/-- A path, which has to have a character. -/
def path? (s : String) : Option String := if s.isEmpty then none else some s

namespace Draft

/-- A slot filled for the first time. -/
def fill {α : Type} (slot value : Option α) (put : α → Draft) : Except Command Draft :=
  match slot, value with
  | none, some a => .ok (put a)
  | _, _ => .error .misuse

def set (d : Draft) (value : String) : Setting → Except Command Draft
  | .config => fill d.config (path? value) fun p => { d with config := some p }
  | .output => fill d.output (path? value) fun p => { d with output := some p }
  | .timeLimit => fill d.timeLimit (readUInt64? value) fun n => { d with timeLimit := some n }
  | .format => fill d.format (ReportFormat.ofName? value) fun f => { d with format := some f }

def throw (d : Draft) : Switch → Except Command Draft
  | .help => .error .help
  | .version => .error .version
  | .decodeNumbers =>
      if d.decodeNumbers then .error .misuse else .ok { d with decodeNumbers := true }

def addInput (d : Draft) (s : String) : Except Command Draft :=
  fill d.input (path? s) fun p => { d with input := some p }

/-- A cluster of letters, and the option that still waits for its value.  What
follows the letter of an option is its value, less an equals sign. -/
def cluster (d : Draft) : List Char → Except Command (Draft × Option Setting)
  | [] => .ok (d, none)
  | c :: cs =>
      match shortOption? c with
      | none => .error .misuse
      | some (.inr w) =>
          match d.throw w with
          | .ok d => d.cluster cs
          | .error e => .error e
      | some (.inl o) =>
          match cs with
          | [] => .ok (d, some o)
          | '=' :: value => (d.set (String.ofList value) o).map fun d => (d, none)
          | value => (d.set (String.ofList value) o).map fun d => (d, none)

/-- A long option, without its dashes, and the option that still waits for its value. -/
def long (d : Draft) (cs : List Char) : Except Command (Draft × Option Setting) :=
  let name := String.ofList (cs.takeWhile (· != '='))
  match longOption? name, cs.dropWhile (· != '=') with
  | some (.inl o), [] => .ok (d, some o)
  | some (.inl o), _ :: value => (d.set (String.ofList value) o).map fun d => (d, none)
  | some (.inr w), [] => (d.throw w).map fun d => (d, none)
  | _, _ => .error .misuse

/-- Scripts only: what follows two dashes. -/
def addInputs (d : Draft) : List String → Except Command Draft
  | [] => .ok d
  | s :: rest => (d.addInput s).bind fun d => d.addInputs rest

/-- The rest of a command line; an option may wait for its value. -/
def read (d : Draft) (waiting : Option Setting) : List String → Except Command Draft
  | [] => if waiting.isSome then .error .misuse else .ok d
  | s :: rest =>
      match s.toList, waiting with
      | '-' :: _ :: _, some _ => .error .misuse
      | ['-', '-'], none => d.addInputs rest
      | '-' :: '-' :: cs, none => (d.long cs).bind fun (d, w) => d.read w rest
      | '-' :: c :: cs, none => (d.cluster (c :: cs)).bind fun (d, w) => d.read w rest
      | _, some o => (d.set s o).bind fun d => d.read none rest
      | _, none => (d.addInput s).bind fun d => d.read none rest

end Draft

def Command.ofArguments (args : List String) : Command :=
  match Draft.read {} none args with
  | .error c => c
  | .ok d =>
      match d.input with
      | none => .misuse
      | some input =>
          .unmask {
            input, config := d.config, decodeNumbers := d.decodeNumbers
            timeLimit := d.timeLimit, format := d.format.getD .json, output := d.output }

end Unmask
