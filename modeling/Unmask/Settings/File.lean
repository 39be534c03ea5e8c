/-
# `Unmask.Settings.File` — settings files and the loading of settings

The ending of a file's name says which format it is in; JSON, YAML, TOML and INI
are read here.  A file that is missing is reported as such; a file of another
format or with a text that cannot be read is an error of the settings.  A JSON
document that is no object sets nothing.
-/
import Unmask.Json
import Unmask.Settings
import Unmask.Settings.Ini
import Unmask.Settings.Toml
import Unmask.Settings.Yaml

namespace Unmask

namespace JsonNumber

/-- Appends digits to a number as long as it fits 64 bits; the digits from the
first that does not fit are left. -/
def gather (n : Nat) : List Char → Nat × List Char
  | [] => (n, [])
  | c :: cs =>
      let n' := n * 10 + (c.toNat - '0'.toNat)
      if n' < 0x10000000000000000 then gather n' cs else (n, c :: cs)

/-- The largest power of ten that is scaled by at once. -/
def maxPower : Nat := 308

/-- A number times a power of ten, rounded after every multiplication and division.
Powers beyond the largest are taken in portions; there is no result beyond the
doubles. -/
def scaled? (x : Binary64) (power : Int) : Option Binary64 :=
  if power.natAbs ≤ maxPower then
    let ten := Binary64.ofDecimal 1 power.natAbs
    if 0 ≤ power then
      let y := x.mul ten
      if y = .infinite then none else some y
    else some (x.div ten)
  else if x = .zero then some x
  else if 0 ≤ power then none
  else scaled? (x.div (.ofDecimal 1 maxPower)) (power + maxPower)
termination_by power.natAbs
decreasing_by
  simp only [maxPower] at *
  omega

/-- The double that a number is read as.  Its digits count as far as they fit 64
bits; of those behind, the ones before the point still tell the size.  An exponent
that does not fit 31 bits leaves zero, or nothing. -/
def double? (n : JsonNumber) : Option Binary64 :=
  let (high, beyond) := gather 0 n.whole
  let (digits, ignored) := gather high n.part
  let power : Int := beyond.length - (n.part.length - ignored.length : Nat)
  let x := Binary64.ofRatio digits 1
  match n.power with
  | none => scaled? x power
  | some e =>
      if e.natAbs < 0x80000000 then scaled? x (power + e)
      else if digits = 0 || e < 0 then some .zero
      else none

/-- The value that a number stands for: whole if it is written so and fits a signed
word, else a double; none beyond the doubles. -/
def value? (n : JsonNumber) : Option Value :=
  let digits : Nat := Json.natOfDigits n.whole
  let whole : Int := if n.negative then -(digits : Int) else digits
  if n.part.isEmpty && n.power.isNone && -0x8000000000000000 ≤ whole &&
      whole < 0x8000000000000000 && !(n.negative && digits = 0) then
    some (.int whole)
  else n.double?.map (.real n.negative)

end JsonNumber

mutual

/-- A JSON value as a value of a setting; of equal keys the last counts. -/
def Value.ofJson? : Json → Option Value
  | .null => some .null
  | .bool b => some (.bool b)
  | .num n => n.value?
  | .str t => t.map .text
  | .arr items => (Value.ofItems? items).map .list
  | .obj fields => (Value.ofFields? fields).map fun fs => .table (Layer.settled fs)

def Value.ofItems? : List Json → Option (List Value)
  | [] => some []
  | j :: js => do return (← Value.ofJson? j) :: (← Value.ofItems? js)

def Value.ofFields? : List (Option String × Json) → Option (List (String × Value))
  | [] => some []
  | (k, j) :: fs => do return (← k, ← Value.ofJson? j) :: (← Value.ofFields? fs)

end

/-- How deep the containers of a JSON settings file may be nested. -/
def jsonNesting : Nat := 127

def Json.layer? (text : String) : Option Layer := do
  match ← Value.ofJson? (← Json.read? (some jsonNesting) text) with
  | .table fields => return fields
  | _ => return []

/-- The ending of a file's name, behind the last dot; a name has none if nothing
stands before that dot. -/
def extension (path : String) : String :=
  let name := (path.toList.reverse.takeWhile (· != '/')).reverse
  match name.reverse.span (· != '.') with
  | (_, []) => ""
  | (_, [_]) => ""
  | (ending, _) => String.ofList ending.reverse

def layerReader? (path : String) : Option (String → Option Layer) :=
  match extension path with
  | "json" => some Json.layer?
  | "yaml" => some Yaml.layer?
  | "yml" => some Yaml.layer?
  | "toml" => some Toml.layer?
  | "ini" => some Ini.layer?
  | _ => none

/-- The file that settings are asked for in. -/
inductive SettingsFile where
  | none
  | missing (path : String)
  | found (path : String) (text : Option String)
deriving Repr, Inhabited

def SettingsFile.layer : SettingsFile → Except SettingsError Layer
  | .none => .ok []
  | .missing path => .error (.fileNotFound path)
  | .found path text =>
      match layerReader? path with
      | Option.none => .error (.invalid ("unknown format of file " ++ path))
      | some read? =>
          match text.bind read? with
          | some l => .ok l
          | Option.none => .error (.invalid ("malformed file " ++ path))

/-- The settings from the command line, the environment and a file. -/
def Settings.load (file : SettingsFile) (environment : List (String × String))
    (overrides : Overrides) : Except SettingsError Settings :=
  match file.layer with
  | .error e => .error e
  | .ok layer =>
      Settings.ofLayers [overrides.layer, environmentLayer environment, layer, defaultLayer]

end Unmask
