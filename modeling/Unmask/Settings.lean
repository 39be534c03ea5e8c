/-
# `Unmask.Settings` — settings from layers

A setting may be given on the command line, in the environment, in a file or
not at all, and each of these is a layer of keys and values, whatever format it
came from.  The layers are laid over each other, the command line on top: what
a layer sets at a key path replaces what the layers below it have there.

The entries of one layer have no order among themselves.  It shows only where a
layer has a key beside a path into its value, and here the entries are laid as they
are listed, which is one order among the possible ones.

What then stands at a key is converted to the type of that key.  What does not
convert is an error, however well the layers below would have converted.
-/
import Unmask.Settings.KeyPath
import Unmask.Unmasking

namespace Unmask

/-- The entries that count: of equal keys the last. -/
def Layer.settled : Layer → Layer
  | [] => []
  | e :: l => if l.any fun f => f.1 == e.1 then Layer.settled l else e :: Layer.settled l

/-- Entries set in a table, one after the other. -/
def Layer.setAll (entries : Layer) (table : Value) : Option Value :=
  entries.foldlM (fun table e => table.put (keyPath e.1) e.2) table

/-- A layer laid over a table, in the order in which the entries are listed. -/
def Layer.over (l : Layer) (below : Value) : Option Value := l.settled.setAll below

/-- Layers laid over each other, the topmost first. -/
def merged : List Layer → Option Value
  | [] => some (.table [])
  | l :: below => (merged below).bind l.over

structure Settings where
  options : Options := {}
  timeLimit : Nat := 30
  address : String := "0.0.0.0:3000"
  bodyLimit : Nat := 2 * 1024 * 1024
deriving Repr, DecidableEq, Inhabited

/-- Settings given on the command line. -/
structure Overrides where
  decodeNumbers : Option Bool := none
  timeLimit : Option Nat := none
  address : Option String := none
deriving Repr, DecidableEq, Inhabited

/-- A number of 64 bits read as a signed one. -/
def asSigned64 (n : Nat) : Int :=
  let m : Nat := n % 0x10000000000000000
  if m < 0x8000000000000000 then (m : Int) else (m : Int) - 0x10000000000000000

/-- The command line as a layer.  A time limit passes through a signed word. -/
def Overrides.layer (o : Overrides) : Layer :=
  (o.decodeNumbers.map fun b => ("decode_numbers_as_chars", Value.bool b)).toList ++
  (o.timeLimit.map fun n => ("timeout_secs", Value.int (asSigned64 n))).toList ++
  (o.address.map fun s => ("bind", Value.text s)).toList

/-- What the names of environment variables start with, in any case. -/
def environmentMark : String := "jsdeob_"

/-- The environment as a layer: the marked variables, in lower case and without
the mark.  Their values are texts. -/
def environmentLayer (entries : List (String × String)) : Layer :=
  entries.filterMap fun (name, value) =>
    (environmentMark.toList.isPrefixOf? (lowerAscii name).toList).map fun key =>
      (String.ofList key, Value.text value)

/-- The settings when no layer says anything. -/
def defaultLayer : Layer :=
  [("decode_numbers_as_chars", .bool false), ("extra_protected", .list []),
   ("seed_source_identifiers", .bool true), ("timeout_secs", .int 30),
   ("bind", .text "0.0.0.0:3000"), ("body_limit", .int (2 * 1024 * 1024))]

/-- Why there are no settings.  A value set before the start of a list is not reported
like the others: it ends the command on the spot. -/
inductive SettingsError where
  | fileNotFound (path : String)
  | unreadable (message : String)
  | invalid (message : String)
  | beforeStart
deriving Repr, DecidableEq, Inhabited

def SettingsError.message : SettingsError → String
  | .fileNotFound path => "io error: config file not found: " ++ path
  | .unreadable m => "io error: " ++ m
  | .invalid m => "config error: " ++ m
  | .beforeStart => "item before the start of a list"

def convert (table : Value) (key : String) {α : Type} (as? : Value → Option α) :
    Except SettingsError α :=
  match (Value.field? table.fields key).bind as? with
  | some a => .ok a
  | none => .error (.invalid ("invalid value for key " ++ key))

namespace Settings

def ofTable (table : Value) : Except SettingsError Settings := do
  let decodeNumbers ← convert table "decode_numbers_as_chars" Value.toBool?
  let protectedNames ← convert table "extra_protected" Value.toTexts?
  let reserveSourceNames ← convert table "seed_source_identifiers" Value.toBool?
  let timeLimit ← convert table "timeout_secs" Value.toUInt64?
  let address ← convert table "bind" Value.toText?
  let bodyLimit ← convert table "body_limit" Value.toUInt64?
  return {
    options := { decodeNumbers, protectedNames, reserveSourceNames }
    timeLimit, address, bodyLimit }

/-- Settings from layers, the topmost first. -/
def ofLayers (layers : List Layer) : Except SettingsError Settings :=
  match merged layers with
  | none => .error .beforeStart
  | some table => ofTable table

end Settings

end Unmask
