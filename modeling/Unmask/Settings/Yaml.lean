/-
# `Unmask.Settings.Yaml` — settings files in YAML

A file holds one document or none.  If its node is a mapping, the entries whose
keys are texts are the settings, and of equal keys the last counts; any other
node sets nothing.  Entries with other keys are passed over, in the mappings
below as well, and what they hold need not be a setting's value.
-/
import Unmask.Settings.Value
import Unmask.Settings.Yaml.Node

namespace Unmask.Yaml

/-- The value of a fraction as it is written; the dotted words have none. -/
def realValue? (cs : List Char) : Option Value :=
  (Decimal.read? cs).map fun
    | .finite negative digits scale => .real negative (.ofDecimal digits scale)
    | .infinite negative => .real negative .infinite
    | .notANumber => .notANumber

/-- Some entry has a text as its key. -/
def hasKey (key : List Char) (entries : List (Node × Node)) : Bool :=
  entries.any fun
    | (.text k, _) => k == key
    | _ => false

mutual

def valueOf? : Node → Option Value
  | .void => some .null
  | .null => some .null
  | .bool b => some (.bool b)
  | .int n => some (.int n)
  | .real cs => realValue? cs
  | .text cs => some (.text (String.ofList cs))
  | .list items => (valuesOf? items).map .list
  | .mapping entries => (fieldsOf? entries).map .table

def valuesOf? : List Node → Option (List Value)
  | [] => some []
  | n :: ns => do return (← valueOf? n) :: (← valuesOf? ns)

/-- The fields of a mapping; of equal keys only the last is looked at. -/
def fieldsOf? : List (Node × Node) → Option (List (String × Value))
  | [] => some []
  | (.text key, n) :: es =>
      if hasKey key es then fieldsOf? es
      else do return (String.ofList key, ← valueOf? n) :: (← fieldsOf? es)
  | _ :: es => fieldsOf? es

end

def layer? (text : String) : Option Layer := do
  match ← document? (← tokens? text) with
  | some n =>
      match ← valueOf? n with
      | .table fields => return fields
      | _ => return []
  | none => return []

end Unmask.Yaml
