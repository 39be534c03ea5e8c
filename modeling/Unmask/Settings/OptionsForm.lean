/-
# `Unmask.Settings.OptionsForm` — the options of a run as JSON

Options are an object with three optional fields, or a list of the same three
in order, of which the last ones may be missing.  Fields the program does not
know are passed over; a field of the wrong type is refused, and so is a list
with a fourth entry.
-/
import Unmask.Json
import Unmask.Unmasking

namespace Unmask.Options

def flag? : Json → Option Bool
  | .bool b => some b
  | _ => none

def text? : Json → Option String
  | .str t => t
  | _ => none

def texts? : Json → Option (List String)
  | .arr items => items.mapM text?
  | _ => none

/-- The value of an entry that may be missing. -/
def optional? {α : Type} (missing : α) (as? : Json → Option α) : Option Json → Option α
  | none => some missing
  | some j => as? j

def ofEntries? (decode names reserve : Option Json) : Option Options := do
  return {
    decodeNumbers := ← optional? false flag? decode
    protectedNames := ← optional? [] texts? names
    reserveSourceNames := ← optional? true flag? reserve }

def ofJson? : Json → Option Options
  | .null => some {}
  | .obj fields =>
      ofEntries? (Json.field? fields "decode_numbers_as_chars")
        (Json.field? fields "extra_protected") (Json.field? fields "seed_source_identifiers")
  | .arr items =>
      if items.length ≤ 3 then ofEntries? items[0]? items[1]? items[2]? else none
  | _ => none

end Unmask.Options
