/-
# `Unmask.Document` — what answers and reports are made of

An answer is a tree of records, lists, texts and flags; the fields of a record
keep their order.  `Unmask.Document.JsonText` and `Unmask.Document.YamlText`
write such a tree down.
-/
import Unmask.Unmasking

namespace Unmask

/-- A tree to be written down. -/
inductive Document where
  | flag (b : Bool)
  | text (s : String)
  | list (items : List Document)
  | record (fields : List (String × Document))
deriving Repr, Inhabited

namespace Document

/-- A mapping as a record, sorted by the old spelling. -/
def ofMapping (m : Mapping) : Document :=
  .record (m.toList.map fun (old, new) => (old, .text new))

def ofReport (r : Report) : Document :=
  .record [("success", .flag true), ("deobfuscated", .text r.text),
    ("mappings", ofMapping r.names), ("numericMappings", ofMapping r.numbers),
    ("powershellCommands", .list (r.commands.map .text))]

def ofMessage (message : String) : Document :=
  .record [("success", .flag false), ("error", .text message)]

def ofOutcome : Except Failure Report → Document
  | .ok r => ofReport r
  | .error f => ofMessage f.message

end Document

end Unmask
