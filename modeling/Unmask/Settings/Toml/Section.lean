/-
# `Unmask.Settings.Toml.Section` — tables from sections

A file is a sequence of sections, each a header and the entries below it; the
entries before the first header form a section without a name.  A header names
the path of a table, or, in double brackets, of one more table in a list.

The sections make one table.  Every key of a table is defined once: by an entry,
by a dotted key, or by the headers that lead through it, and these may come from
any place of the file.  A dotted key goes through tables that dotted keys of the
same section have made and through no others.
-/
import Unmask.Settings.Value

namespace Unmask.Toml

/-- What a key of a section holds: a value, or what dotted keys have put there. -/
inductive Entry where
  | value (v : Value)
  | dotted (entries : List (String × Entry))
deriving Inhabited

namespace Entry

def find? (key : String) (entries : List (String × Entry)) : Option Entry :=
  (entries.find? fun e => e.1 == key).map Prod.snd

/-- Entries in which the first entry of a key is another. -/
def replace (key : String) (new : Entry) : List (String × Entry) → List (String × Entry)
  | [] => []
  | e :: es => if e.1 == key then (key, new) :: es else e :: replace key new es

/-- Adds a value under a dotted key.  That a key is there already is seen later,
when the entries are made a table. -/
def add? (v : Value) : List String → List (String × Entry) → Option (List (String × Entry))
  | [], _ => none
  | [key], entries => some (entries ++ [(key, .value v)])
  | key :: path, entries =>
      match find? key entries with
      | some (.dotted inner) => (add? v path inner).map fun es => replace key (.dotted es) entries
      | some (.value _) => none
      | none => (add? v path []).map fun es => entries ++ [(key, .dotted es)]

mutual

def value? : Entry → Option Value
  | .value v => some v
  | .dotted entries => (fields? [] entries).map .table

/-- The fields that entries make behind those of `done`, no key twice. -/
def fields? (done : List (String × Value)) :
    List (String × Entry) → Option (List (String × Value))
  | [] => some done
  | (key, e) :: es =>
      match value? e with
      | some v =>
          if done.any fun f => f.1 == key then none else fields? (done ++ [(key, v)]) es
      | none => none

end

end Entry

/-- A header and the entries below it; `item` tells double brackets. -/
structure Section where
  header : List String := []
  item : Bool := false
  entries : List (String × Entry) := []
deriving Inhabited

namespace Section

/-- The section opens one more table in the list at a path of a length. -/
def opensItem (depth : Nat) (s : Section) : Bool := s.item && s.header.length == depth

/-- Sections cut before each that opens a table in the list at a path of a length. -/
def windows (depth : Nat) : List Section → List (List Section)
  | [] => []
  | s :: ss =>
      match windows depth ss with
      | [] => [[s]]
      | w :: ws => if ss.head?.any (opensItem depth) then [s] :: w :: ws else (s :: w) :: ws

mutual

/-- The fields that sections make behind those of `done`, where all headers agree in
their first `depth` keys.  `defined` says that the table has had a section of its own. -/
def fields? : Nat → Nat → Bool → List (String × Value) → List Section →
    Option (List (String × Value))
  | _, _, _, done, [] => some done
  | 0, _, _, _, _ => none
  | fuel + 1, depth, defined, done, s :: ss =>
      match s.header[depth]? with
      | none =>
          if defined || s.item then none
          else
            match Entry.fields? done s.entries with
            | some done => fields? fuel depth true done ss
            | none => none
      | some key =>
          if done.any fun f => f.1 == key then none
          else
            let inside (t : Section) : Bool := t.header[depth]? == some key
            let group := s :: ss.filter inside
            let v : Option Value :=
              if s.opensItem (depth + 1) then
                (items? fuel (depth + 1) (windows (depth + 1) group)).map .list
              else (fields? fuel (depth + 1) false [] group).map .table
            match v with
            | some v =>
                fields? fuel depth defined (done ++ [(key, v)]) (ss.filter fun t => !inside t)
            | none => none

/-- The tables of a list; each window starts with the section that opens one. -/
def items? : Nat → Nat → List (List Section) → Option (List Value)
  | _, _, [] => some []
  | 0, _, _ => none
  | _, _, [] :: _ => none
  | fuel + 1, depth, (s :: ss) :: ws =>
      match Entry.fields? [] s.entries with
      | some own =>
          match fields? fuel depth true own ss, items? fuel depth ws with
          | some fs, some vs => some (.table fs :: vs)
          | _, _ => none
      | none => none

end

/-- The table that all sections of a file make.  Each round goes past a section or
one key deeper, so the sections and the keys of their headers are fuel enough. -/
def layer? (sections : List Section) : Option Layer :=
  let size := sections.foldr (fun s size => s.header.length + 1 + size) 0
  fields? (size + 1) 0 false [] sections

end Section

end Unmask.Toml
