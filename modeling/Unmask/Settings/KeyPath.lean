/-
# `Unmask.Settings.KeyPath` — keys that name a part of a setting

A key is a word, or a word followed by steps into its value: `.name` goes to a
field and `[n]` to an item, counted from the end if `n` is negative.  Blanks
may stand inside the brackets.  A key that is not of this form is a word as a
whole, whatever characters it has.

Setting a value at a path makes the way where there is none: what is not a
table becomes an empty table where a field is asked for, what is not a list
becomes an empty list where an item is asked for, and a list that is too short
is filled up, however long it gets.  Nothing can be set before the start of a
list.  A table that is set is merged into the value that stands there, field by
field; any other value takes its place.
-/
import Unmask.Settings.Value

namespace Unmask

/-- A step from a value to a part of it. -/
inductive Step where
  | field (name : String)
  | item (index : Int)
deriving Repr, DecidableEq, Inhabited

def isKeyChar (c : Char) : Bool := c.isAlphanum || c == ' ' || c == '_' || c == '-'

def isIndexBlank (c : Char) : Bool := c == ' ' || c == '\t' || c == '\n' || c == '\r'

/-- A number of an item, up to and with the closing bracket. -/
def itemIndex? (cs : List Char) : Option (Int × List Char) :=
  let cs := cs.dropWhile isIndexBlank
  let (negative, cs) := match cs with
    | '-' :: ds => (true, ds)
    | ds => (false, ds)
  let digits := cs.takeWhile Char.isDigit
  let n : Nat := digits.foldl (fun n c => n * 10 + (c.toNat - '0'.toNat)) 0
  let n : Int := if negative then -(n : Int) else n
  match (cs.dropWhile Char.isDigit).dropWhile isIndexBlank with
  | ']' :: rest =>
      if digits.isEmpty || n < -0x8000000000000000 || 0x8000000000000000 ≤ n then none
      else some (n, rest)
  | _ => none

/-- The steps behind the first word of a key; each takes a character, so the
length of the text is fuel enough. -/
def steps? : Nat → List Char → Option (List Step)
  | _, [] => some []
  | 0, _ => none
  | fuel + 1, '.' :: cs =>
      let name := cs.takeWhile isKeyChar
      if name.isEmpty then none
      else (steps? fuel (cs.dropWhile isKeyChar)).map (.field (String.ofList name) :: ·)
  | fuel + 1, '[' :: cs => do
      let (n, rest) ← itemIndex? cs
      return .item n :: (← steps? fuel rest)
  | _, _ => none

/-- The steps that a key spells, the first to a field of the settings. -/
def keyPath (key : String) : List Step :=
  let cs := key.toList
  let word := cs.takeWhile isKeyChar
  match steps? cs.length (cs.dropWhile isKeyChar) with
  | some steps => if word.isEmpty then [.field key] else .field (String.ofList word) :: steps
  | none => [.field key]

namespace Value

def field? (fields : List (String × Value)) (key : String) : Option Value :=
  (fields.find? fun f => f.1 == key).map Prod.snd

/-- Fields in which a key has a value, in its old place if it had one. -/
def putField (key : String) (v : Value) : List (String × Value) → List (String × Value)
  | [] => [(key, v)]
  | f :: fs => if f.1 == key then (key, v) :: fs else f :: putField key v fs

mutual

/-- A value as a table in which a field is set. -/
def withField (target : Value) (key : String) : Value → Value
  | .table fs =>
      let old := (field? target.fields key).getD (.table [])
      .table (putField key (old.withFields fs) target.fields)
  | v => .table (putField key v target.fields)

/-- A value in which several fields are set; no field, no change. -/
def withFields (target : Value) : List (String × Value) → Value
  | [] => target
  | (key, v) :: fs => (target.withField key v).withFields fs

end

/-- The place that a number of an item means in a list. -/
def position? (index : Int) (length : Nat) : Option Nat :=
  if 0 ≤ index then some index.toNat
  else if -(length : Int) ≤ index then some (index + length).toNat
  else none

/-- A value in which the part that steps lead to is set, unless a step goes before the
start of a list. -/
def put (target : Value) : List Step → Value → Option Value
  | [], v => some v
  | [.field key], v => some (target.withField key v)
  | .field key :: steps, v => do
      let part ← ((field? target.fields key).getD .null).put steps v
      return .table (putField key part target.fields)
  | .item index :: steps, v => do
      let items := target.items
      let n ← position? index items.length
      let part ← (items[n]?.getD .null).put steps v
      let filled := items ++ List.replicate (n + 1 - items.length) .null
      return .list (filled.set n part)

end Value

end Unmask
