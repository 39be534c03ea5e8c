/-
# `Unmask.Settings.Value` — values of settings

A value as a file, the environment or the command line gives it, and its
conversions to what a setting needs: texts read as flags and numbers, numbers
read as flags and texts.  A conversion may fail; a list converts item by item
and a table never.
-/
import Unmask.Binary64

namespace Unmask

/-- A value of a setting before conversion. -/
inductive Value where
  | null
  | bool (b : Bool)
  | int (n : Int)
  | real (negative : Bool) (magnitude : Binary64)
  | notANumber
  | text (s : String)
  | list (items : List Value)
  | table (fields : List (String × Value))
deriving Repr, Inhabited

/-- Keys and values of one origin; of equal keys the last counts. -/
abbrev Layer := List (String × Value)

/-- ASCII letters in lower case, everything else as it is. -/
def lowerAscii (s : String) : String := String.ofList (s.toList.map Char.toLower)

/-- A number below `2 ^ 64` in decimal digits, after an optional plus. -/
def readUInt64? (s : String) : Option Nat :=
  let digits := match s.toList with
    | '+' :: ds => ds
    | ds => ds
  if digits.isEmpty || !digits.all Char.isDigit then none
  else
    let n := digits.foldl (fun n c => n * 10 + (c.toNat - '0'.toNat)) 0
    if n < 0x10000000000000000 then some n else none

namespace Value

def yesWords : List String := ["true", "on", "yes"]

def noWords : List String := ["false", "off", "no"]

def toBool? : Value → Option Bool
  | .bool b => some b
  | .int n => some (n != 0)
  | .real _ m => some (m != .zero)
  | .notANumber => some true
  | .text s =>
      let w := lowerAscii s
      if w == "1" || yesWords.contains w then some true
      else if w == "0" || noWords.contains w then some false
      else none
  | _ => none

/-- As a number that is not negative and fits 64 bits. -/
def toUInt64? : Value → Option Nat
  | .bool b => some (if b then 1 else 0)
  | .int n => if 0 ≤ n && n < 0x10000000000000000 then some n.toNat else none
  | .real negative m => some (if negative then 0 else m.toUInt64)
  | .notANumber => some 0
  | .text s =>
      let w := lowerAscii s
      if yesWords.contains w then some 1
      else if noWords.contains w then some 0
      else readUInt64? s
  | _ => none

def toText? : Value → Option String
  | .text s => some s
  | .bool b => some (if b then "true" else "false")
  | .int n => some (toString n)
  | .real negative m => some ((if negative then "-" else "") ++ m.toText)
  | .notANumber => some "NaN"
  | _ => none

def toTexts? : Value → Option (List String)
  | .list items => items.mapM toText?
  | _ => none

/-- The fields of a table; of anything else, none. -/
def fields : Value → List (String × Value)
  | .table fs => fs
  | _ => []

/-- The items of a list; of anything else, none. -/
def items : Value → List Value
  | .list vs => vs
  | _ => []

/-! ## Equality of values -/

mutual

def same : Value → Value → Bool
  | .null, .null => true
  | .bool a, .bool b => a == b
  | .int m, .int n => m == n
  | .real s m, .real t n => s == t && m == n
  | .notANumber, .notANumber => true
  | .text s, .text t => s == t
  | .list vs, .list ws => sameItems vs ws
  | .table fs, .table gs => sameFields fs gs
  | _, _ => false

def sameItems : List Value → List Value → Bool
  | [], [] => true
  | v :: vs, w :: ws => same v w && sameItems vs ws
  | _, _ => false

def sameFields : List (String × Value) → List (String × Value) → Bool
  | [], [] => true
  | (k, v) :: fs, (l, w) :: gs => k == l && same v w && sameFields fs gs
  | _, _ => false

end

mutual

theorem same_iff (v w : Value) : same v w = true ↔ v = w := by
  cases v with
  | list vs =>
      cases w with
      | list ws => rw [same, sameItems_iff vs ws, list.injEq]
      | _ => simp [same]
  | table fs =>
      cases w with
      | table gs => rw [same, sameFields_iff fs gs, table.injEq]
      | _ => simp [same]
  | _ => cases w <;> simp [same]

theorem sameItems_iff (vs ws : List Value) : sameItems vs ws = true ↔ vs = ws := by
  cases vs with
  | nil => cases ws <;> simp [sameItems]
  | cons v vs =>
      cases ws with
      | nil => simp [sameItems]
      | cons w ws =>
          rw [sameItems, Bool.and_eq_true, same_iff v w, sameItems_iff vs ws, List.cons.injEq]

theorem sameFields_iff (fs gs : List (String × Value)) : sameFields fs gs = true ↔ fs = gs := by
  cases fs with
  | nil => cases gs <;> simp [sameFields]
  | cons f fs =>
      obtain ⟨k, v⟩ := f
      cases gs with
      | nil => simp [sameFields]
      | cons g gs =>
          simp only [sameFields, Bool.and_eq_true, beq_iff_eq, same_iff v g.2,
            sameFields_iff fs gs, List.cons.injEq, Prod.ext_iff]

end

instance : DecidableEq Value := fun v w => decidable_of_iff _ (same_iff v w)

end Value

end Unmask
