/-
# `Unmask.Settings.Toml.Moment` — dates and times of day

A moment is a date, a time of day, or both, and with both there may be an
offset from universal time.  Months go to 12, days to 31 in every month, hours
to 24; a fraction of a second counts to nine places.  A moment is written with
`T` between date and time, and with the places of the fraction that are needed.
-/
import Unmask.Json

namespace Unmask.Toml

structure Date where
  year : Nat
  month : Nat
  day : Nat
deriving Repr, DecidableEq, Inhabited

structure Clock where
  hour : Nat
  minute : Nat
  second : Nat
  nanosecond : Nat
deriving Repr, DecidableEq, Inhabited

/-- How far a clock is off universal time. -/
inductive Offset where
  | universal
  | shift (hours : Int) (minutes : Nat)
deriving Repr, DecidableEq, Inhabited

/-- A date, a time of day, or both. -/
structure Moment where
  date : Option Date := none
  clock : Option Clock := none
  offset : Option Offset := none
deriving Repr, DecidableEq, Inhabited

namespace Moment

def two? : List Char → Option (Nat × List Char)
  | a :: b :: cs =>
      if a.isDigit && b.isDigit then some (Json.natOfDigits [a, b], cs) else none
  | _ => none

/-- The text behind a mark. -/
def behind? (mark : Char) : List Char → Option (List Char)
  | c :: cs => if c == mark then some cs else none
  | [] => none

def date? (cs : List Char) : Option (Date × List Char) := do
  let (century, cs) ← two? cs
  let (year, cs) ← two? cs
  let (month, cs) ← two? (← behind? '-' cs)
  let (day, cs) ← two? (← behind? '-' cs)
  if 1 ≤ month && month ≤ 12 && 1 ≤ day && day ≤ 31 then
    return (⟨century * 100 + year, month, day⟩, cs)
  else none

/-- The nanoseconds behind a point, if there is one. -/
def fraction? : List Char → Option (Nat × List Char)
  | '.' :: cs =>
      let digits := cs.takeWhile Char.isDigit
      if digits.isEmpty then none
      else
        let nine := (digits ++ List.replicate 9 '0').take 9
        some (Json.natOfDigits nine, cs.dropWhile Char.isDigit)
  | cs => some (0, cs)

def clock? (cs : List Char) : Option (Clock × List Char) := do
  let (hour, cs) ← two? cs
  let (minute, cs) ← two? (← behind? ':' cs)
  let (second, cs) ← two? (← behind? ':' cs)
  let (nanosecond, cs) ← fraction? cs
  if hour ≤ 24 && minute ≤ 59 && second ≤ 59 then return (⟨hour, minute, second, nanosecond⟩, cs)
  else none

/-- An offset that takes up the rest of the text; it may be missing. -/
def offset? : List Char → Option (Option Offset)
  | [] => some none
  | ['Z'] => some (some .universal)
  | ['z'] => some (some .universal)
  | sign :: cs => do
      let (hours, cs) ← two? cs
      let (minutes, cs) ← two? (← behind? ':' cs)
      if !cs.isEmpty then none
      else if sign == '+' then return some (.shift hours minutes)
      else if sign == '-' then return some (.shift (-(hours : Int)) minutes)
      else none

/-- Divides a date from a time. -/
def isDivider (c : Char) : Bool := c == 'T' || c == 't' || c == ' '

/-- A moment that takes up the whole text.  A colon in third place tells a time
of day, which has no offset. -/
def read? (cs : List Char) : Option Moment :=
  if cs[2]? == some ':' then
    match clock? cs with
    | some (clock, []) => some { clock }
    | _ => none
  else
    match date? cs with
    | some (date, []) => some { date }
    | some (date, c :: rest) =>
        if isDivider c then do
          let (clock, rest) ← clock? rest
          return { date, clock, offset := ← offset? rest }
        else none
    | none => none

/-- A number with zeros in front up to a width. -/
def padded (width n : Nat) : String :=
  let digits := Nat.repr n
  String.ofList (List.replicate (width - digits.length) '0') ++ digits

/-- A fraction of a second, nothing if it is zero. -/
def fractionText (nanosecond : Nat) : String :=
  if nanosecond = 0 then ""
  else
    "." ++ String.ofList ((padded 9 nanosecond).toList.reverse.dropWhile (· == '0')).reverse

def dateText (d : Date) : String :=
  padded 4 d.year ++ "-" ++ padded 2 d.month ++ "-" ++ padded 2 d.day

def clockText (c : Clock) : String :=
  padded 2 c.hour ++ ":" ++ padded 2 c.minute ++ ":" ++ padded 2 c.second ++
    fractionText c.nanosecond

def offsetText : Offset → String
  | .universal => "Z"
  | .shift hours minutes =>
      (if hours < 0 then "-" else "+") ++ padded 2 hours.natAbs ++ ":" ++ padded 2 minutes

def toText (m : Moment) : String :=
  let date := (m.date.map dateText).getD ""
  let clock := (m.clock.map clockText).getD ""
  let divider := if m.date.isSome && m.clock.isSome then "T" else ""
  date ++ divider ++ clock ++ (m.offset.map offsetText).getD ""

end Moment

end Unmask.Toml
