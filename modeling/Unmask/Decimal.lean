/-
# `Unmask.Decimal` — fractions as they are commonly written

The grammar that YAML leaves to its readers: an optional sign, digits with at
most one point among or beside them, an optional exponent; or one of the words
for infinity and for what is no number, in any case.  The value is kept as
digits and a power of ten; `Unmask.Binary64` rounds it.
-/
import Unmask.Binary64
import Unmask.Json

namespace Unmask

/-- What a fraction is written as. -/
inductive Decimal where
  | finite (negative : Bool) (digits : Nat) (scale : Int)
  | infinite (negative : Bool)
  | notANumber
deriving Repr, DecidableEq, Inhabited

namespace Decimal

/-- The exponent behind the digits: none at the end of the text. -/
def exponent? : List Char → Option Int
  | [] => some 0
  | e :: cs =>
      if e == 'e' || e == 'E' then
        let (negative, ds) := match cs with
          | '-' :: ds => (true, ds)
          | '+' :: ds => (false, ds)
          | ds => (false, ds)
        if ds.isEmpty || !ds.all Char.isDigit then none
        else
          let n : Int := Json.natOfDigits ds
          some (if negative then -n else n)
      else none

def unsigned? (negative : Bool) (cs : List Char) : Option Decimal :=
  let word := cs.map Char.toLower
  if word == "inf".toList || word == "infinity".toList then some (.infinite negative)
  else if word == "nan".toList then some .notANumber
  else
    let whole := cs.takeWhile Char.isDigit
    let rest := cs.dropWhile Char.isDigit
    let (part, rest) := match rest with
      | '.' :: more => (more.takeWhile Char.isDigit, more.dropWhile Char.isDigit)
      | more => ([], more)
    if whole.isEmpty && part.isEmpty then none
    else (exponent? rest).map fun n =>
      .finite negative (Json.natOfDigits (whole ++ part)) (n - part.length)

/-- A fraction that takes up the whole text. -/
def read? : List Char → Option Decimal
  | '-' :: cs => unsigned? true cs
  | '+' :: cs => unsigned? false cs
  | cs => unsigned? false cs

def isFinite : Decimal → Bool
  | .finite _ digits scale => Binary64.ofDecimal digits scale != .infinite
  | _ => false

end Decimal

end Unmask
