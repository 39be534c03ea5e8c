/-
# `Unmask.Binary64` — double precision numbers by exact arithmetic

Numbers that are not negative, in the format with 53 significant bits: a
finite one is `mant * 2 ^ exp` with `mant < 2 ^ 53` and `-1074 ≤ exp`, and
what lies beyond the largest is infinite.  Rounding is to the nearest, ties to
the even mantissa, computed on whole numbers.

A number is written with the fewest digits that read back as the same number,
and of those with the digits nearest to it; there is no exponent.
-/

namespace Unmask

/-- A double that is not negative. -/
inductive Binary64 where
  | finite (mant : Nat) (exp : Int)
  | infinite
deriving Repr, DecidableEq, Inhabited

namespace Binary64

def zero : Binary64 := .finite 0 (-1074)

/-- A quotient rounded to the nearest whole number, ties to even. -/
def roundQuotient (num den : Nat) : Nat :=
  let q := num / den
  let r := num % den
  if den < 2 * r || (den == 2 * r && q % 2 == 1) then q + 1 else q

/-- A fraction in units of `2 ^ e`, again as a fraction. -/
def inUnits (num den : Nat) (e : Int) : Nat × Nat :=
  if 0 ≤ e then (num, den * Nat.pow 2 e.toNat) else (num * Nat.pow 2 (-e).toNat, den)

/-- The double nearest to `num / den`. -/
def ofRatio (num den : Nat) : Binary64 :=
  if num = 0 then zero
  else
    -- `num / den` lies between `2 ^ (k - 1)` and `2 ^ (k + 1)`
    let k : Int := (Nat.log2 num : Int) - Nat.log2 den
    let e := max (-1074) (k - 53)
    let (n, d) := inUnits num den e
    let e := if 0x20000000000000 ≤ n / d then e + 1 else e
    let (n, d) := inUnits num den e
    let m := roundQuotient n d
    let (m, e) := if m = 0x20000000000000 then (0x10000000000000, e + 1) else (m, e)
    if 971 < e then .infinite else .finite m e

/-- The double nearest to `digits * 10 ^ scale`.  Sizes far outside the range are
decided by the number of digits alone. -/
def ofDecimal (digits : Nat) (scale : Int) : Binary64 :=
  let size : Int := (Nat.repr digits).length
  if digits = 0 then zero
  else if 310 < size + scale then .infinite
  else if size + scale < -330 then zero
  else if 0 ≤ scale then ofRatio (digits * Nat.pow 10 scale.toNat) 1
  else ofRatio digits (Nat.pow 10 (-scale).toNat)

/-- `mant * 2 ^ exp` as a fraction. -/
def ratio (mant : Nat) (exp : Int) : Nat × Nat :=
  if 0 ≤ exp then (mant * Nat.pow 2 exp.toNat, 1) else (mant, Nat.pow 2 (-exp).toNat)

def add : Binary64 → Binary64 → Binary64
  | .finite m e, .finite m' e' =>
      let (n, d) := ratio m e
      let (n', d') := ratio m' e'
      ofRatio (n * d' + n' * d) (d * d')
  | _, _ => .infinite

def mul : Binary64 → Binary64 → Binary64
  | .finite m e, .finite m' e' =>
      let (n, d) := ratio m e
      let (n', d') := ratio m' e'
      ofRatio (n * n') (d * d')
  | _, _ => .infinite

/-- The rounded quotient of a finite number by one that is not zero. -/
def div : Binary64 → Binary64 → Binary64
  | .finite m e, .finite m' e' =>
      let (n, d) := ratio m e
      let (n', d') := ratio m' e'
      ofRatio (n * d') (d * n')
  | .finite _ _, .infinite => zero
  | .infinite, _ => .infinite

/-- The nearest whole number, halves away from zero, at most `2 ^ 64 - 1`. -/
def toUInt64 : Binary64 → Nat
  | .finite m e =>
      let (n, d) := ratio m e
      min 0xffffffffffffffff ((2 * n + d) / (2 * d))
  | .infinite => 0xffffffffffffffff

/-- The least `p` with `num / den < 10 ^ p`, for a fraction that is not zero and
not below `10 ^ -400`. -/
def decimalSize (num den : Nat) : Int :=
  if den ≤ num then (Nat.repr (num / den)).length
  else
    match (List.range 400).find? fun j => den ≤ num * Nat.pow 10 (j + 1) with
    | some j => -(j : Int)
    | none => -400

/-- A fraction in units of `10 ^ k`, again as a fraction. -/
def inTens (num den : Nat) (k : Int) : Nat × Nat :=
  if 0 ≤ k then (num, den * Nat.pow 10 k.toNat) else (num * Nat.pow 10 (-k).toNat, den)

/-- `c * 10 ^ k` rounds to the number whose neighbours lie halfway at `lo` and
`hi`; with `closed` the halves themselves count. -/
def readsBack (c : Nat) (k : Int) (lo hi : Nat × Nat) (closed : Bool) : Bool :=
  let (loN, loD) := inTens lo.1 lo.2 k
  let (hiN, hiD) := inTens hi.1 hi.2 k
  if closed then loN ≤ c * loD && c * hiD ≤ hiN else loN < c * loD && c * hiD < hiN

/-- Digits and power of ten with at most `n` digits, if some read back. -/
def withDigits? (mant : Nat) (exp : Int) (n : Nat) : Option (Nat × Int) :=
  let below := if mant = 0x10000000000000 && -1074 < exp then 4 * mant - 1 else 4 * mant - 2
  let lo := ratio below (exp - 2)
  let hi := ratio (4 * mant + 2) (exp - 2)
  let (num, den) := ratio mant exp
  let k := decimalSize num den - n
  let (a, b) := inTens num den k
  let c := a / b
  let closed := mant % 2 == 0
  match readsBack c k lo hi closed, readsBack (c + 1) k lo hi closed with
  | true, true => some (if 2 * (a % b) ≤ b then c else c + 1, k)
  | true, false => some (c, k)
  | false, true => some (c + 1, k)
  | false, false => none

/-- Moves zeros at the end of the digits into the power of ten. -/
def trimZeros : Nat → Nat → Int → Nat × Int
  | 0, c, k => (c, k)
  | fuel + 1, c, k => if c ≠ 0 && c % 10 = 0 then trimZeros fuel (c / 10) (k + 1) else (c, k)

/-- The fewest digits that read back, and the power of ten they stand at. -/
def shortest (mant : Nat) (exp : Int) : Nat × Int :=
  if mant = 0 then (0, 0)
  else
    match (List.range 17).findSome? fun i => withDigits? mant exp (i + 1) with
    | some (c, k) => trimZeros 20 c k
    | none => (mant, 0)

/-- `c * 10 ^ k` without an exponent. -/
def positional (c : Nat) (k : Int) : String :=
  let digits := (Nat.repr c).toList
  if 0 ≤ k then String.ofList (digits ++ List.replicate k.toNat '0')
  else
    let places := (-k).toNat
    if places < digits.length then
      String.ofList (digits.take (digits.length - places) ++ ['.'] ++
        digits.drop (digits.length - places))
    else String.ofList (['0', '.'] ++ List.replicate (places - digits.length) '0' ++ digits)

def toText : Binary64 → String
  | .finite m e =>
      let (c, k) := shortest m e
      positional c k
  | .infinite => "inf"

end Binary64

end Unmask
