/-
# `Unmask.Literal` — numeric literals and their values

A literal is read either as a hexadecimal number with an optional sign, when
the whole text has that form, or by the decimal digits it starts with.  Values
are kept in a signed word of 128 bits and stick at its upper end, digit by
digit; since the magnitude is bounded before the sign is applied, negation is
always defined.

`looksScrambled` is the list of bands in which a number is taken for a
character code or an index of a string table.  The texts of `commonNumbers`
are spared whatever their value: the comparison is by text, so `0x10` is not
covered by `16`.
-/
import Unmask.Name
import Unmask.Text.Blank

namespace Unmask.Literal

/-- The largest magnitude that is kept apart, one less than `2 ^ 127`. -/
def ceiling : Nat := 0x7fffffffffffffffffffffffffffffff

/-- The value of a digit in any base up to sixteen. -/
def digitValue (c : Char) : Nat :=
  if c.isDigit then c.toNat - 48
  else if 'a' ≤ c && c ≤ 'f' then c.toNat - 87
  else if 'A' ≤ c && c ≤ 'F' then c.toNat - 55
  else 0

/-- One more digit, sticking at the ceiling after the product and after the sum. -/
def push (base acc : Nat) (c : Char) : Nat :=
  min ceiling (min ceiling (acc * base) + digitValue c)

/-- The digits read from the left, sticking at the ceiling. -/
def magnitude (base : Nat) (digits : List Char) : Nat :=
  digits.foldl (push base) 0

/-- Splits off one sign; the flag is set for a minus. -/
def splitSign : List Char → Bool × List Char
  | '-' :: cs => (true, cs)
  | '+' :: cs => (false, cs)
  | cs => (false, cs)

def withSign (negative : Bool) (m : Nat) : Int :=
  if negative then -(m : Int) else m

/-- `0x` and then hexadecimal digits only, at least one. -/
def isHexRun : List Char → Bool
  | '0' :: 'x' :: d :: ds => (d :: ds).all Name.isHexDigit
  | _ => false

def isDecimalRun (cs : List Char) : Bool := !cs.isEmpty && cs.all Char.isDigit

/-- A hexadecimal literal with an optional sign. -/
def isHex (cs : List Char) : Bool := isHexRun (splitSign cs).2

/-- The number that a literal stands for, if it stands for one. -/
def value? (cs : List Char) : Option Int :=
  if isHex cs then
    let (negative, run) := splitSign cs
    some (withSign negative (magnitude 16 (run.drop 2)))
  else
    let (negative, rest) := splitSign (cs.dropWhile isBlank)
    let digits := rest.takeWhile Char.isDigit
    if digits.isEmpty then none else some (withSign negative (magnitude 10 digits))

/-- Numbers so usual in scripts that their text is left alone. -/
def commonNumbers : List String :=
  ["0", "1", "2", "3", "4", "5", "6", "7", "8", "9", "10",
   "100", "200", "300", "400", "401", "403", "404", "500", "503",
   "24", "60", "365", "1000", "3600", "86400",
   "16", "32", "64", "128", "256", "512", "1024", "2048", "4096"]

/-- A text that is left alone. -/
def isCommon (cs : List Char) : Bool := commonNumbers.contains (String.ofList cs)

/-- The lower-case hexadecimal digits of a number, after a minus if it is negative. -/
def hexText (n : Int) : List Char :=
  if n < 0 then '-' :: Nat.toDigits 16 n.natAbs else Nat.toDigits 16 n.natAbs

/-- Two or more hexadecimal digits and nothing else. -/
def spellsHexPair (n : Int) : Bool :=
  2 ≤ (hexText n).length && (hexText n).all Name.isHexDigit

/-- What the bands are asked about: hexadecimal literals count by magnitude. -/
def score (cs : List Char) (v : Int) : Int := if isHex cs then v.natAbs else v

/-- The bands of suspicious numbers. -/
def inBand (cs : List Char) (n : Int) : Bool :=
  (32 ≤ n && n ≤ 126) || spellsHexPair n || (1000 < n && n < 1000000) ||
    (4 ≤ cs.length && cs.all Char.isDigit) || (99 < n && n < 1000 && n % 10 != 0) ||
    (65 ≤ n && n ≤ 90) || (97 ≤ n && n ≤ 122) || (48 ≤ n && n ≤ 57)

/-- A literal that reads like a scrambler's output. -/
def looksScrambled (cs : List Char) : Bool :=
  match value? cs with
  | none => false
  | some v => !isCommon cs && inBand cs (score cs v)

end Unmask.Literal
