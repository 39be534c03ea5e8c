/-
# `Unmask.Service.Submission` — what is submitted for unmasking

The body of a submission is a JSON object with the script under `code`, or a
list that holds the script and nothing else.  Entries under other keys are
passed over, whatever they hold.  The script has to be a text that is not
blank.
-/
import Unmask.Json
import Unmask.Unmasking

namespace Unmask.Submission

/-- A following byte of a character: the six bits that it carries. -/
def tailBits? (b : UInt8) : Option Nat :=
  if 0x80 ≤ b.toNat && b.toNat ≤ 0xBF then some (b.toNat - 0x80) else none

/-- A character with a code in a range. -/
def charWithin? (lo hi n : Nat) : Option Char :=
  if lo ≤ n && n ≤ hi && n.isValidChar then some (Char.ofNat n) else none

/-- The character at the front of bytes in UTF-8, and how many bytes it takes. -/
def frontChar? : List UInt8 → Option (Char × Nat)
  | [] => none
  | a :: bs =>
      let n := a.toNat
      if n < 0x80 then some (Char.ofNat n, 1)
      else if n < 0xE0 then do
        let b ← tailBits? (← bs[0]?)
        return (← charWithin? 0x80 0x7FF ((n - 0xC0) * 64 + b), 2)
      else if n < 0xF0 then do
        let b ← tailBits? (← bs[0]?)
        let c ← tailBits? (← bs[1]?)
        return (← charWithin? 0x800 0xFFFF (((n - 0xE0) * 64 + b) * 64 + c), 3)
      else do
        let b ← tailBits? (← bs[0]?)
        let c ← tailBits? (← bs[1]?)
        let d ← tailBits? (← bs[2]?)
        return (← charWithin? 0x10000 0x10FFFF ((((n - 0xF0) * 64 + b) * 64 + c) * 64 + d), 4)

/-- Stands for a byte that belongs to no character: a string of JSON that holds it
cannot be read, and outside of strings it is an error. -/
def strayByte : List Char := " \\udc00".toList

/-- Bytes as text, the stray ones marked; `skip` bytes belong to a character that is
already written, and `done` is in reverse. -/
def markedText (done : List Char) (skip : Nat) : List UInt8 → List Char
  | [] => done.reverse
  | b :: bs =>
      match skip with
      | k + 1 => markedText done k bs
      | 0 =>
          match frontChar? (b :: bs) with
          | some (c, n) => markedText (c :: done) (n - 1) bs
          | none => markedText (strayByte.reverse ++ done) 0 bs

def bodyText (body : ByteArray) : String :=
  match String.fromUTF8? body with
  | some text => text
  | none => String.ofList (markedText [] 0 body.toList)

/-- The script in a submission: the only entry under `code`, or the only item of a
list.  Every key has to be readable. -/
def scriptOf? : Json → Option String
  | .obj fields =>
      if fields.all fun f => f.1.isSome then
        match fields.filter fun f => f.1 == some "code" with
        | [(_, .str script)] => script
        | _ => none
      else none
  | .arr [.str script] => script
  | _ => none

/-- The script in the body of a submission, unless it is blank. -/
def read? (body : ByteArray) : Option String :=
  ((Json.read? none (bodyText body)).bind scriptOf?).filter fun s => !isBlankText s

end Unmask.Submission
