/-
# `Unmask.Text.Scan` — leftmost search and replacement

`scan` walks a text from the left and asks a recogniser at every position.
The recogniser sees the character before the position and the text from there
on, and answers with what it found and how many characters that takes; the
walk goes on behind them.  Matches are therefore leftmost and do not overlap.
`replaceAll` is the same walk with a fixed pattern and a fixed replacement.

Both are structural in the text: the characters of a match are passed one by
one, counted down in the first argument.
-/

namespace Unmask

/-- The finds of `at?` in a text, leftmost first, none overlapping another.
The first argument counts the characters still to be passed, the second is the
character before the text. -/
def scan {α : Type} (at? : Option Char → List Char → Option (α × Nat)) :
    Nat → Option Char → List Char → List α
  | _, _, [] => []
  | k + 1, _, c :: cs => scan at? k (some c) cs
  | 0, before, c :: cs =>
      match at? before (c :: cs) with
      | some (a, n) => a :: scan at? (n - 1) (some c) cs
      | none => scan at? 0 (some c) cs

def findAll {α : Type} (at? : Option Char → List Char → Option (α × Nat))
    (text : List Char) : List α :=
  scan at? 0 none text

/-- Replaces the occurrences of `pattern` from the left.  The first number
counts the characters of an occurrence still to be passed. -/
def replaceFrom (pattern replacement : List Char) : Nat → List Char → List Char
  | _, [] => []
  | k + 1, _ :: cs => replaceFrom pattern replacement k cs
  | 0, c :: cs =>
      if pattern.isPrefixOf (c :: cs) then
        replacement ++ replaceFrom pattern replacement (pattern.length - 1) cs
      else c :: replaceFrom pattern replacement 0 cs

def replaceAll (pattern replacement : String) (text : List Char) : List Char :=
  replaceFrom pattern.toList replacement.toList 0 text

end Unmask
