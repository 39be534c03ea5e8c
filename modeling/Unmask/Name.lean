/-
# `Unmask.Name` — the shapes of names

A name is written with ASCII letters, digits, `_` and `$`, and does not start
with a digit.  The rest of this module says which names look like the work of
a scrambler: those of one or two characters, those that spell a hexadecimal
number after a sigil, and those whose letters change case in a way that
neither `Capitalised` nor `camelCase` explains.

All tests are on the list of characters; `Unmask.Name.Lexicon` adds the words
that are never touched.
-/

namespace Unmask.Name

def isStart (c : Char) : Bool := c.isAlpha || c == '_' || c == '$'

/-- May stand in a name after its first character. -/
def isPart (c : Char) : Bool := c.isAlphanum || c == '_' || c == '$'

def isHexDigit (c : Char) : Bool :=
  c.isDigit || ('a' ≤ c && c ≤ 'f') || ('A' ≤ c && c ≤ 'F')

def isValid : List Char → Bool
  | [] => false
  | c :: cs => isStart c && cs.all isPart

/-- `_` or `$` and then hexadecimal digits only, at least one. -/
def isSigilHex : List Char → Bool
  | c :: d :: ds => (c == '_' || c == '$') && (d :: ds).all isHexDigit
  | _ => false

/-- Starts with `_0x` and a hexadecimal digit, whatever follows. -/
def isHexTagged : List Char → Bool
  | '_' :: '0' :: 'x' :: d :: _ => isHexDigit d
  | _ => false

/-- `_0x` and then hexadecimal digits only, at least four: the names that
scramblers number their variables with. -/
def isNumbered : List Char → Bool
  | '_' :: '0' :: 'x' :: ds => 4 ≤ ds.length && ds.all isHexDigit
  | _ => false

/-- A lower-case letter next to an upper-case one, in either order. -/
def changesCase : List Char → Bool
  | a :: b :: cs =>
      (a.isLower && b.isUpper) || (a.isUpper && b.isLower) || changesCase (b :: cs)
  | _ => false

/-- An upper-case letter and then lower-case letters, at least one. -/
def isCapitalised : List Char → Bool
  | c :: d :: ds => c.isUpper && (d :: ds).all Char.isLower
  | _ => false

/-- Lower-case letters, one upper-case letter, lower-case letters. -/
def isCamel (cs : List Char) : Bool :=
  match cs.dropWhile Char.isLower with
  | c :: rest => !(cs.takeWhile Char.isLower).isEmpty &&
      c.isUpper && rest.all Char.isLower
  | [] => false

/-- A name that reads like a scrambler's output. -/
def looksScrambled (cs : List Char) : Bool :=
  (isValid cs && cs.length ≤ 2) || isSigilHex cs || isHexTagged cs ||
    (isValid cs && 2 < cs.length && changesCase cs && !isCapitalised cs && !isCamel cs)

end Unmask.Name
