/-
# `Unmask.Settings.Ini` — settings files of keys and values in sections

Entries are `key = value` or `key : value`; a line that starts with `;` or `#`
is a comment, and a section has its name in brackets.  A value reaches to the
end of its line; it may start with a quoted part, which may hold line ends.
Backslashes escape.  Every value is a text.

A section whose name comes again is a new section; as a table of settings the
last of that name counts.
-/
import Unmask.Json
import Unmask.Settings.Value
import Unmask.Text.Blank

namespace Unmask.Ini

def isLineEnd (c : Char) : Bool := c == '\n' || c == '\r'

def trim (cs : List Char) : String :=
  String.ofList ((cs.dropWhile isBlank).reverse.dropWhile isBlank).reverse

/-- The character that four characters spell: hexadecimal digits, of which a plus
may take the place of the first. -/
def coded? (a b c d : Char) : Option Char := do
  let n ← Json.hex4? (if a == '+' then '0' else a) b c d
  if n.isValidChar then some (Char.ofNat n) else none

/-- The text before a character at which `stop` holds, escapes undone, and the
text from there on.  With `toEnd` the end of the text stops as well. -/
def until? (stop : Char → Bool) (toEnd : Bool) (done : List Char) :
    List Char → Option (List Char × List Char)
  | [] => if toEnd then some (done.reverse, []) else none
  | '\\' :: 'x' :: a :: b :: c :: d :: cs =>
      match coded? a b c d with
      | some ch => until? stop toEnd (ch :: done) cs
      | none => none
  | '\\' :: e :: cs =>
      match e with
      | '0' => until? stop toEnd ('\x00' :: done) cs
      | 'a' => until? stop toEnd ('\x07' :: done) cs
      | 'b' => until? stop toEnd ('\x08' :: done) cs
      | 't' => until? stop toEnd ('\t' :: done) cs
      | 'r' => until? stop toEnd ('\r' :: done) cs
      | 'n' => until? stop toEnd ('\n' :: done) cs
      | '\n' => until? stop toEnd done cs
      | 'x' => none
      | e => until? stop toEnd (e :: done) cs
  | c :: cs =>
      if stop c then some (done.reverse, c :: cs)
      else if c == '\\' then none
      else until? stop toEnd (c :: done) cs

/-- A value: an optional quoted part, then the rest of the line. -/
def value? (text : List Char) : Option (List Char × List Char) := do
  let text := text.dropWhile fun c => isBlank c && !isLineEnd c
  let (quoted, text) ← match text with
    | '"' :: cs => (until? (· == '"') false [] cs).map fun (q, r) => (q, r.drop 1)
    | '\'' :: cs => (until? (· == '\'') false [] cs).map fun (q, r) => (q, r.drop 1)
    | cs => some ([], cs)
  let (plain, rest) ← until? isLineEnd true [] text
  return (quoted ++ plain, rest)

/-- A section and its entries, in reverse; what stands before every section has no
name. -/
structure Section where
  name : Option String := none
  entries : List (String × Value) := []
deriving Inhabited

/-- Reads on; `done` holds, in reverse, the sections before the current one.  Every
round takes a character, so the length of the text is fuel enough; `lineStart` says
that the text starts a line. -/
def read? : Nat → Bool → Section → List Section → List Char → Option (List Section)
  | 0, _, current, done, text =>
      if text.all isBlank then some (current :: done).reverse else none
  | fuel + 1, lineStart, current, done, text =>
      let blanks := text.takeWhile isBlank
      let lineStart := match blanks.getLast? with
        | some c => c == '\n'
        | none => lineStart
      match text.dropWhile isBlank with
      | [] => some (current :: done).reverse
      | '[' :: cs => do
          let (name, rest) ← until? (· == ']') false [] cs
          read? fuel false { name := some (trim name) } (current :: done) (rest.drop 1)
      | c :: cs =>
          if c == ';' || c == '#' then
            if lineStart then
              read? fuel true current done ((cs.dropWhile (· != '\n')).drop 1)
            else none
          else do
            let (key, rest) ← until? (fun c => c == '=' || c == ':') false [] (c :: cs)
            let key := trim key
            if key.isEmpty then none
            else
              let (value, rest) ← value? (rest.drop 1)
              let entry := (key, Value.text (trim value))
              read? fuel false { current with entries := entry :: current.entries } done rest

/-- What a section sets: a table under its name, or its entries themselves. -/
def Section.layer (s : Section) : Layer :=
  match s.name with
  | some name => [(name, .table s.entries.reverse)]
  | none => s.entries.reverse

def layer? (text : String) : Option Layer := do
  let cs := text.toList
  return (← read? (cs.length + 1) true {} [] cs).flatMap Section.layer

end Unmask.Ini
