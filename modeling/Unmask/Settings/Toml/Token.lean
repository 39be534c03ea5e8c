/-
# `Unmask.Settings.Toml.Token` — the tokens of TOML

A text is cut into marks, words, quoted texts, blanks, comments and line ends.
A word is a run of ASCII letters, digits, `_` and `-`; keys, numbers, dates and
the names of flags are made of words and marks.  A carriage return counts only
as part of a line end, and a byte order mark only at the start.
-/
import Unmask.Json

namespace Unmask.Toml

/-- A token.  A quoted text remembers whether it stood in three quotes. -/
inductive Token where
  | blank (chars : List Char)
  | newline
  | comment
  | equals
  | period
  | comma
  | colon
  | plus
  | openBrace
  | closeBrace
  | openBracket
  | closeBracket
  | word (chars : List Char)
  | text (content : String) (long : Bool)
deriving Repr, DecidableEq, Inhabited

/-- Blanks within a line. -/
def isSpace (c : Char) : Bool := c == ' ' || c == '\t'

def isWordChar (c : Char) : Bool := c.isAlphanum || c == '_' || c == '-'

/-- May stand in a comment: the tab, and what does not come before the space. -/
def isCommentChar (c : Char) : Bool := c == '\t' || 0x20 ≤ c.toNat

def isTextChar (c : Char) : Bool := isCommentChar c && c.toNat != 0x7F

/-- Line ends of two characters made line ends of one. -/
def foldLineEnds : List Char → List Char
  | '\r' :: '\n' :: cs => '\n' :: foldLineEnds cs
  | c :: cs => c :: foldLineEnds cs
  | [] => []

def charOf? (n : Nat) : Option Char := if n.isValidChar then some (Char.ofNat n) else none

/-- The code that eight hexadecimal digits spell. -/
def hex8? (a b c d e f g h : Char) : Option Nat := do
  return (← Json.hex4? a b c d) * 65536 + (← Json.hex4? e f g h)

/-- What a backslash and a letter stand for. -/
def shortEscape? : Char → Option Char
  | 'b' => some '\x08'
  | 't' => some '\t'
  | 'n' => some '\n'
  | 'f' => some '\x0c'
  | 'r' => some '\r'
  | '"' => some '"'
  | '\\' => some '\\'
  | _ => none

/-- What follows a backslash: the character it stands for, if it stands for one, and
the text behind.  In three quotes a backslash at the end of a line takes the line end
and the blanks and line ends behind it away. -/
def escape? (long : Bool) : List Char → Option (Option Char × List Char)
  | 'u' :: a :: b :: c :: d :: cs => do
      return (← charOf? (← Json.hex4? a b c d), cs)
  | 'U' :: a :: b :: c :: d :: e :: f :: g :: h :: cs => do
      return (← charOf? (← hex8? a b c d e f g h), cs)
  | e :: cs =>
      match shortEscape? e with
      | some ch => some (ch, cs)
      | none =>
          match long, (e :: cs).dropWhile isSpace with
          | true, '\n' :: below => some (none, below.dropWhile fun c => isSpace c || c == '\n')
          | _, _ => none
  | [] => none

/-- A quoted text behind its opening quote or quotes; with `long` it ends at three
quotes and may hold line ends.  Up to two more quotes at the end are part of the
text.  Every round takes a character, so the length of the text is fuel enough. -/
def quoted? (quote : Char) (long : Bool) (done : List Char) :
    Nat → List Char → Option (List Char × List Char)
  | 0, _ => none
  | _, [] => none
  | fuel + 1, c :: cs =>
      if c == quote then
        if !long then some (done.reverse, cs)
        else
          match cs with
          | a :: b :: rest =>
              if a == quote && b == quote then
                let more := min 2 (rest.takeWhile (· == quote)).length
                some (done.reverse ++ List.replicate more quote, rest.drop more)
              else quoted? quote long (c :: done) fuel cs
          | _ => quoted? quote long (c :: done) fuel cs
      else if c == '\n' then
        if long then quoted? quote long (c :: done) fuel cs else none
      else if c == '\\' && quote == '"' then
        match escape? long cs with
        | some (ch, rest) => quoted? quote long (ch.toList ++ done) fuel rest
        | none => none
      else if isTextChar c then quoted? quote long (c :: done) fuel cs
      else none

/-- A line end right behind three opening quotes does not count. -/
def dropFirstLineEnd : List Char → List Char
  | '\n' :: cs => cs
  | cs => cs

/-- A quoted text behind its first quote. -/
def text? (quote : Char) (cs : List Char) : Option (Token × List Char) :=
  let short : Option (Token × List Char) :=
    (quoted? quote false [] (cs.length + 1) cs).map fun (t, rest) =>
      (.text (String.ofList t) false, rest)
  match cs with
  | a :: b :: rest =>
      if a == quote && b == quote then
        (quoted? quote true [] (rest.length + 1) (dropFirstLineEnd rest)).map fun (t, rest) =>
          (.text (String.ofList t) true, rest)
      else short
  | _ => short

/-- The token at the start of a text that is not empty. -/
def token? (c : Char) (cs : List Char) : Option (Token × List Char) :=
  match c with
  | '\n' => some (.newline, cs)
  | '#' => some (.comment, cs.dropWhile isCommentChar)
  | '=' => some (.equals, cs)
  | '.' => some (.period, cs)
  | ',' => some (.comma, cs)
  | ':' => some (.colon, cs)
  | '+' => some (.plus, cs)
  | '\x7b' => some (.openBrace, cs)
  | '\x7d' => some (.closeBrace, cs)
  | '[' => some (.openBracket, cs)
  | ']' => some (.closeBracket, cs)
  | '"' => text? '"' cs
  | '\'' => text? '\'' cs
  | c =>
      if isSpace c then some (.blank (c :: cs.takeWhile isSpace), cs.dropWhile isSpace)
      else if isWordChar c then
        some (.word (c :: cs.takeWhile isWordChar), cs.dropWhile isWordChar)
      else none

/-- All tokens of a text, `done` holding in reverse those before it.  Each takes a
character, so the length of the text is fuel enough. -/
def tokensOf? (done : List Token) : Nat → List Char → Option (List Token)
  | _, [] => some done.reverse
  | 0, _ => none
  | fuel + 1, c :: cs =>
      match token? c cs with
      | some (t, rest) => tokensOf? (t :: done) fuel rest
      | none => none

def tokens? (text : String) : Option (List Token) :=
  let cs := foldLineEnds text.toList
  let cs := match cs with
    | '\ufeff' :: rest => rest
    | cs => cs
  tokensOf? [] cs.length cs

end Unmask.Toml
