/-
# `Unmask.Settings.Yaml.Cursor` — a place in a text

YAML lives by columns: where a token stands decides what it belongs to.  A
cursor is the text from a place on, with the number of characters, lines and
columns before it.  Only a line feed starts a line; a carriage return that
stands alone ends one for the grammar and yet counts as a column.

Past the end every character is NUL, and a NUL in a text ends it.
-/

namespace Unmask.Yaml

def isBreak (c : Char) : Bool := c == '\n' || c == '\r'

def isEnd (c : Char) : Bool := c == '\x00'

/-- The end of a line or of the text. -/
def isLineEnd (c : Char) : Bool := isBreak c || isEnd c

def isSpace (c : Char) : Bool := c == ' ' || c == '\t'

/-- A blank, a line end or the end of the text. -/
def isGap (c : Char) : Bool := isSpace c || isLineEnd c

/-- Marks of lists and mappings in brackets. -/
def isFlowMark (c : Char) : Bool :=
  c == ',' || c == '[' || c == ']' || c == '\x7b' || c == '\x7d'

/-- May stand in the name of an anchor, of a directive or of a tag handle. -/
def isNameChar (c : Char) : Bool := c.isAlphanum || c == '_' || c == '-'

structure Cursor where
  rest : List Char
  index : Nat := 0
  line : Nat := 0
  column : Nat := 0
deriving Repr, Inhabited

namespace Cursor

def start (text : String) : Cursor := { rest := text.toList.takeWhile fun c => !isEnd c }

def ahead (c : Cursor) (n : Nat) : Char := c.rest.getD n '\x00'

def char (c : Cursor) : Char := c.rest.headD '\x00'

def step (c : Cursor) : Cursor :=
  match c.rest with
  | [] => c
  | ch :: rest =>
      if ch == '\n' then { rest, index := c.index + 1, line := c.line + 1, column := 0 }
      else { rest, index := c.index + 1, line := c.line, column := c.column + 1 }

def advance : Nat → Cursor → Cursor
  | 0, c => c
  | n + 1, c => advance n c.step

/-- The characters here that have a property. -/
def run (c : Cursor) (p : Char → Bool) : List Char := c.rest.takeWhile p

/-- Past the characters that have a property. -/
def skip (c : Cursor) (p : Char → Bool) : Cursor := advance (c.run p).length c

def skipBreak (c : Cursor) : Cursor :=
  match c.rest with
  | '\r' :: '\n' :: _ => advance 2 c
  | ch :: _ => if isBreak ch then c.step else c
  | [] => c

def skipComment (c : Cursor) : Cursor :=
  if c.char == '#' then c.skip fun ch => !isLineEnd ch else c

/-- A mark of three characters stands alone at the start of a line. -/
def atMark (c : Cursor) (mark : Char) : Bool :=
  c.column == 0 && c.rest.take 3 == [mark, mark, mark] && isGap (c.ahead 3)

/-- A mark that starts or ends a document. -/
def atDocumentMark (c : Cursor) : Bool := c.atMark '-' || c.atMark '.'

end Cursor

end Unmask.Yaml
