/-
# `Unmask.Document.JsonText` — documents written as JSON

Two layouts: on one line without blanks, and one entry a line with an indent
of two.  In both, quotes, backslashes and control characters are escaped and
everything else stands for itself.
-/
import Unmask.Document

namespace Unmask.Document

def hexDigit (n : Nat) : Char := (Nat.toDigits 16 n).headD '0'

def jsonChar (c : Char) : List Char :=
  match c with
  | '"' => ['\\', '"']
  | '\\' => ['\\', '\\']
  | '\x08' => ['\\', 'b']
  | '\t' => ['\\', 't']
  | '\n' => ['\\', 'n']
  | '\x0c' => ['\\', 'f']
  | '\r' => ['\\', 'r']
  | c =>
      if c.toNat < 0x20 then
        ['\\', 'u', '0', '0', hexDigit (c.toNat / 16), hexDigit (c.toNat % 16)]
      else [c]

def jsonString (s : String) : String :=
  String.ofList (['"'] ++ s.toList.flatMap jsonChar ++ ['"'])

def jsonFlag (b : Bool) : String := if b then "true" else "false"

mutual

/-- On one line, without blanks. -/
def compactJson : Document → String
  | .flag b => jsonFlag b
  | .text s => jsonString s
  | .list items => "[" ++ ",".intercalate (compactItems items) ++ "]"
  | .record fields => "\x7b" ++ ",".intercalate (compactFields fields) ++ "\x7d"

def compactItems : List Document → List String
  | [] => []
  | d :: ds => d.compactJson :: compactItems ds

def compactFields : List (String × Document) → List String
  | [] => []
  | (k, d) :: fs => (jsonString k ++ ":" ++ d.compactJson) :: compactFields fs

end

def indentation (n : Nat) : String := String.ofList (List.replicate n ' ')

/-- Entries between brackets, one a line, the brackets indented by `n`. -/
def bracketed (opening closing : String) (n : Nat) (entries : List String) : String :=
  if entries.isEmpty then opening ++ closing
  else
    let indented := entries.map fun e => indentation (n + 2) ++ e
    opening ++ "\n" ++ ",\n".intercalate indented ++ "\n" ++ indentation n ++ closing

mutual

/-- One entry a line; the document stands at an indent of `n`. -/
def prettyJsonAt (n : Nat) : Document → String
  | .flag b => jsonFlag b
  | .text s => jsonString s
  | .list items => bracketed "[" "]" n (prettyItems (n + 2) items)
  | .record fields => bracketed "\x7b" "\x7d" n (prettyFields (n + 2) fields)

def prettyItems (n : Nat) : List Document → List String
  | [] => []
  | d :: ds => prettyJsonAt n d :: prettyItems n ds

def prettyFields (n : Nat) : List (String × Document) → List String
  | [] => []
  | (k, d) :: fs => (jsonString k ++ ": " ++ prettyJsonAt n d) :: prettyFields n fs

end

/-- One entry a line, without a line end after the last. -/
def prettyJson (d : Document) : String := prettyJsonAt 0 d

end Unmask.Document
