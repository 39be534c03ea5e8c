/-
# `Unmask.Document.YamlText` — documents written as YAML

Block style throughout: fields of a record one below the other, a record in a
field indented by two, the items of a list at the indent of their field, empty
containers as `[]` and as a pair of braces.  Lines are never folded.

A text is written in one of four ways.  With a line feed in it, it is a literal
block; a text that would read as something else is put in single quotes; any
other text is plain where that is allowed.  Where a way is not allowed the next
stronger one is taken: single quotes for plain, double quotes with escapes for
the rest.
-/
import Unmask.Decimal
import Unmask.Document.JsonText

namespace Unmask.Document

def isLineBreak (c : Char) : Bool :=
  c == '\n' || c == '\r' || c == '\u0085' || c == '\u2028' || c == '\u2029'

/-- A blank, a line end, or the end of the text. -/
def isGap : Option Char → Bool
  | none => true
  | some c => c == ' ' || c == '\t' || c == '\x00' || isLineBreak c

/-- May stand unescaped. -/
def isPrintable (c : Char) : Bool :=
  let n := c.toNat
  n == 0x0A || (0x20 ≤ n && n ≤ 0x7E) || (0xA0 ≤ n && n ≤ 0xFFFD && n != 0xFEFF) ||
    0x10000 ≤ n

/-! ## Texts that read as something else -/

/-- The words for null, truth and untruth. -/
def wordsWithMeaning : List String :=
  ["null", "Null", "NULL", "~", "true", "True", "TRUE", "false", "False", "FALSE"]

/-- The words for infinity and for what is no number, less a plus before them. -/
def numberWords : List String :=
  [".inf", ".Inf", ".INF", "-.inf", "-.Inf", "-.INF", ".nan", ".NaN", ".NAN"]

/-- Digits of a base below a bound. -/
def isBelow (bound base : Nat) (ds : List Char) : Bool :=
  !ds.isEmpty && (ds.all fun c => (Json.hexValue? c).any (· < base)) &&
    ds.foldl (fun n c => n * base + (Json.hexValue? c).getD 0) 0 < bound

/-- A mark of a base and digits of that base, below a bound. -/
def isBased (bound : Nat) : List Char → Bool
  | '0' :: 'x' :: ds => isBelow bound 16 ds
  | '0' :: 'o' :: ds => isBelow bound 8 ds
  | '0' :: 'b' :: ds => isBelow bound 2 ds
  | _ => false

/-- A whole number with the mark of a base, of at most 128 bits. -/
def isBasedNumber : List Char → Bool
  | '-' :: cs => isBased 0x80000000000000000000000000000001 cs
  | '+' :: cs => isBased 0x100000000000000000000000000000000 cs
  | cs => isBased 0x100000000000000000000000000000000 cs

def isPadded (cs : List Char) : Bool :=
  let ds := match cs with
    | '-' :: ds => ds
    | '+' :: ds => ds
    | ds => ds
  ds.length > 1 && ds.head? == some '0' && ds.all Char.isDigit

def isNumberWord : List Char → Bool
  | '+' :: cs => (numberWords.take 3).contains (String.ofList cs)
  | cs => numberWords.contains (String.ofList cs)

/-- Written plainly, the text would not be read as a text. -/
def readsAsOther (cs : List Char) : Bool :=
  cs.isEmpty || wordsWithMeaning.contains (String.ofList cs) || isBasedNumber cs ||
    isPadded cs || isNumberWord cs || (Decimal.read? cs).any Decimal.isFinite

/-! ## Which ways are allowed -/

/-- May not start a plain text. -/
def isOpeningMark (c : Char) : Bool := "#,[]\x7b\x7d&*!|>'\"%@\x60".toList.contains c

/-- A colon before a gap or a hash behind one. -/
def hasMark (before : Char) : List Char → Bool
  | [] => false
  | c :: cs =>
      (c == ':' && isGap cs.head?) || (c == '#' && isGap (some before)) || hasMark c cs

/-- Something in the text would be taken for structure. -/
def hasStructure (cs : List Char) : Bool :=
  "---".toList.isPrefixOf cs || "...".toList.isPrefixOf cs ||
    match cs with
    | [] => false
    | c :: rest =>
        isOpeningMark c || ((c == '?' || c == ':' || c == '-') && isGap rest.head?) ||
          hasMark c rest

/-- A character that the first test holds of, directly before one that the second
holds of. -/
def hasPair (p q : Char → Bool) : List Char → Bool
  | c :: d :: cs => (p c && q d) || hasPair p q (d :: cs)
  | _ => false

/-- The four ways to write a text. -/
inductive Style where
  | plain
  | single
  | double
  | literal
deriving Repr, DecidableEq, Inhabited

/-- Single quotes are enough. -/
def singleAllowed (cs : List Char) : Bool :=
  cs.all isPrintable && !hasPair isLineBreak (· == ' ') cs && !hasPair (· == ' ') isLineBreak cs

def plainAllowed (cs : List Char) : Bool :=
  singleAllowed cs && !hasStructure cs && !cs.any isLineBreak &&
    cs.head? != some ' ' && cs.getLast? != some ' '

/-- A text may be a literal block; no line of it may end in a space. -/
def literalAllowed (cs : List Char) : Bool :=
  cs.all isPrintable && cs.getLast? != some ' ' && !hasPair (· == ' ') isLineBreak cs

def styleOf (cs : List Char) : Style :=
  if cs.contains '\n' then if literalAllowed cs then .literal else .double
  else if !readsAsOther cs && plainAllowed cs then .plain
  else if singleAllowed cs then .single
  else .double

/-! ## Writing -/

/-- The text between single quotes, quotes doubled; after a line end comes an indent. -/
def singleBody (indent : List Char) (fresh : Bool) : List Char → List Char
  | [] => if fresh then indent else []
  | c :: cs =>
      if isLineBreak c then c :: singleBody indent true cs
      else
        let lead := if fresh then indent else []
        lead ++ (if c == '\'' then ['\'', '\''] else [c]) ++ singleBody indent false cs

/-- The lines of a literal block, each indented unless it is empty. -/
def literalBody (indent : List Char) (fresh : Bool) : List Char → List Char
  | [] => []
  | c :: cs =>
      if isLineBreak c then c :: literalBody indent true cs
      else (if fresh then indent else []) ++ c :: literalBody indent false cs

/-- How a literal block announces its indentation and its end. -/
def literalHints (cs : List Char) : List Char :=
  let startsFree := cs.head?.any fun c => c == ' ' || isLineBreak c
  let ending := match cs.reverse with
    | [] => ['-']
    | [c] => if isLineBreak c then ['+'] else ['-']
    | c :: d :: _ => if !isLineBreak c then ['-'] else if isLineBreak d then ['+'] else []
  (if startsFree then ['2'] else []) ++ ending

/-- Upper-case hexadecimal digits, padded with zeros to a width. -/
def upperHex (width n : Nat) : List Char :=
  let ds := (Nat.toDigits 16 n).map Char.toUpper
  List.replicate (width - ds.length) '0' ++ ds

def doubleChar (c : Char) : List Char :=
  match c with
  | '\x00' => ['\\', '0']
  | '\x07' => ['\\', 'a']
  | '\x08' => ['\\', 'b']
  | '\t' => ['\\', 't']
  | '\n' => ['\\', 'n']
  | '\x0b' => ['\\', 'v']
  | '\x0c' => ['\\', 'f']
  | '\r' => ['\\', 'r']
  | '\x1b' => ['\\', 'e']
  | '"' => ['\\', '"']
  | '\\' => ['\\', '\\']
  | '\u0085' => ['\\', 'N']
  | '\u2028' => ['\\', 'L']
  | '\u2029' => ['\\', 'P']
  | c =>
      if isPrintable c then [c]
      else if c.toNat ≤ 0xFF then '\\' :: 'x' :: upperHex 2 c.toNat
      else if c.toNat ≤ 0xFFFF then '\\' :: 'u' :: upperHex 4 c.toNat
      else '\\' :: 'U' :: upperHex 8 c.toNat

/-- A text whose further lines, if it has any, are indented by `n`. -/
def scalarChars (n : Nat) (cs : List Char) : List Char :=
  let indent := List.replicate n ' '
  match styleOf cs with
  | .plain => cs
  | .single => '\'' :: singleBody indent false cs ++ ['\'']
  | .double => '"' :: cs.flatMap doubleChar ++ ['"']
  | .literal => '|' :: literalHints cs ++ '\n' :: literalBody indent true cs

/-- A text and the end of its line; a literal block may bring that along. -/
def yamlScalar (n : Nat) (s : String) : String :=
  let written := scalarChars n s.toList
  if styleOf s.toList = .literal && written.getLast?.any isLineBreak then String.ofList written
  else String.ofList (written ++ ['\n'])

/-- The longest key, in bytes, that stands on one line with its colon. -/
def longestKey : Nat := 128

/-- A key with its colon, at an indent of `n`. -/
def yamlKey (n : Nat) (k : String) : String :=
  if k.utf8ByteSize ≤ longestKey && !k.toList.any isLineBreak then
    indentation n ++ String.ofList (scalarChars n k.toList) ++ ":"
  else indentation n ++ "? " ++ yamlScalar (n + 2) k ++ indentation n ++ ":"

mutual

/-- A document behind the colon of its key, up to the end of its last line; the key
stands at an indent of `n`. -/
def yamlValue (n : Nat) : Document → String
  | .flag b => " " ++ jsonFlag b ++ "\n"
  | .text s => " " ++ yamlScalar (n + 2) s
  | .list [] => " []\n"
  | .list (d :: ds) => "\n" ++ yamlItems n (d :: ds)
  | .record [] => " \x7b\x7d\n"
  | .record (f :: fs) => "\n" ++ yamlFields (n + 2) (f :: fs)

def yamlFields (n : Nat) : List (String × Document) → String
  | [] => ""
  | (k, d) :: fs => yamlKey n k ++ yamlValue n d ++ yamlFields n fs

/-- The items of a list at an indent of `n`; what a container holds is indented
further, and its first line shares the line of the dash. -/
def yamlItems (n : Nat) : List Document → String
  | [] => ""
  | d :: ds =>
      let item := match d with
        | .flag b => " " ++ jsonFlag b ++ "\n"
        | .text s => " " ++ yamlScalar (n + 2) s
        | .list [] => " []\n"
        | .list (e :: es) => " " ++ (yamlItems (n + 2) (e :: es)).drop (n + 2)
        | .record [] => " \x7b\x7d\n"
        | .record (f :: fs) => " " ++ (yamlFields (n + 2) (f :: fs)).drop (n + 2)
      indentation n ++ "-" ++ item ++ yamlItems n ds

end

/-- A document as YAML, up to the end of its last line. -/
def yaml : Document → String
  | .flag b => jsonFlag b ++ "\n"
  | .text s => yamlScalar 2 s
  | .list [] => "[]\n"
  | .list (d :: ds) => yamlItems 0 (d :: ds)
  | .record [] => "\x7b\x7d\n"
  | .record (f :: fs) => yamlFields 0 (f :: fs)

end Unmask.Document
