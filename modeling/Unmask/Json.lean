/-
# `Unmask.Json` — reading JSON

A text is cut into lexemes and the lexemes drive a pushdown automaton: `step`
takes the automaton over one lexeme, so reading is a fold and needs no
recursion into the nesting of the text.  The grammar is the strict one: no
comments, no trailing commas, no byte order mark, no bare control characters.

A string literal can be well formed and yet name half of a surrogate pair.
Such a literal has no text; it is kept as `none`, since a reader that does not
look at it need not mind.
-/
import Unmask.Name

namespace Unmask

/-- A number as it is written. -/
structure JsonNumber where
  negative : Bool
  /-- The digits before the point. -/
  whole : List Char
  /-- The digits behind the point; none if there is no point. -/
  part : List Char
  /-- The exponent. -/
  power : Option Int
deriving Repr, DecidableEq, Inhabited

inductive Json where
  | null
  | bool (b : Bool)
  | num (n : JsonNumber)
  | str (text : Option String)
  | arr (items : List Json)
  | obj (fields : List (Option String × Json))
deriving Repr, Inhabited

namespace Json

/-- A mark, a word, a number or a string. -/
inductive Lexeme where
  | openBrace
  | closeBrace
  | openBracket
  | closeBracket
  | colon
  | comma
  | null
  | bool (b : Bool)
  | num (n : JsonNumber)
  | str (text : Option String)
deriving Repr, Inhabited

def hexValue? (c : Char) : Option Nat :=
  if c.isDigit then some (c.toNat - 48)
  else if 'a' ≤ c && c ≤ 'f' then some (c.toNat - 87)
  else if 'A' ≤ c && c ≤ 'F' then some (c.toNat - 55)
  else none

def hex4? (a b c d : Char) : Option Nat := do
  let high := (← hexValue? a) * 16 + (← hexValue? b)
  let low := (← hexValue? c) * 16 + (← hexValue? d)
  return high * 256 + low

/-- What a backslash and a letter stand for. -/
def shortEscape? : Char → Option Nat
  | '"' => some 0x22
  | '\\' => some 0x5C
  | '/' => some 0x2F
  | 'b' => some 0x08
  | 'f' => some 0x0C
  | 'n' => some 0x0A
  | 'r' => some 0x0D
  | 't' => some 0x09
  | _ => none

/-- The code values of a string literal up to its closing quote, and the text
behind it.  A value may be half of a surrogate pair; `done` holds, in reverse,
the values read so far. -/
def stringCodes? (done : List Nat) : List Char → Option (List Nat × List Char)
  | [] => none
  | '"' :: cs => some (done.reverse, cs)
  | '\\' :: 'u' :: a :: b :: c :: d :: cs =>
      match hex4? a b c d with
      | some n => stringCodes? (n :: done) cs
      | none => none
  | '\\' :: e :: cs =>
      match shortEscape? e with
      | some n => stringCodes? (n :: done) cs
      | none => none
  | c :: cs =>
      if c == '\\' || c.toNat < 0x20 then none else stringCodes? (c.toNat :: done) cs

def isHighHalf (n : Nat) : Bool := 0xD800 ≤ n && n ≤ 0xDBFF

def isLowHalf (n : Nat) : Bool := 0xDC00 ≤ n && n ≤ 0xDFFF

/-- The characters of code values; none if a half stands alone.  `done` holds,
in reverse, the characters so far. -/
def charsOfCodes? (done : List Char) : List Nat → Option (List Char)
  | [] => some done.reverse
  | h :: l :: ns =>
      if isHighHalf h then
        if isLowHalf l then
          charsOfCodes? (Char.ofNat (0x10000 + (h - 0xD800) * 0x400 + (l - 0xDC00)) :: done) ns
        else none
      else if isLowHalf h then none
      else charsOfCodes? (Char.ofNat h :: done) (l :: ns)
  | [n] => if isHighHalf n || isLowHalf n then none else some (Char.ofNat n :: done).reverse

def natOfDigits (ds : List Char) : Nat := ds.foldl (fun n c => n * 10 + (c.toNat - 48)) 0

/-- The digits behind a point, if there is one. -/
def fraction? : List Char → Option (List Char × List Char)
  | '.' :: cs =>
      let ds := cs.takeWhile Char.isDigit
      if ds.isEmpty then none else some (ds, cs.dropWhile Char.isDigit)
  | cs => some ([], cs)

def exponent? : List Char → Option (Option Int × List Char)
  | e :: cs =>
      if e == 'e' || e == 'E' then
        let (negative, cs) := match cs with
          | '-' :: r => (true, r)
          | '+' :: r => (false, r)
          | r => (false, r)
        let ds := cs.takeWhile Char.isDigit
        if ds.isEmpty then none
        else
          let n : Int := natOfDigits ds
          some (some (if negative then -n else n), cs.dropWhile Char.isDigit)
      else some (none, e :: cs)
  | [] => some (none, [])

/-- The digits before the point: `0` alone, or a run that does not start with `0`. -/
def integral? : List Char → Option (List Char × List Char)
  | '0' :: cs => some (['0'], cs)
  | cs =>
      let ds := cs.takeWhile Char.isDigit
      if ds.isEmpty then none else some (ds, cs.dropWhile Char.isDigit)

def number? (text : List Char) : Option (JsonNumber × List Char) := do
  let (negative, rest) := match text with
    | '-' :: r => (true, r)
    | r => (false, r)
  let (whole, rest) ← integral? rest
  let (part, rest) ← fraction? rest
  let (power, rest) ← exponent? rest
  return ({ negative, whole, part, power }, rest)

/-- Blanks between lexemes. -/
def isSpace (c : Char) : Bool := c == ' ' || c == '\t' || c == '\n' || c == '\r'

/-- The lexeme at the start of a text that does not start with a blank. -/
def lexeme? (text : List Char) : Option (Lexeme × List Char) :=
  match text with
  | '\x7b' :: cs => some (.openBrace, cs)
  | '\x7d' :: cs => some (.closeBrace, cs)
  | '[' :: cs => some (.openBracket, cs)
  | ']' :: cs => some (.closeBracket, cs)
  | ':' :: cs => some (.colon, cs)
  | ',' :: cs => some (.comma, cs)
  | 'n' :: 'u' :: 'l' :: 'l' :: cs => some (.null, cs)
  | 't' :: 'r' :: 'u' :: 'e' :: cs => some (.bool true, cs)
  | 'f' :: 'a' :: 'l' :: 's' :: 'e' :: cs => some (.bool false, cs)
  | '"' :: cs => (stringCodes? [] cs).map fun (codes, rest) =>
      (.str ((charsOfCodes? [] codes).map String.ofList), rest)
  | cs => (number? cs).map fun (n, rest) => (.num n, rest)

/-- All lexemes of a text, `done` holding in reverse those before it.  Each takes
a character, so the length of the text is fuel enough. -/
def lexemes? (done : List Lexeme) : Nat → List Char → Option (List Lexeme)
  | fuel, text =>
      match text.dropWhile isSpace, fuel with
      | [], _ => some done.reverse
      | _, 0 => none
      | cs, fuel + 1 =>
          match lexeme? cs with
          | some (l, rest) => lexemes? (l :: done) fuel rest
          | none => none

/-- A container that is being read, its entries so far in reverse. -/
inductive Frame where
  | array (done : List Json)
  | object (done : List (Option String × Json)) (key : Option String)
deriving Inhabited

/-- What has just been read, or must come next. -/
inductive Phase where
  | value
  | firstItem
  | key (done : List (Option String × Json))
  | colon (done : List (Option String × Json)) (key : Option String)
  | complete (v : Json)
deriving Inhabited

/-- The automaton: the containers around the current place and the phase. -/
structure Reading where
  stack : List Frame := []
  phase : Phase := .value
deriving Inhabited

namespace Reading

/-- A value begins or stands here. -/
def value? (limit : Option Nat) (stack : List Frame) (l : Lexeme) : Option Reading :=
  let mayNest : Bool := match limit with
    | some n => stack.length < n
    | none => true
  match l with
  | .null => some ⟨stack, .complete .null⟩
  | .bool b => some ⟨stack, .complete (.bool b)⟩
  | .num n => some ⟨stack, .complete (.num n)⟩
  | .str t => some ⟨stack, .complete (.str t)⟩
  | .openBracket => if mayNest then some ⟨.array [] :: stack, .firstItem⟩ else none
  | .openBrace => if mayNest then some ⟨.object [] none :: stack, .key []⟩ else none
  | _ => none

/-- The automaton after one more lexeme, if the lexeme may stand here.  `limit`
bounds the number of containers open at once. -/
def step (limit : Option Nat) (r : Reading) (l : Lexeme) : Option Reading :=
  match r.phase, r.stack, l with
  | .firstItem, .array [] :: stack, .closeBracket => some ⟨stack, .complete (.arr [])⟩
  | .key [], .object _ _ :: stack, .closeBrace => some ⟨stack, .complete (.obj [])⟩
  | .key done, .object _ _ :: stack, .str t => some ⟨.object done t :: stack, .colon done t⟩
  | .colon _ _, stack, .colon => some ⟨stack, .value⟩
  | .complete v, .array done :: stack, .comma => some ⟨.array (v :: done) :: stack, .value⟩
  | .complete v, .array done :: stack, .closeBracket =>
      some ⟨stack, .complete (.arr (v :: done).reverse)⟩
  | .complete v, .object done k :: stack, .comma =>
      some ⟨.object ((k, v) :: done) none :: stack, .key ((k, v) :: done)⟩
  | .complete v, .object done k :: stack, .closeBrace =>
      some ⟨stack, .complete (.obj ((k, v) :: done).reverse)⟩
  | .value, stack, l => value? limit stack l
  | .firstItem, stack, l => value? limit stack l
  | _, _, _ => none

/-- The value, once nothing is open. -/
def result? (r : Reading) : Option Json :=
  match r.stack, r.phase with
  | [], .complete v => some v
  | _, _ => none

end Reading

/-- The value that a text spells, if it spells one.  `limit` bounds the nesting. -/
def read? (limit : Option Nat) (text : String) : Option Json := do
  let cs := text.toList
  let ls ← lexemes? [] cs.length cs
  let r ← ls.foldlM (Reading.step limit) {}
  r.result?

/-- The last field with a key. -/
def field? (fields : List (Option String × Json)) (key : String) : Option Json :=
  (fields.reverse.find? fun f => f.1 == some key).map Prod.snd

end Json

end Unmask
