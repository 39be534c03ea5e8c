/-
# `Unmask.Settings.Toml` — settings files in TOML

Sections are read from tokens: headers in brackets, and below them entries of a
dotted key and a value, each on its line.  Values are texts, flags, numbers,
dates, lists, which may run over lines, and tables in braces, which may not.

A number is made of a word and, for a fraction or an exponent with a plus, of
the tokens behind it.  A word is a date if it has a `T` or a `-` behind its
first character that is not the sign of an exponent, or if a colon follows.
-/
import Unmask.Settings.Toml.Moment
import Unmask.Settings.Toml.Section
import Unmask.Settings.Toml.Token

namespace Unmask.Toml

/-! ## Numbers -/

/-- Digits at the start of a text, single underscores between them left out, and the
text behind; there must be one.  Without `zeros` no digit follows a leading zero. -/
def digits? (base : Nat) (zeros : Bool) (cs : List Char) : Option (List Char × List Char) :=
  go true false false [] cs
where
  /-- Reads on: whether no digit has come, whether the first was zero, and whether
  an underscore has come last. -/
  go (first zero underscore : Bool) (done : List Char) :
      List Char → Option (List Char × List Char)
    | [] => if first || underscore then none else some (done.reverse, [])
    | c :: cs =>
        if c == '0' && first then go false true underscore (c :: done) cs
        else if (Json.hexValue? c).any (· < base) then
          if !first && zero && !zeros then none else go false zero false (c :: done) cs
        else if c == '_' && first then none
        else if c == '_' && !underscore then go false zero true done cs
        else if first || underscore then none
        else some (done.reverse, c :: cs)

/-- A minus taken off the front. -/
def signed : List Char → Bool × List Char
  | '-' :: cs => (true, cs)
  | cs => (false, cs)

/-- A whole number in a base that fits a signed word. -/
def wholeIn? (base : Nat) (cs : List Char) : Option Value := do
  let (negative, cs) := if base = 10 then signed cs else (false, cs)
  match ← digits? base (base != 10) cs with
  | (ds, []) =>
      let n : Nat := ds.foldl (fun n c => n * base + (Json.hexValue? c).getD 0) 0
      let n : Int := if negative then -(n : Int) else n
      if -0x8000000000000000 ≤ n && n < 0x8000000000000000 then some (.int n) else none
  | _ => none

/-- The exponent that starts at a text and may go on in the tokens behind it; none,
if the text is empty. -/
def exponent? (cs : List Char) (ts : List Token) : Option (Int × List Token) :=
  match cs with
  | [] => some (0, ts)
  | e :: cs =>
      if e != 'e' && e != 'E' then none
      else if cs.isEmpty then
        let ts := if ts.head? == some .plus then ts.tail else ts
        match ts with
        | .word w :: ts =>
            match digits? 10 true w with
            | some (ds, []) => some ((Json.natOfDigits ds : Int), ts)
            | _ => none
        | _ => none
      else
        let (negative, cs) := signed cs
        match digits? 10 true cs with
        | some (ds, []) =>
            let n : Int := Json.natOfDigits ds
            some (if negative then -n else n, ts)
        | _ => none

/-- A fraction: a word, the word behind a point if there is a point, and the tokens
behind; it must be a finite double. -/
def real? (word : List Char) (part : Option (List Char)) (ts : List Token) :
    Option (Value × List Token) := do
  let (negative, cs) := signed word
  let (whole, rest) ← digits? 10 false cs
  let (part, rest) ← match part with
    | none => some ([], rest)
    | some p => if rest.isEmpty then digits? 10 true p else none
  let (power, ts) ← exponent? rest ts
  match Binary64.ofDecimal (Json.natOfDigits (whole ++ part)) (power - part.length) with
  | .infinite => none
  | m => some (.real negative m, ts)

/-- A number: a word and the tokens behind it. -/
def number? (word : List Char) (ts : List Token) : Option (Value × List Token) :=
  match word with
  | '0' :: 'x' :: cs => (wholeIn? 16 cs).map fun v => (v, ts)
  | '0' :: 'o' :: cs => (wholeIn? 8 cs).map fun v => (v, ts)
  | '0' :: 'b' :: cs => (wholeIn? 2 cs).map fun v => (v, ts)
  | word =>
      if word.contains 'e' || word.contains 'E' then real? word none ts
      else
        match ts with
        | .period :: .word part :: ts => real? word (some part) ts
        | .period :: _ => none
        | ts =>
            let (negative, name) := signed word
            if name == "inf".toList then some (.real negative .infinite, ts)
            else if name == "nan".toList then some (.notANumber, ts)
            else (wholeIn? 10 word).map fun v => (v, ts)

/-! ## Dates -/

/-- A mark and the word behind it, if the mark is there. -/
def markedWord? (mark : Token) (c : Char) (ts : List Token) : Option (List Char × List Token) :=
  if ts.head? == some mark then
    match ts.tail with
    | .word w :: ts => some (c :: w, ts)
    | _ => none
  else some ([], ts)

/-- Minutes, seconds and what may follow them, behind the colon after the hours. -/
def clockText? (ts : List Token) : Option (List Char × List Token) :=
  match ts with
  | .word minute :: .colon :: .word second :: ts => do
      let (fraction, ts) ← markedWord? .period '.' ts
      let (offset, ts) ← markedWord? .plus '+' ts
      let (minutes, ts) ← markedWord? .colon ':' ts
      return (minute ++ ':' :: second ++ fraction ++ offset ++ minutes, ts)
  | _ => none

/-- The text of a date or a time: a word, after a single space another, and after a
colon the rest of a time. -/
def momentText? (word : List Char) (ts : List Token) : Option (List Char × List Token) :=
  let (word, ts) := match ts with
    | .blank [' '] :: .word hour :: ts => (word ++ ' ' :: hour, ts)
    | ts => (word, ts)
  match ts with
  | .colon :: ts => (clockText? ts).map fun (t, ts) => (word ++ ':' :: t, ts)
  | ts => some (word, ts)

/-- A date or a time, as the text it is written as. -/
def moment? (word : List Char) (ts : List Token) : Option (Value × List Token) := do
  let (text, ts) ← momentText? word ts
  return (.text (← Moment.read? text).toText, ts)

/-- Two characters that stand one behind the other. -/
def hasPair (a b : Char) (cs : List Char) : Bool :=
  (cs.zip cs.tail).any fun p => p.1 == a && p.2 == b

def startsDate (word : List Char) : Bool :=
  word.contains 'T' || word.contains 't' ||
    (word.tail.contains '-' && !hasPair 'e' '-' word && !hasPair 'E' '-' word)

/-! ## Values -/

/-- A flag, a number or a date that starts with a word. -/
def wordValue? (word : List Char) (ts : List Token) : Option (Value × List Token) :=
  if word == "true".toList then some (.bool true, ts)
  else if word == "false".toList then some (.bool false, ts)
  else if word == "inf".toList || word == "nan".toList ||
      word.head?.any fun c => c == '-' || c.isDigit then
    if startsDate word || ts.head? == some .colon then moment? word ts else number? word ts
  else none

def skipBlank : List Token → List Token
  | .blank _ :: ts => ts
  | ts => ts

/-- Neither a value nor part of one. -/
def isVoid : Token → Bool
  | .blank _ => true
  | .newline => true
  | .comment => true
  | _ => false

def key? : List Token → Option (String × List Token)
  | .word w :: ts => some (String.ofList w, ts)
  | .text t false :: ts => some (t, ts)
  | _ => none

/-- A key of parts with dots between them, and blanks around the parts.  Every part
takes a token, so the number of tokens is fuel enough. -/
def keyPath? : Nat → List Token → Option (List String × List Token)
  | 0, _ => none
  | fuel + 1, ts => do
      let (k, ts) ← key? (skipBlank ts)
      match skipBlank ts with
      | .period :: ts =>
          let (ks, ts) ← keyPath? fuel ts
          return (k :: ks, ts)
      | ts => return ([k], ts)

mutual

def value? : Nat → List Token → Option (Value × List Token)
  | 0, _ => none
  | fuel + 1, ts =>
      match ts with
      | .text t _ :: ts => some (.text t, ts)
      | .word w :: ts => wordValue? w ts
      | .plus :: .word w :: ts => number? w ts
      | .openBracket :: ts => (items? fuel ts).map fun (vs, ts) => (.list vs, ts)
      | .openBrace :: ts =>
          match skipBlank ts with
          | .closeBrace :: ts => some (.table [], ts)
          | ts => do
              let (entries, ts) ← entries? fuel [] ts
              return (.table (← Entry.fields? [] entries), ts)
      | _ => none

/-- The items of a list up to its closing bracket. -/
def items? : Nat → List Token → Option (List Value × List Token)
  | 0, _ => none
  | fuel + 1, ts =>
      match ts.dropWhile isVoid with
      | .closeBracket :: ts => some ([], ts)
      | ts => do
          let (v, ts) ← value? fuel ts
          match ts.dropWhile isVoid with
          | .comma :: ts =>
              let (vs, ts) ← items? fuel ts
              return (v :: vs, ts)
          | .closeBracket :: ts => return ([v], ts)
          | _ => none

/-- The entries of a table in braces, at least one, up to its closing brace. -/
def entries? : Nat → List (String × Entry) → List Token →
    Option (List (String × Entry) × List Token)
  | 0, _, _ => none
  | fuel + 1, done, ts => do
      let (path, ts) ← keyPath? (ts.length + 1) ts
      match ts with
      | .equals :: ts =>
          let (v, ts) ← value? fuel (skipBlank ts)
          let done ← Entry.add? v path done
          match skipBlank ts with
          | .comma :: ts => entries? fuel done ts
          | .closeBrace :: ts => return (done, ts)
          | _ => none
      | _ => none

end

/-! ## Files -/

/-- Blanks, an optional comment and the end of the line. -/
def endOfLine? (ts : List Token) : Option (List Token) :=
  let ts := skipBlank ts
  let ts := if ts.head? == some .comment then ts.tail else ts
  match ts with
  | .newline :: ts => some ts
  | [] => some []
  | _ => none

def headerEnd? (item : Bool) : List Token → Option (List Token)
  | .closeBracket :: .closeBracket :: ts => if item then endOfLine? ts else none
  | .closeBracket :: ts => if item then none else endOfLine? ts
  | _ => none

/-- Reads on, a line a round; `done` holds, in reverse, the sections before the
current one. -/
def sections? : Nat → Section → List Section → List Token → Option (List Section)
  | 0, _, _, _ => none
  | fuel + 1, current, done, ts =>
      match ts.dropWhile isVoid with
      | [] => some (current :: done).reverse
      | .openBracket :: ts =>
          let item := ts.head? == some .openBracket
          let ts := if item then ts.tail else ts
          match keyPath? (ts.length + 1) ts with
          | some (header, ts) =>
              match headerEnd? item ts with
              | some ts => sections? fuel { header, item } (current :: done) ts
              | none => none
          | none => none
      | ts => do
          let (path, ts) ← keyPath? (ts.length + 1) ts
          match ts with
          | .equals :: ts =>
              let (v, ts) ← value? (ts.length + 1) (skipBlank ts)
              let entries ← Entry.add? v path current.entries
              sections? fuel { current with entries } done (← endOfLine? ts)
          | _ => none

def layer? (text : String) : Option Layer := do
  let ts ← tokens? text
  Section.layer? (← sections? (ts.length + 1) {} [] ts)

end Unmask.Toml
