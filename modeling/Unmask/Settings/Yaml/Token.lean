/-
# `Unmask.Settings.Yaml.Token` — the tokens of YAML

Tokens are marks, scalars, and the beginnings and ends of block lists and block
mappings, which no character marks: they follow from columns.  A block begins
where its first entry stands deeper than the block around it, and ends before
the first token that stands less deep.

Whether a token begins a key is seen only at the colon behind it.  Until then
its place is kept as a candidate, one for each pair of brackets that is open; a
candidate lapses at the end of its line or after 1024 characters.
-/
import Unmask.Settings.Yaml.Scalar

namespace Unmask.Yaml

/-- A tag: its handle and what stands behind it. -/
structure Tag where
  handle : String
  suffix : String
deriving Repr, DecidableEq, Inhabited

inductive Token where
  | directive
  | documentStart
  | documentEnd
  | blockList
  | blockMapping
  | blockEnd
  | flowList
  | flowListEnd
  | flowMapping
  | flowMappingEnd
  | comma
  | item
  | key
  | value
  | anchor (name : String)
  | alias (name : String)
  | tag (t : Tag)
  | scalar (plain : Bool) (text : List Char)
deriving Repr, DecidableEq, Inhabited

/-! ## Anchors, tags and directives -/

/-- May stand behind the name of an anchor, blanks and line ends apart. -/
def endsAnchor (c : Char) : Bool := isGap c || "?:,]\x7d%@\x60".contains c

def anchorName? (c : Cursor) : Option (String × Cursor) :=
  let name := c.run isNameChar
  let c := c.advance name.length
  if name.isEmpty || !endsAnchor c.char then none else some (String.ofList name, c)

def isTagChar (c : Char) : Bool := isNameChar c || ";/?:@&=+$,.!~*'()[]%".contains c

/-- How many escaped octets make the character that starts with an octet. -/
def octets? (first : Nat) : Option Nat :=
  if first < 0x80 then some 1
  else if 0xC0 ≤ first && first < 0xE0 then some 2
  else if 0xE0 ≤ first && first < 0xF0 then some 3
  else if 0xF0 ≤ first && first < 0xF8 then some 4
  else none

/-- Some more octets of an escaped character, each a percent sign and two digits. -/
def octetsBehind? : Nat → Nat → List Char → Option Nat
  | 0, code, _ => some code
  | n + 1, code, '%' :: a :: b :: cs => do
      let octet := (← Json.hexValue? a) * 16 + (← Json.hexValue? b)
      if 0x80 ≤ octet && octet < 0xC0 then octetsBehind? n (code * 256 + octet) cs else none
  | _, _, _ => none

/-- An escaped character in a tag, and how long it is.  Its octets together are the
code. -/
def tagEscape? : List Char → Option (Char × Nat)
  | '%' :: a :: b :: cs => do
      let first := (← Json.hexValue? a) * 16 + (← Json.hexValue? b)
      let n ← octets? first
      let code ← octetsBehind? (n - 1) first cs
      if code.isValidChar then some (Char.ofNat code, 3 * n) else none
  | _ => none

/-- The characters of a tag; `done` is in reverse. -/
def tagChars? : Nat → List Char → Cursor → Option (List Char × Cursor)
  | 0, _, _ => none
  | fuel + 1, done, c =>
      if c.char == '%' then
        match tagEscape? c.rest with
        | some (ch, n) => tagChars? fuel (ch :: done) (c.advance n)
        | none => none
      else if isTagChar c.char then tagChars? fuel (c.char :: done) c.step
      else some (done.reverse, c)

/-- The handle of a tag: an exclamation mark, a name, and another if it is there. -/
def tagHandle? (c : Cursor) : Option (List Char × Cursor) :=
  if c.char != '!' then none
  else
    let name := c.step.run isNameChar
    let c := c.advance (name.length + 1)
    if c.char == '!' then some ('!' :: name ++ ['!'], c.step) else some ('!' :: name, c)

/-- A tag in any of its forms; a blank or a line end must follow. -/
def tag? (c : Cursor) : Option (Tag × Cursor) := do
  let fuel := c.rest.length + 1
  let (tag, c) ←
    if c.ahead 1 == '<' then do
      let (uri, c) ← tagChars? fuel [] (c.advance 2)
      if uri.isEmpty || c.char != '>' then none
      else some (Tag.mk "" (String.ofList uri), c.step)
    else do
      let (handle, c) ← tagHandle? c
      let (chars, c) ← tagChars? fuel [] c
      if 2 ≤ handle.length && handle.getLast? == some '!' then
        if chars.isEmpty then none
        else some (Tag.mk (String.ofList handle) (String.ofList chars), c)
      else
        let suffix := handle.tail ++ chars
        some (if suffix.isEmpty then Tag.mk "" "!" else Tag.mk "!" (String.ofList suffix), c)
  if isGap c.char then some (tag, c) else none

/-- A part of a version: one to nine digits. -/
def versionPart? (c : Cursor) : Option Cursor :=
  let n := (c.run Char.isDigit).length
  if n = 0 || 9 < n then none else some (c.advance n)

def parameters? (name : List Char) (c : Cursor) : Option Cursor :=
  if name == "YAML".toList then do
    let c ← versionPart? (c.skip isSpace)
    if c.char == '.' then versionPart? c.step else none
  else if name == "TAG".toList then do
    let (handle, c) ← tagHandle? (c.skip isSpace)
    if 1 < handle.length && handle.getLast? != some '!' then none
    else
      let (uri, c) ← tagChars? (c.rest.length + 1) [] (c.skip isSpace)
      if uri.isEmpty || !isGap c.char then none else some c
  else some (c.skip fun ch => !isLineEnd ch)

/-- A directive behind its percent sign, with its line end. -/
def directive? (c : Cursor) : Option Cursor :=
  let name := c.run isNameChar
  let c := c.advance name.length
  if name.isEmpty || !isGap c.char then none
  else do
    let c ← parameters? name c
    let c := (c.skip isSpace).skipComment
    if isLineEnd c.char then some c.skipBreak else none

/-! ## Scanning -/

/-- A token that may turn out to begin a key: its number and its place.  A key that
is required and does not come is an error. -/
structure Candidate where
  possible : Bool := false
  required : Bool := false
  number : Nat := 0
  index : Nat := 0
  line : Nat := 0
  column : Nat := 0
deriving Repr, Inhabited

/-- How many characters a candidate lasts. -/
def maxKeyLength : Nat := 1024

/-- How many brackets may be open at once. -/
def maxDepth : Nat := 255

/-- What has been scanned.  The candidates stand innermost first, one for every open
bracket and one besides. -/
structure Scan where
  cursor : Cursor
  tokens : Array Token := #[]
  keyAllowed : Bool := true
  candidates : List Candidate := [{}]
  indent : Int := -1
  indents : List Int := []
  depth : Nat := 0
  /-- Where a colon may follow a quoted scalar in brackets without a blank. -/
  colonAt : Nat := 0
deriving Inhabited

namespace Scan

def inFlow (s : Scan) : Bool := 0 < s.depth

def push (s : Scan) (t : Token) : Scan := { s with tokens := s.tokens.push t }

/-- Puts a token before the one with a number. -/
def insert (s : Scan) (number : Nat) (t : Token) : Scan :=
  { s with tokens :=
      (s.tokens.extract 0 number).push t ++ s.tokens.extract number s.tokens.size }

/-- Lets candidates lapse; a required one must not. -/
def lapse? (s : Scan) : Option Scan :=
  let lapses (k : Candidate) : Bool :=
    k.possible && (k.line < s.cursor.line || k.index + maxKeyLength < s.cursor.index)
  if s.candidates.any fun k => lapses k && k.required then none
  else
    some { s with candidates :=
      s.candidates.map fun k => if lapses k then { k with possible := false } else k }

/-- Gives the innermost candidate up; a required one must not be. -/
def dropCandidate? (s : Scan) : Option Scan :=
  match s.candidates with
  | k :: ks =>
      if k.possible && k.required then none
      else some { s with candidates := { k with possible := false } :: ks }
  | [] => some s

/-- Makes the token to come a candidate, if a key may stand here. -/
def saveCandidate? (s : Scan) : Option Scan :=
  if !s.keyAllowed then some s
  else do
    let s ← s.dropCandidate?
    let c := s.cursor
    let k : Candidate :=
      { possible := true
        required := s.inFlow && s.indent == c.column
        number := s.tokens.size
        index := c.index
        line := c.line
        column := c.column }
    return { s with candidates := k :: s.candidates.tail }

/-- Begins a block at a column, if that is deeper; the token that tells it stands at
the end or before the token with a number. -/
def openBlock (s : Scan) (column : Nat) (number : Option Nat) (t : Token) : Scan :=
  if s.inFlow || (column : Int) ≤ s.indent then s
  else
    let s := { s with indents := s.indent :: s.indents, indent := column }
    match number with
    | some n => s.insert n t
    | none => s.push t

/-- Ends blocks that stand deeper than a column, given the blocks around them. -/
def closeFrom (column : Int) : List Int → Scan → Scan
  | [], s => s
  | outer :: indents, s =>
      if s.indent ≤ column then s
      else closeFrom column indents { s.push .blockEnd with indent := outer, indents }

def closeBlocks (s : Scan) (column : Int) : Scan :=
  if s.inFlow then s else closeFrom column s.indents s

/-- Adds a token of some characters and says whether a key may follow. -/
def mark (s : Scan) (t : Token) (length : Nat) (keyAllowed : Bool) : Scan :=
  { s.push t with cursor := s.cursor.advance length, keyAllowed }

/-- Skips blanks, comments and line ends.  A tab does not stand where a key may. -/
def skipVoid : Nat → Scan → Scan
  | 0, s => s
  | fuel + 1, s =>
      let c := s.cursor
      if c.char == ' ' || (c.char == '\t' && (s.inFlow || !s.keyAllowed)) then
        skipVoid fuel { s with cursor := c.step }
      else if isBreak c.char then
        skipVoid fuel { s with cursor := c.skipBreak, keyAllowed := s.keyAllowed || !s.inFlow }
      else if c.char == '#' then skipVoid fuel { s with cursor := c.skipComment }
      else s

/-- A mark between documents, or the end of the text: all blocks end. -/
def betweenDocuments? (s : Scan) : Option Scan := do
  let s ← (s.closeBlocks (-1)).dropCandidate?
  return { s with keyAllowed := false }

def openFlow? (s : Scan) (t : Token) : Option Scan := do
  let s ← s.saveCandidate?
  if s.depth = maxDepth then none
  else
    let s := s.mark t 1 true
    return { s with candidates := {} :: s.candidates, depth := s.depth + 1 }

def closeFlow? (s : Scan) (t : Token) : Option Scan := do
  let s ← s.dropCandidate?
  let s := s.mark t 1 false
  if s.inFlow then return { s with candidates := s.candidates.tail, depth := s.depth - 1 }
  else return s

/-- The dash before an item. -/
def item? (s : Scan) : Option Scan :=
  if s.inFlow || !s.keyAllowed then none
  else do
    let s ← (s.openBlock s.cursor.column none .blockList).dropCandidate?
    return s.mark .item 1 true

/-- The question mark before a key. -/
def key? (s : Scan) : Option Scan :=
  if !s.inFlow && !s.keyAllowed then none
  else do
    let s ← (s.openBlock s.cursor.column none .blockMapping).dropCandidate?
    return s.mark .key 1 (!s.inFlow)

/-- The colon before a value.  It makes the candidate a key, if there is one. -/
def value? (s : Scan) : Option Scan :=
  match s.candidates with
  | k :: ks =>
      if k.possible then
        let s := (s.insert k.number .key).openBlock k.column (some k.number) .blockMapping
        let s := { s with candidates := { k with possible := false } :: ks }
        some (s.mark .value 1 false)
      else if !s.inFlow && !s.keyAllowed then none
      else
        let s := s.openBlock s.cursor.column none .blockMapping
        some (s.mark .value 1 (!s.inFlow))
  | [] => none

/-- A token that may begin a key, read from the place it stands at. -/
def content? (s : Scan) (read? : Cursor → Option (Token × Cursor)) (keyAllowed : Bool) :
    Option Scan := do
  let s ← s.saveCandidate?
  let (t, cursor) ← read? s.cursor
  return { s.push t with cursor, keyAllowed }

def quoted? (s : Scan) (quote : Char) : Option Scan := do
  let read? (c : Cursor) : Option (Token × Cursor) :=
    (Yaml.quoted? quote (c.rest.length + 1) [] c.step).map fun (t, c) => (.scalar false t, c)
  let s ← s.content? read? false
  return { s with colonAt := s.cursor.index }

/-- A plain scalar.  A key may follow it on a line of its own. -/
def plain? (s : Scan) : Option Scan := do
  let s ← s.saveCandidate?
  let c := s.cursor
  let (text, broken, cursor) ← Yaml.plain? s.inFlow (s.indent + 1) (c.rest.length + 1) {} [] c
  return { s.push (.scalar true text) with cursor, keyAllowed := broken }

def block? (s : Scan) (folds : Bool) : Option Scan :=
  let read? (c : Cursor) : Option (Token × Cursor) :=
    (Yaml.block? folds s.indent c.step).map fun (t, c) => (.scalar false t, c)
  s.content? read? true

/-- The token at a place that is neither blank nor the end. -/
def token? (s : Scan) : Option Scan :=
  let c := s.cursor
  let ch := c.char
  let next := c.ahead 1
  if c.column == 0 && ch == '%' then do
    let s ← s.betweenDocuments?
    return { s.push .directive with cursor := ← directive? c.step }
  else if c.atMark '-' then do return (← s.betweenDocuments?).mark .documentStart 3 false
  else if c.atMark '.' then do return (← s.betweenDocuments?).mark .documentEnd 3 false
  else
    match ch with
    | '[' => s.openFlow? .flowList
    | '\x7b' => s.openFlow? .flowMapping
    | ']' => s.closeFlow? .flowListEnd
    | '\x7d' => s.closeFlow? .flowMappingEnd
    | ',' => do return (← s.dropCandidate?).mark .comma 1 true
    | '-' => if isGap next then s.item? else s.plain?
    | '?' => if isGap next then s.key? else s.plain?
    | ':' =>
        if isGap next || (s.inFlow && (isFlowMark next || c.index == s.colonAt)) then s.value?
        else s.plain?
    | '*' =>
        let read? (c : Cursor) : Option (Token × Cursor) :=
          (anchorName? c.step).map fun (name, c) => (.alias name, c)
        s.content? read? false
    | '&' =>
        let read? (c : Cursor) : Option (Token × Cursor) :=
          (anchorName? c.step).map fun (name, c) => (.anchor name, c)
        s.content? read? false
    | '!' =>
        let read? (c : Cursor) : Option (Token × Cursor) :=
          (tag? c).map fun (t, c) => (.tag t, c)
        s.content? read? false
    | '|' => if s.inFlow then s.plain? else s.block? false
    | '>' => if s.inFlow then s.plain? else s.block? true
    | '\'' => s.quoted? '\''
    | '"' => s.quoted? '"'
    | '%' => none
    | '@' => none
    | '\x60' => none
    | _ => s.plain?

/-- Scans on, a token a round.  Each takes a character, so the length of the text is
fuel enough. -/
def all? : Nat → Scan → Option Scan
  | 0, _ => none
  | fuel + 1, s => do
      let s ← (s.skipVoid (s.cursor.rest.length + 1)).lapse?
      let s := s.closeBlocks s.cursor.column
      if isEnd s.cursor.char then s.betweenDocuments?
      else all? fuel (← s.token?)

end Scan

def tokens? (text : String) : Option (List Token) :=
  let cursor := Cursor.start text
  (Scan.all? (cursor.rest.length + 1) { cursor }).map fun s => s.tokens.toList

end Unmask.Yaml
