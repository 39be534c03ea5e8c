/-
# `Unmask.Settings.Yaml.Scalar` — the texts of scalars

A scalar is written plainly, in quotes, or as a block of indented lines.  Plain
and quoted scalars may run over line ends: a single line end counts as a space,
and of several the first does not count.  A literal block keeps its line ends,
and a folded block treats them in the same way between lines that do not start
with a blank.
-/
import Unmask.Json
import Unmask.Settings.Yaml.Cursor

namespace Unmask.Yaml

/-! ## Blanks and line ends inside a scalar -/

/-- Blanks and line ends that count only if more text follows. -/
structure Gap where
  /-- Blanks of the current line, in reverse. -/
  blanks : List Char := []
  /-- A line has ended. -/
  broken : Bool := false
  /-- The first line end counts as a space. -/
  folds : Bool := false
  /-- Line ends behind the first. -/
  breaks : Nat := 0
deriving Repr, Inhabited

namespace Gap

/-- The text that a gap stands for, in reverse. -/
def text (g : Gap) : List Char :=
  if g.broken then
    if g.folds && g.breaks = 0 then [' '] else List.replicate g.breaks '\n'
  else g.blanks

/-- Reads a gap.  A tab may not indent a line as far as its text must stand. -/
def read? (indent : Int) : Nat → Gap → Cursor → Option (Gap × Cursor)
  | 0, _, _ => none
  | fuel + 1, g, c =>
      let ch := c.char
      if isSpace ch then
        if g.broken then
          if ch == '\t' && (c.column : Int) < indent then none else read? indent fuel g c.step
        else read? indent fuel { g with blanks := ch :: g.blanks } c.step
      else if isBreak ch then
        if g.broken then read? indent fuel { g with breaks := g.breaks + 1 } c.skipBreak
        else read? indent fuel { broken := true, folds := true } c.skipBreak
      else some (g, c)

end Gap

/-! ## Plain scalars -/

/-- A plain scalar ends before this character; `flow` says that it stands in
brackets. -/
def endsPlain (flow : Bool) (c : Cursor) : Bool :=
  if c.char == ':' then isGap (c.ahead 1) || (flow && isFlowMark (c.ahead 1))
  else flow && isFlowMark c.char

/-- The characters of a plain scalar up to a gap or its end; `done` is in reverse. -/
def plainWord (flow : Bool) : Nat → Gap → List Char → Cursor → Gap × List Char × Cursor
  | 0, g, done, c => (g, done, c)
  | fuel + 1, g, done, c =>
      if isGap c.char || endsPlain flow c then (g, done, c)
      else plainWord flow fuel {} (c.char :: (g.text ++ done)) c.step

/-- A plain scalar, and whether a line has ended behind it.  Its lines must stand
at `indent` or deeper. -/
def plain? (flow : Bool) (indent : Int) :
    Nat → Gap → List Char → Cursor → Option (List Char × Bool × Cursor)
  | 0, _, _, _ => none
  | fuel + 1, g, done, c =>
      if c.atDocumentMark || c.char == '#' then some (done.reverse, g.broken, c)
      else
        let (g, done, c) := plainWord flow (c.rest.length + 1) g done c
        if isSpace c.char || isBreak c.char then
          match Gap.read? indent (c.rest.length + 1) g c with
          | none => none
          | some (g, c) =>
              if !flow && (c.column : Int) < indent then some (done.reverse, g.broken, c)
              else plain? flow indent fuel g done c
        else some (done.reverse, g.broken, c)

/-! ## Quoted scalars -/

/-- What a backslash and a letter stand for in double quotes. -/
def shortEscape? : Char → Option Char
  | '0' => some '\x00'
  | 'a' => some '\x07'
  | 'b' => some '\x08'
  | 't' => some '\t'
  | '\t' => some '\t'
  | 'n' => some '\n'
  | 'v' => some '\x0b'
  | 'f' => some '\x0c'
  | 'r' => some '\r'
  | 'e' => some '\x1b'
  | ' ' => some ' '
  | '"' => some '"'
  | '\'' => some '\''
  | '\\' => some '\\'
  | 'N' => some '\u0085'
  | '_' => some '\u00a0'
  | 'L' => some '\u2028'
  | 'P' => some '\u2029'
  | _ => none

/-- How many hexadecimal digits follow a backslash and a letter. -/
def codeLength? : Char → Option Nat
  | 'x' => some 2
  | 'u' => some 4
  | 'U' => some 8
  | _ => none

def coded? (digits : List Char) : Option Char := do
  let values ← digits.mapM Json.hexValue?
  let n := values.foldl (fun n d => n * 16 + d) 0
  if n.isValidChar then some (Char.ofNat n) else none

/-- An escape behind its backslash: its character and how long it is. -/
def escape? (cs : List Char) : Option (Char × Nat) :=
  match cs with
  | [] => none
  | e :: cs =>
      match codeLength? e with
      | some n =>
          if cs.length < n then none
          else (coded? (cs.take n)).map fun ch => (ch, n + 1)
      | none => (shortEscape? e).map fun ch => (ch, 1)

/-- The characters of a quoted scalar up to a gap or its closing quote; `done` is in
reverse.  A backslash at the end of a line takes the line end away, and that is
told by the flag. -/
def quotedWord? (quote : Char) : Nat → List Char → Cursor → Option (Bool × List Char × Cursor)
  | 0, _, _ => none
  | fuel + 1, done, c =>
      let ch := c.char
      if isGap ch then some (false, done, c)
      else if ch == quote then
        if quote == '\'' && c.ahead 1 == '\'' then
          quotedWord? quote fuel ('\'' :: done) (c.advance 2)
        else some (false, done, c)
      else if ch == '\\' && quote == '"' then
        if isBreak (c.ahead 1) then some (true, done, c.step.skipBreak)
        else
          match escape? c.rest.tail with
          | some (e, n) => quotedWord? quote fuel (e :: done) (c.advance (n + 1))
          | none => none
      else quotedWord? quote fuel (ch :: done) c.step

/-- A quoted scalar behind its opening quote. -/
def quoted? (quote : Char) : Nat → List Char → Cursor → Option (List Char × Cursor)
  | 0, _, _ => none
  | fuel + 1, done, c =>
      if c.atDocumentMark || isEnd c.char then none
      else
        match quotedWord? quote (c.rest.length + 1) done c with
        | none => none
        | some (broken, done, c) =>
            if c.char == quote then some (done.reverse, c.step)
            else
              match Gap.read? 0 (c.rest.length + 1) { broken } c with
              | none => none
              | some (g, c) => quoted? quote fuel (g.text ++ done) c

/-! ## Block scalars -/

/-- What becomes of the line ends behind a block. -/
inductive Chomp where
  | strip
  | clip
  | keep
deriving Repr, DecidableEq, Inhabited

def chompOf? : Char → Option Chomp
  | '+' => some .keep
  | '-' => some .strip
  | _ => none

/-- The header of a block behind its mark: how the end is treated and how far the
block is indented, in either order; no indentation is told by zero. -/
def blockHeader? (cs : List Char) : Option (Chomp × Nat × Nat) :=
  let digit (c : Char) : Nat := if c.isDigit then c.toNat - '0'.toNat else 0
  match cs with
  | [] => some (.clip, 0, 0)
  | a :: cs =>
      let b := cs.headD '\x00'
      match chompOf? a with
      | some chomp =>
          if b == '0' then none
          else some (chomp, digit b, if b.isDigit then 2 else 1)
      | none =>
          if a == '0' then none
          else if a.isDigit then
            match chompOf? b with
            | some chomp => some (chomp, digit a, 2)
            | none => some (.clip, digit a, 1)
          else some (.clip, 0, 0)

/-- Skips empty lines and the indentation of the line behind them.  The result is the
widest indentation seen, the number of lines, and the place; `indent` is zero as long
as it is unknown.  A tab may not stand in the indentation. -/
def blockBreaks? (indent : Nat) : Nat → Nat → Nat → Cursor → Option (Nat × Nat × Cursor)
  | 0, _, _, _ => none
  | fuel + 1, widest, breaks, c =>
      let spaces := (c.run (· == ' ')).length
      let c := c.advance (if indent = 0 then spaces else min spaces (indent - c.column))
      let widest := max widest c.column
      if (indent = 0 || c.column < indent) && c.char == '\t' then none
      else if isBreak c.char then blockBreaks? indent fuel widest (breaks + 1) c.skipBreak
      else some (widest, breaks, c)

/-- The lines of a block: its text in reverse, whether a line end follows it, the
number of empty lines behind, and the place.  `folds` tells a folded block; `ended`
that a line has ended, `breaks` how many empty lines have come since, and `spaced`
that the line before started with a blank. -/
def blockLines? (folds : Bool) (indent : Nat) :
    Nat → List Char → Bool → Nat → Bool → Cursor → Option (List Char × Bool × Nat × Cursor)
  | 0, _, _, _, _, _ => none
  | fuel + 1, done, ended, breaks, spaced, c =>
      if c.column != indent || isEnd c.char then some (done, ended, breaks, c)
      else
        let starts := isSpace c.char
        let join : List Char :=
          if !ended then []
          else if folds && !spaced && !starts then if breaks = 0 then [' '] else []
          else ['\n']
        let line := c.run fun ch => !isLineEnd ch
        let done := line.reverse ++ (List.replicate breaks '\n' ++ (join ++ done))
        let c := c.advance line.length
        if isEnd c.char then some (done, false, 0, c)
        else
          match blockBreaks? indent (c.rest.length + 1) 0 0 c.skipBreak with
          | none => none
          | some (_, breaks, c) => blockLines? folds indent fuel done true breaks starts c

/-- A block scalar behind its mark; `parent` is the indentation of what it stands in. -/
def block? (folds : Bool) (parent : Int) (c : Cursor) : Option (List Char × Cursor) := do
  let (chomp, increment, length) ← blockHeader? c.rest
  let c := ((c.advance length).skip isSpace).skipComment
  if !isLineEnd c.char then none
  else
    let told := if increment = 0 then 0 else (max parent 0).toNat + increment
    let (widest, breaks, c) ← blockBreaks? told (c.rest.length + 1) 0 0 c.skipBreak
    let indent := if told = 0 then max (max widest (parent + 1).toNat) 1 else told
    let (done, ended, breaks, c) ←
      blockLines? folds indent (c.rest.length + 1) [] false breaks false c
    let last : List Char := if ended && chomp != .strip then ['\n'] else []
    let more : List Char := if chomp == .keep then List.replicate breaks '\n' else []
    return (done.reverse ++ last ++ more, c)

end Unmask.Yaml
