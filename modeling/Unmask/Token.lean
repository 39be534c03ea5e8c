/-
# `Unmask.Token` — names and numbers in a text

A text is cut into its maximal runs of name characters and the stretches
between them (`blocks`).  A run that does not start with a digit is a name; a
run of decimal digits, or `0x` and hexadecimal digits, is a number; any other
run, such as `1e5`, is no token.  A hexadecimal number takes the sign in front
of it along when that sign is in unary position: at the start of the text, or
after a character that can end no operand.

`pieces` is the text with its tokens marked, and nothing is lost in it: the
texts of the pieces, in order, are the text.  `tokens` adds byte offsets.
-/
import Std.Data.TreeSet
import Unmask.Literal
import Unmask.Text.Blank

namespace Unmask

inductive TokenKind where
  | name
  | number
deriving Repr, DecidableEq, Inhabited

/-- A stretch of text, marked when it is a token. -/
inductive Piece where
  | gap (text : List Char)
  | token (kind : TokenKind) (text : List Char)
deriving Repr, DecidableEq, Inhabited

def Piece.text : Piece → List Char
  | .gap t => t
  | .token _ t => t

/-- Maximal runs of name characters and the stretches between them, in order. -/
def blocks (text : List Char) : List (List Char) :=
  text.splitBy fun a b => Name.isPart a == Name.isPart b

/-- What a block is on its own. -/
def Piece.ofBlock (b : List Char) : Piece :=
  match b with
  | [] => .gap []
  | c :: _ =>
      if !Name.isPart c then .gap b
      else if !c.isDigit then .token .name b
      else if Literal.isHexRun b || Literal.isDecimalRun b then .token .number b
      else .gap b

def isSign (c : Char) : Bool := c == '+' || c == '-'

/-- The sign at the end of a stretch between two runs, if it is there and
unary.  A stretch that is nothing but the sign follows a run, unless it
stands at the start of the text. -/
def unarySign? (atStart : Bool) (gap : List Char) : Option Char :=
  match gap.reverse with
  | s :: before :: _ => if isSign s && before != ')' && before != ']' then some s else none
  | [s] => if isSign s && atStart then some s else none
  | [] => none

/-- A stretch between two tokens as a piece; an empty one leaves none. -/
def Piece.ofGap : List Char → List Piece
  | [] => []
  | c :: cs => [.gap (c :: cs)]

/-- Marks the tokens among the blocks; hexadecimal runs take their unary sign. -/
def markTokens (atStart : Bool) : List (List Char) → List Piece
  | [] => []
  | [b] => [Piece.ofBlock b]
  | b :: run :: rest =>
      match if Literal.isHexRun run then unarySign? atStart b else none with
      | some s => Piece.ofGap b.dropLast ++ .token .number (s :: run) :: markTokens false rest
      | none => Piece.ofBlock b :: markTokens false (run :: rest)

/-- A text with its tokens marked. -/
def pieces (text : List Char) : List Piece := markTokens true (blocks text)

/-- A token and where it stands: `start` and `stop` count bytes of UTF-8. -/
structure Token where
  kind : TokenKind
  text : String
  start : Nat
  stop : Nat
deriving Repr, DecidableEq, Inhabited

def byteLength (text : List Char) : Nat := text.foldr (fun c n => c.utf8Size + n) 0

/-- The tokens among the pieces of a text whose first piece stands at `start`. -/
def locate (start : Nat) : List Piece → List Token
  | [] => []
  | .gap t :: ps => locate (start + byteLength t) ps
  | .token k t :: ps =>
      let stop := start + byteLength t
      ⟨k, String.ofList t, start, stop⟩ :: locate stop ps

def tokens (source : String) : List Token := locate 0 (pieces source.toList)

def Piece.tokenText? (kind : TokenKind) : Piece → Option String
  | .token k t => if k = kind then some (String.ofList t) else none
  | .gap _ => none

/-- The texts of the tokens of one kind, in order. -/
def tokenTexts (kind : TokenKind) (source : String) : List String :=
  (pieces source.toList).filterMap (Piece.tokenText? kind)

def nameSet (source : String) : Std.TreeSet String :=
  Std.TreeSet.ofList (tokenTexts .name source)

/-- A stretch whose first character that is no plain blank is an opening parenthesis. -/
def opensCall (gap : List Char) : Bool :=
  (gap.dropWhile isPlainBlank).head? == some '('

/-- Names followed by an opening parenthesis. -/
def calledNames : List Piece → List String
  | .token .name t :: .gap g :: ps =>
      if opensCall g then String.ofList t :: calledNames (.gap g :: ps)
      else calledNames (.gap g :: ps)
  | _ :: ps => calledNames ps
  | [] => []

/-- Names that plain blanks alone separate from the keyword `function` before them. -/
def functionKeywordNames : List Piece → List String
  | .token .name kw :: .gap g :: .token .name t :: ps =>
      let rest := functionKeywordNames (.gap g :: .token .name t :: ps)
      if kw == "function".toList && g.all isPlainBlank then String.ofList t :: rest else rest
  | _ :: ps => functionKeywordNames ps
  | [] => []

/-- The names that a text uses as functions. -/
def callableNames (source : String) : Std.TreeSet String :=
  let ps := pieces source.toList
  Std.TreeSet.ofList (calledNames ps ++ functionKeywordNames ps)

end Unmask
