/-
# `Unmask.Renaming` — the two mappings and their use

A renaming is built up step by step: names may be reserved, names may be
given words, numbers may be given letters or the characters they encode.  An
entry, once made, stays.  Applying a renaming replaces whole tokens, names
first and numbers in the text that results; what is put in is not looked at
again by the pass that put it there.
-/
import Std.Data.TreeMap
import Unmask.NameSupply
import Unmask.Suspects

namespace Unmask

/-- Old spellings and what replaces them, sorted by the old spelling. -/
abbrev Mapping := Std.TreeMap String String

inductive NumberStyle where
  | letters
  | characters
deriving Repr, DecidableEq, Inhabited

/-- A character as a literal in single quotes. -/
def quotedChar (c : Char) : String :=
  if c == '\'' || c == '\\' then String.ofList ['\'', '\\', c, '\'']
  else String.ofList ['\'', c, '\'']

/-- What a literal encodes: a printable character, or its own value in decimal. -/
def decodedNumber (literal : String) : String :=
  let v := (Literal.value? literal.toList).getD 0
  if 32 ≤ v && v ≤ 126 then quotedChar (Char.ofNat v.toNat) else toString v

/-- A piece after replacement of the tokens of one kind. -/
def Piece.replaced (kind : TokenKind) (m : Mapping) : Piece → List Char
  | .gap t => t
  | .token k t =>
      if k = kind then
        match m[String.ofList t]? with
        | some new => new.toList
        | none => t
      else t

/-- A text with the tokens of one kind replaced as the mapping says. -/
def replaceTokens (kind : TokenKind) (m : Mapping) (text : String) : String :=
  String.ofList ((pieces text.toList).flatMap (Piece.replaced kind m))

structure Renaming where
  supply : NameSupply := {}
  names : Mapping := ∅
  numbers : Mapping := ∅
deriving Inhabited

namespace Renaming

/-- Keeps every name of a script from being handed out. -/
def reserveNames (r : Renaming) (source : String) : Renaming :=
  { r with supply := r.supply.reserve (nameSet source).toList }

/-- Gives one name a word, unless it has one or may not be renamed. -/
def addName (protection : Protection) (callable : Std.TreeSet String)
    (r : Renaming) (name : String) : Renaming :=
  if r.names.contains name || !protection.allows name then r
  else
    let (word, supply) := r.supply.nextWord (if callable.contains name then .function else .value)
    { r with supply, names := r.names.insert name word }

/-- Gives names their words; what the script calls gets a function's word. -/
def addNames (r : Renaming) (source : String) (names : List String)
    (protection : Protection) : Renaming :=
  names.foldl (addName protection (callableNames source)) r

/-- Gives one literal its replacement, unless it has one. -/
def addNumber (style : NumberStyle) (r : Renaming) (literal : String) : Renaming :=
  if r.numbers.contains literal then r
  else
    match style with
    | .letters =>
        let (name, supply) := r.supply.nextLetters
        { r with supply, numbers := r.numbers.insert literal name }
    | .characters => { r with numbers := r.numbers.insert literal (decodedNumber literal) }

def addNumbers (r : Renaming) (literals : List String) (style : NumberStyle) : Renaming :=
  literals.foldl (addNumber style) r

/-- Replaces the names of a text, then the numbers of the text that results. -/
def apply (r : Renaming) (text : String) : String :=
  replaceTokens .number r.numbers (replaceTokens .name r.names text)

end Renaming

end Unmask
