/-
# `Unmask.Service.MediaType` — the media type of a request

A media type is a type and a subtype, both tokens, and parameters behind
semicolons.  A request for work has to name JSON: its subtype is `json` or
ends in `+json`.  The type is not looked at, and the parameters have to be
well formed, no more.
-/
import Unmask.Settings

namespace Unmask.MediaType

def isTokenChar (c : Char) : Bool :=
  c.isAlphanum || "!#$%&'*+-.^_\x60|~".toList.contains c

def isToken (s : String) : Bool := !s.isEmpty && s.toList.all isTokenChar

/-- May stand between quotes in a parameter, as the first character there. -/
def isQuotable (c : Char) : Bool := ' ' ≤ c && c ≤ '~'

/-- What follows a value in quotes, behind its opening quote.  The value is not
empty and goes on to the next quote. -/
def afterQuoted? : List Char → Option (List Char)
  | [] => none
  | c :: cs =>
      let ends (d : Char) : Bool := d == '"' || !isQuotable d
      match isQuotable c, cs.dropWhile fun d => !ends d with
      | true, '"' :: rest => some rest
      | _, _ => none

/-- Whether parameters are well formed: each a name, an equals sign and a value,
which is a token or stands in quotes, with semicolons between them.  Blanks may
stand before a name and behind a quoted value. -/
def hasParameters : Nat → List Char → Bool
  | 0, _ => false
  | fuel + 1, cs =>
      let cs := cs.dropWhile (· == ' ')
      if cs.isEmpty then true
      else
        let name := cs.takeWhile isTokenChar
        match cs.dropWhile isTokenChar with
        | '=' :: '"' :: rest =>
            !name.isEmpty &&
              match (afterQuoted? rest).map (List.dropWhile (· == ' ')) with
              | some [] => true
              | some (';' :: more) => hasParameters fuel more
              | _ => false
        | '=' :: rest =>
            let value := rest.takeWhile isTokenChar
            !name.isEmpty &&
              match rest.dropWhile isTokenChar with
              | [] => true
              | ';' :: more => !value.isEmpty && hasParameters fuel more
              | _ => false
        | _ => false

/-- A subtype cut at its last plus, unless that is its first character. -/
def splitSuffix (subtype : List Char) : List Char × Option (List Char) :=
  let suffix := (subtype.reverse.takeWhile (· != '+')).reverse
  let front := subtype.take (subtype.length - suffix.length - 1)
  if front.isEmpty || suffix.length = subtype.length then (subtype, none) else (front, some suffix)

/-- A subtype, or the suffix of one, that stands for JSON. -/
def isJsonWord (cs : List Char) : Bool := lowerAscii (String.ofList cs) == "json"

/-- A well-formed media type that names JSON. -/
def namesJson (s : String) : Bool :=
  let cs := s.toList
  let type := cs.takeWhile isTokenChar
  match cs.dropWhile isTokenChar with
  | '/' :: rest =>
      let subtype := rest.takeWhile isTokenChar
      let parameters := match rest.dropWhile isTokenChar with
        | [] => true
        | ';' :: more => !subtype.isEmpty && hasParameters (more.length + 1) more
        | _ => false
      let (front, suffix) := splitSuffix subtype
      !type.isEmpty && parameters && (isJsonWord front || suffix.any isJsonWord)
  | _ => false

end Unmask.MediaType
