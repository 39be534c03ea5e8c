/-
# `Unmask.NameSupply` — where new names come from

Three streams run side by side.  Values and functions are named after two
lists of words; the second round through a list appends `2` to each word, the
third `3`, and so on.  Numbers are named with letters: `a` to `z`, then `aa`,
`ab`, …, which is bijective base 26.

A stream passes over keywords and over names that are taken.  For words, taken
means issued before or reserved by the caller; for letters it means reserved
by the caller only, so a word never takes a letter's place.  The search for
the next free name is bounded by the number of taken names: the names of a
stream are distinct, so among one more than can be taken one is free.
-/
import Std.Data.TreeSet
import Unmask.Name.Lexicon

namespace Unmask

/-- Words for things that hold a value. -/
def valueWords : List String :=
  ["element", "container", "wrapper", "content", "data", "result", "value", "item",
   "config", "options", "settings", "params", "args", "response", "request",
   "target", "source", "destination", "handler", "callback", "listener",
   "counter", "index", "length", "size", "count", "total", "sum",
   "message", "text", "string", "buffer", "cache", "storage", "memory",
   "timer", "interval", "timeout", "delay", "duration", "timestamp",
   "url", "path", "route", "endpoint", "api", "service", "client",
   "user", "session", "token", "key", "id", "name", "title", "description"]

/-- Words for things that are called. -/
def functionWords : List String :=
  ["initialize", "setup", "configure", "process", "execute", "run", "start",
   "stop", "pause", "resume", "update", "refresh", "reload", "reset",
   "create", "build", "generate", "construct", "make", "produce",
   "parse", "format", "convert", "transform", "encode", "decode",
   "validate", "verify", "check", "test", "confirm", "ensure",
   "get", "set", "add", "remove", "delete", "insert", "append",
   "find", "search", "filter", "sort", "map", "reduce", "forEach",
   "handle", "manage", "control", "monitor", "track", "observe",
   "send", "receive", "fetch", "load", "save", "store", "retrieve",
   "show", "hide", "display", "render", "draw", "paint", "animate"]

/-- What a name is used as; it picks the list of words. -/
inductive Role where
  | value
  | function
deriving Repr, DecidableEq, Inhabited

namespace Role

def label : Role → String
  | .value => "variable"
  | .function => "function"

def words : Role → List String
  | .value => valueWords
  | .function => functionWords

/-- The name at position `n` of a role's stream. -/
def nameAt (role : Role) (n : Nat) : String :=
  let count := role.words.length
  let word := role.words.getD (n % count) ""
  let round := n / count
  if round = 0 then word else word ++ Nat.repr (round + 1)

end Role

/-- Bijective base 26 with the letters `a` to `z` as digits. -/
def letters (n : Nat) : List Char :=
  let last := Char.ofNat ('a'.toNat + n % 26)
  if n < 26 then [last] else letters (n / 26 - 1) ++ [last]
termination_by n
decreasing_by omega

/-- The first number from `n` on that is free, if one of the next `fuel` is. -/
def firstFree (free : Nat → Bool) : Nat → Nat → Nat
  | 0, n => n
  | fuel + 1, n => if free n then n else firstFree free fuel (n + 1)

/-- How far each stream has come, and which names are taken. -/
structure NameSupply where
  values : Nat := 0
  functions : Nat := 0
  numbers : Nat := 0
  issued : Std.TreeSet String := ∅
  occupied : Std.TreeSet String := ∅
deriving Inhabited

namespace NameSupply

/-- Marks names as taken in every stream. -/
def reserve (s : NameSupply) (names : List String) : NameSupply :=
  { s with issued := s.issued.insertMany names, occupied := s.occupied.insertMany names }

/-- How far the stream of a role has come. -/
def counter (s : NameSupply) : Role → Nat
  | .value => s.values
  | .function => s.functions

def advance (s : NameSupply) (role : Role) (n : Nat) : NameSupply :=
  match role with
  | .value => { s with values := n }
  | .function => { s with functions := n }

/-- Neither issued nor a keyword. -/
def wordFree (s : NameSupply) (name : String) : Bool :=
  !s.issued.contains name && !isReserved name

/-- Neither reserved by the caller nor a keyword. -/
def lettersFree (s : NameSupply) (name : String) : Bool :=
  !s.occupied.contains name && !isReserved name

/-- The next free word of a role, and the supply without it. -/
def nextWord (s : NameSupply) (role : Role) : String × NameSupply :=
  let n := firstFree (fun n => s.wordFree (role.nameAt n))
    (s.issued.size + reservedWords.length) (s.counter role)
  let name := role.nameAt n
  (name, { s.advance role (n + 1) with issued := s.issued.insert name })

/-- The next free name made of letters, and the supply without it. -/
def nextLetters (s : NameSupply) : String × NameSupply :=
  let n := firstFree (fun n => s.lettersFree (String.ofList (letters n)))
    (s.occupied.size + reservedWords.length) s.numbers
  (String.ofList (letters n), { s with numbers := n + 1 })

end NameSupply

end Unmask
