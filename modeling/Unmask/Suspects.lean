/-
# `Unmask.Suspects` — what a script has that deserves a better name

The names come in the order in which they are found: numbered names anywhere
in the text, then the names at the four kinds of place of `Unmask.Site`, kind
after kind.  The numbers come in the order of the text.  Each is listed once.
-/
import Std.Data.TreeSet
import Unmask.Literal
import Unmask.Name.Lexicon
import Unmask.Site
import Unmask.Token

namespace Unmask

/-- Keeps the first of equal entries, leaving out those already in `seen`. -/
def firstOccurrences (seen : Std.TreeSet String) : List String → List String
  | [] => []
  | x :: xs =>
      if seen.contains x then firstOccurrences seen xs
      else x :: firstOccurrences (seen.insert x) xs

def distinct (xs : List String) : List String := firstOccurrences ∅ xs

/-- The names and the numeric literals to replace. -/
structure Suspects where
  names : List String := []
  numbers : List String := []
deriving Repr, DecidableEq, Inhabited

namespace Suspects

def numberedNames (source : String) : List String :=
  (tokenTexts .name source).filter fun t => Name.isNumbered t.toList

/-- The scrambled names at the places where the script introduces names. -/
def introducedNames (source : String) : List String :=
  let text := source.toList
  let found := Site.declaredNames text ++ Site.functionNames text ++
    Site.assignedNames text ++ Site.propertyNames text
  (found.filter Name.looksScrambled).map String.ofList

/-- The suspects of a script, those under protection left out. -/
def ofSource (protection : Protection) (source : String) : Suspects where
  names := distinct ((numberedNames source ++ introducedNames source).filter protection.allows)
  numbers := distinct ((tokenTexts .number source).filter fun t =>
    Literal.looksScrambled t.toList)

end Suspects

end Unmask
