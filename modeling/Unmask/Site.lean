/-
# `Unmask.Site` — the places where a script introduces a name

Four kinds of place are searched for in the raw text: after `var`, `let` or
`const`; after `function`; on the left of `= function`; and after a dot.  The
keywords must start at a word boundary, and the `function` of an assignment
must end at one; blanks are Unicode's.  Since matches do not overlap, a
keyword that was taken for a name introduces nothing itself: in `var let x`
the name is `let`.
-/
import Unmask.Name
import Unmask.Text.Blank
import Unmask.Text.Scan
import Unmask.Text.WordChar

namespace Unmask.Site

/-- The name at the start of a text, if there is one; it is as long as possible. -/
def leadingName? : List Char → Option (List Char)
  | c :: cs => if Name.isStart c then some (c :: cs.takeWhile Name.isPart) else none
  | [] => none

/-- No word character stands before. -/
def startsWord : Option Char → Bool
  | some c => !isWordChar c
  | none => true

/-- No word character follows. -/
def endsWord : List Char → Bool
  | c :: _ => !isWordChar c
  | [] => true

/-- No name character stands before. -/
def startsRun : Option Char → Bool
  | some c => !Name.isPart c
  | none => true

/-- A keyword, blanks and a name: the name, and the length of all three. -/
def keywordThenName? (keyword : List Char) (text : List Char) : Option (List Char × Nat) :=
  match keyword.isPrefixOf? text with
  | none => none
  | some rest =>
      let blanks := rest.takeWhile isBlank
      if blanks.isEmpty then none
      else
        match leadingName? (rest.dropWhile isBlank) with
        | some name => some (name, keyword.length + blanks.length + name.length)
        | none => none

/-- One of some keywords at the start of a word, blanks and a name. -/
def introduced? (keywords : List String) (before : Option Char) (text : List Char) :
    Option (List Char × Nat) :=
  match keywords.findSome? fun k => keywordThenName? k.toList text with
  | some found => if startsWord before then some found else none
  | none => none

/-- A name, an equals sign and `function` at the end of a word, with blanks
between them as one likes.  The name counts only if it is not the tail of a
longer run, but the text is taken either way. -/
def assigned? (before : Option Char) (text : List Char) :
    Option (Option (List Char) × Nat) :=
  match leadingName? text with
  | none => none
  | some name =>
      let afterName := text.drop name.length
      match afterName.dropWhile isBlank with
      | '=' :: afterSign =>
          match "function".toList.isPrefixOf? (afterSign.dropWhile isBlank) with
          | some rest =>
              if endsWord rest then
                some (if startsRun before then some name else none,
                  name.length + (afterName.takeWhile isBlank).length + 1 +
                    (afterSign.takeWhile isBlank).length + "function".length)
              else none
          | none => none
      | _ => none

/-- A dot and a name. -/
def dotted? (_ : Option Char) : List Char → Option (List Char × Nat)
  | '.' :: cs => (leadingName? cs).map fun name => (name, 1 + name.length)
  | _ => none

/-- The names after `var`, `let` or `const`. -/
def declaredNames (text : List Char) : List (List Char) :=
  findAll (introduced? ["var", "let", "const"]) text

def functionNames (text : List Char) : List (List Char) :=
  findAll (introduced? ["function"]) text

/-- The names that a function expression is assigned to. -/
def assignedNames (text : List Char) : List (List Char) :=
  (findAll assigned? text).filterMap id

/-- The names after a dot. -/
def propertyNames (text : List Char) : List (List Char) :=
  findAll dotted? text

end Unmask.Site
