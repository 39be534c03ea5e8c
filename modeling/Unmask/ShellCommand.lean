/-
# `Unmask.ShellCommand` — command lines for PowerShell inside a script

Command lines sit in string literals and in markup, so the text is first
unescaped.  A command line is the word `powershell` in any case, blanks,
arguments without quotes, brackets or semicolons, a dash among them, and then,
on the line of that dash, a quote with an equal quote somewhere behind it; the
command reaches to that second quote.

`inText` prunes the search in two ways.  Dashes on one line have the same
quotes behind them, so only the first of a line is tried; and when the
arguments of one `powershell` lead nowhere, a `powershell` among them leads
nowhere either, so the search goes on behind the arguments.
-/
import Unmask.Text.Blank
import Unmask.Text.Scan

namespace Unmask.ShellCommand

/-- The escapes and what they stand for, in the order in which they are undone. -/
def escapes : List (String × String) :=
  [("&gt;", ">"), ("&lt;", "<"), ("&amp;", "&"), ("\\/", "/"), ("\\\"", "\""),
   ("\\'", "'"), ("\\\\", "\\")]

/-- Undoes entities and backslashes, one kind after another. -/
def unescapeChars (text : List Char) : List Char :=
  escapes.foldl (fun t e => replaceAll e.1 e.2 t) text

def unescape (text : String) : String := String.ofList (unescapeChars text.toList)

def isQuote (c : Char) : Bool := c == '\x60' || c == '"' || c == '\''

def endsArguments (c : Char) : Bool :=
  isQuote c || c == '(' || c == ')' || c == '\x7b' || c == '\x7d' || c == ';'

/-- `c` is the lower-case letter `l` in some case; the long s is an `s`. -/
def isLetter (l c : Char) : Bool := c == l || c == l.toUpper || (l == 's' && c == 'ſ')

def startsWithWord : List Char → List Char → Bool
  | [], _ => true
  | l :: ls, c :: cs => isLetter l c && startsWithWord ls cs
  | _ :: _, [] => false

def headWord : List Char := "powershell".toList

/-- The length of `powershell` and the blanks behind it. -/
def headLength? (text : List Char) : Option Nat :=
  if startsWithWord headWord text then
    let blanks := (text.drop headWord.length).takeWhile isBlank
    if blanks.isEmpty then none else some (headWord.length + blanks.length)
  else none

/-- Where the first quotation ends that opens on this line and closes.  Ends
are counted from the start of the command; `n` characters lie behind. -/
def quotationEnd? (n : Nat) : List Char → Option Nat
  | [] => none
  | c :: cs =>
      if c == '\n' then none
      else
        match if isQuote c then cs.findIdx? (· == c) else none with
        | some i => some (n + i + 2)
        | none => quotationEnd? (n + 1) cs

/-- Where a command ends whose arguments start here.  `tried` says that a dash
of this line has been tried before. -/
def argumentsEnd? (tried : Bool) (n : Nat) : List Char → Option Nat
  | [] => none
  | c :: cs =>
      if endsArguments c then none
      else
        match if c == '-' && !tried then quotationEnd? (n + 1) cs else none with
        | some stop => some stop
        | none => argumentsEnd? ((tried || c == '-') && c != '\n') (n + 1) cs

/-- A command at the start of a text.  Where only its head is found, the
arguments are passed over. -/
def at? (_ : Option Char) (text : List Char) : Option (Option (List Char) × Nat) :=
  match headLength? text with
  | none => none
  | some n =>
      let rest := text.drop n
      match argumentsEnd? false n rest with
      | some stop => some (some (text.take stop), stop)
      | none => some (none, n + (rest.takeWhile fun c => !endsArguments c).length)

/-- The commands in a text that needs no unescaping. -/
def inPlainText (text : List Char) : List (List Char) := (findAll at? text).filterMap id

/-- The commands in a text, in order. -/
def inText (text : String) : List String :=
  (inPlainText (unescapeChars text.toList)).map String.ofList

end Unmask.ShellCommand
