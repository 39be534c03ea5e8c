/-
# `Unmask.Unmasking` — a whole run over a script

A run finds the suspects of a script, gives them names, replaces them throughout
and lists the shell commands in the result.  It refuses a blank script and
fails on no other.  The time limit is a race that the run can lose; what a
lost or broken race reports is part of `Failure`.
-/
import Unmask.Renaming
import Unmask.ShellCommand

namespace Unmask

structure Options where
  decodeNumbers : Bool := false
  protectedNames : List String := []
  reserveSourceNames : Bool := true
deriving Repr, DecidableEq, Inhabited

namespace Options

def numberStyle (o : Options) : NumberStyle :=
  if o.decodeNumbers then .characters else .letters

def protection (o : Options) : Protection := ⟨o.protectedNames⟩

end Options

inductive Failure where
  | invalidInput (message : String)
  | broken (message : String)
  | timedOut
deriving Repr, DecidableEq, Inhabited

namespace Failure

/-- What is said of a script that is all blanks. -/
def blankScript : Failure := .invalidInput "No valid code provided"

def message : Failure → String
  | .invalidInput m => m
  | .broken m => "processing error: " ++ m
  | .timedOut => "Script execution timed out"

end Failure

/-- What a run finds and makes. -/
structure Report where
  text : String
  names : Mapping
  numbers : Mapping
  commands : List String
deriving Inhabited

def isBlankText (source : String) : Bool := source.toList.all isBlank

def checkScript (source : String) : Except Failure Unit :=
  if isBlankText source then .error .blankScript else .ok ()

/-- The renaming that a script gets. -/
def Renaming.ofSource (o : Options) (source : String) : Renaming :=
  let suspects := Suspects.ofSource o.protection source
  let start : Renaming := {}
  let start := if o.reserveSourceNames then start.reserveNames source else start
  (start.addNames source suspects.names o.protection).addNumbers suspects.numbers o.numberStyle

/-- What a script becomes. -/
def reportOf (o : Options) (source : String) : Report :=
  let r := Renaming.ofSource o source
  let text := r.apply source
  { text, names := r.names, numbers := r.numbers, commands := ShellCommand.inText text }

/-- A whole run over a script. -/
def unmask (o : Options) (source : String) : Except Failure Report :=
  match checkScript source with
  | .error e => .error e
  | .ok () => .ok (reportOf o source)

/-- How a piece of work ends when nobody waits for it. -/
inductive Job (α : Type) where
  | finishes (value : α)
  | breaks (message : String)
  | hangs
deriving Repr

/-- What somebody sees who waits for a job with a clock. -/
def Job.await {α : Type} : Job α → Except Failure α
  | .finishes a => .ok a
  | .breaks m => .error (.broken m)
  | .hangs => .error .timedOut

/-- How work fares in a race against a clock: it is done in time, it breaks, or it is
still going on when the time is over. -/
inductive Race where
  | won
  | broken (message : String)
  | lost
deriving Repr, DecidableEq, Inhabited

/-- The work that makes a value, when its race goes in some way. -/
def Race.job {α : Type} (value : α) : Race → Job α
  | .won => .finishes value
  | .broken m => .breaks m
  | .lost => .hangs

/-- A clock says how work fares under a limit in seconds. -/
abbrev Clock := Nat → Race

/-- The clock by which a limit of zero leaves no time for any work, and every other
limit leaves enough. -/
def Clock.steady : Clock := fun seconds => if seconds = 0 then .lost else .won

/-- A run against a clock, under a limit in seconds.  A blank script is refused before
the clock starts. -/
def unmaskAgainst (clock : Clock) (seconds : Nat) (o : Options) (source : String) :
    Except Failure Report :=
  match checkScript source with
  | .error e => .error e
  | .ok () =>
      match ((clock seconds).job (unmask o source)).await with
      | .error e => .error e
      | .ok result => result

/-- A run under a limit in seconds, by the steady clock. -/
def unmaskWithin (seconds : Nat) (o : Options) (source : String) : Except Failure Report :=
  unmaskAgainst .steady seconds o source

end Unmask
