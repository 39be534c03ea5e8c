/-
# `Unmask.Tally` — what a service counts

A tally counts runs, failures, timeouts and replacements, and keeps a
histogram of how long runs took.  `record` is the only operation that changes
it.  `exposition` writes it down in the text format that metrics collectors
read: families sorted by name, buckets cumulative.

Durations are whole milliseconds, so a duration falls into a bucket by
comparison of whole numbers; the sum of durations is kept in seconds, in
double precision.
-/
import Unmask.Binary64
import Unmask.Unmasking

namespace Unmask

/-- The upper ends of the buckets: in seconds as they are written, and in
milliseconds. -/
def bucketBounds : List (String × Nat) :=
  [("0.005", 5), ("0.01", 10), ("0.025", 25), ("0.05", 50), ("0.1", 100), ("0.25", 250),
   ("0.5", 500), ("1", 1000), ("2.5", 2500), ("5", 5000), ("10", 10000)]

/-- Milliseconds as seconds: the whole seconds, plus the rest in nanoseconds
divided by a thousand million. -/
def secondsOf (millis : Nat) : Binary64 :=
  (Binary64.ofRatio (millis / 1000) 1).add
    (Binary64.ofRatio (millis % 1000 * 1000000) 1000000000)

/-- How many durations lie under each bound, how many there are, and their sum. -/
structure Histogram where
  counts : List Nat := bucketBounds.map fun _ => 0
  samples : Nat := 0
  sum : Binary64 := .zero
deriving Repr, Inhabited

def Histogram.observe (h : Histogram) (millis : Nat) : Histogram where
  counts := (h.counts.zip bucketBounds).map fun (n, b) => if millis ≤ b.2 then n + 1 else n
  samples := h.samples + 1
  sum := h.sum.add (secondsOf millis)

structure Tally where
  runs : Nat := 0
  failures : Nat := 0
  timeouts : Nat := 0
  names : Nat := 0
  numbers : Nat := 0
  durations : Histogram := {}
deriving Repr, Inhabited

namespace Tally

/-- Counts how a run ended. -/
def count (t : Tally) : Except Failure Report → Tally
  | .ok r => { t with names := t.names + r.names.size, numbers := t.numbers + r.numbers.size }
  | .error .timedOut => { t with failures := t.failures + 1, timeouts := t.timeouts + 1 }
  | .error _ => { t with failures := t.failures + 1 }

/-- Counts a run that ended in some way after some milliseconds. -/
def record (t : Tally) (outcome : Except Failure Report) (millis : Nat) : Tally :=
  { t with runs := t.runs + 1, durations := t.durations.observe millis }.count outcome

def heading (name help kind : String) : List String :=
  ["# HELP " ++ name ++ " " ++ help, "# TYPE " ++ name ++ " " ++ kind]

def counterLines (name help : String) (n : Nat) : List String :=
  heading name help "counter" ++ [name ++ " " ++ Nat.repr n]

def bucketLine (name bound : String) (n : Nat) : String :=
  name ++ "_bucket\x7ble=\"" ++ bound ++ "\"\x7d " ++ Nat.repr n

def histogramLines (name help : String) (h : Histogram) : List String :=
  heading name help "histogram" ++
    ((bucketBounds.zip h.counts).map fun (b, n) => bucketLine name b.1 n) ++
    [bucketLine name "+Inf" h.samples, name ++ "_sum " ++ h.sum.toText,
      name ++ "_count " ++ Nat.repr h.samples]

def expositionLines (t : Tally) : List String :=
  counterLines "identifiers_renamed_total" "Identifiers given a new name" t.names ++
  counterLines "numbers_renamed_total" "Numeric literals replaced" t.numbers ++
  histogramLines "transform_duration_seconds"
    "Wall time of a transform including the timeout race" t.durations ++
  counterLines "transform_failures_total" "Transforms that ended in an error" t.failures ++
  counterLines "transform_timeouts_total" "Transforms abandoned after the timeout" t.timeouts ++
  counterLines "transforms_total" "Number of transform requests" t.runs

/-- The tally as text, each line ended. -/
def exposition (t : Tally) : String := String.join (t.expositionLines.map (· ++ "\n"))

/-- The families that a tally occupies in a registry. -/
def familyNames : List String :=
  ["transforms_total", "transform_failures_total", "transform_timeouts_total",
   "identifiers_renamed_total", "numbers_renamed_total", "transform_duration_seconds"]

end Tally

/-- The names of the families that are exposed together. -/
structure Registry where
  names : List String := []
deriving Repr, DecidableEq, Inhabited

/-- Why a tally finds no place in a registry. -/
inductive RegistryError where
  | alreadyRegistered (name : String)
deriving Repr, DecidableEq, Inhabited

/-- A fresh tally under the names of its families, if all of them are free. -/
def Registry.openTally (r : Registry) : Except RegistryError (Tally × Registry) :=
  match Tally.familyNames.find? r.names.contains with
  | some name => .error (.alreadyRegistered name)
  | none => .ok ({}, ⟨r.names ++ Tally.familyNames⟩)

end Unmask
