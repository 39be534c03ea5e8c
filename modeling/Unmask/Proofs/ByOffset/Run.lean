/-
# `Unmask.Proofs.ByOffset.Run` — no run meets a fault

What is left of a run takes no offsets of a text, but it has a list of words to reach
into, and letters and differences to calculate.  With that written down, the whole run
stands here a second time (`ByOffset.unmask`), every access and every calculation of it
checked, and around it the guard that turns a fault into a failure of the kind `broken`
(`guarded`).

The main result, `unmask_never_faults`, goes through the parts of the run and says of
each that it faults on no input and gives what the part gives that runs.  So a run
succeeds on every script but a blank one, and the guard never has anything to report.
-/
import Unmask.Proofs.ByOffset.Commands
import Unmask.Proofs.ByOffset.Names
import Unmask.Unmasking

namespace Unmask.ByOffset

/-! ## New names -/

/-- The letter so many places behind `a`, if its number fits a byte. -/
def letterAt (k : Nat) : Checked Char :=
  if 'a'.toNat + k < 256 then .ok (Char.ofNat ('a'.toNat + k)) else .error .overflow

theorem minus_eq_ok {i j k : Nat} (h : minus i j = .ok k) : j ≤ i ∧ k = i - j := by
  rw [minus] at h
  split_ifs at h with hle
  exact ⟨hle, (Except.ok.inj h).symm⟩

def letters (n : Nat) : Checked (List Char) :=
  if n < 26 then do
    let last ← letterAt (n % 26)
    .ok [last]
  else
    match _ : minus (n / 26) 1 with
    | .error e => .error e
    | .ok m => do
        let front ← letters m
        let last ← letterAt (n % 26)
        .ok (front ++ [last])
termination_by n
decreasing_by
  have hm := minus_eq_ok ‹_›
  omega

def nameAt (role : Role) (n : Nat) : Checked String := do
  let word ← match role.words[n % role.words.length]? with
    | some word => .ok word
    | none => .error .outOfRange
  let round := n / role.words.length
  .ok (if round = 0 then word else word ++ Nat.repr (round + 1))

def firstFree (free : Nat → Checked Bool) : Nat → Nat → Checked Nat
  | 0, n => .ok n
  | fuel + 1, n => do
      let here ← free n
      if here then .ok n else firstFree free fuel (n + 1)

def nextWord (s : NameSupply) (role : Role) : Checked (String × NameSupply) := do
  let free (n : Nat) : Checked Bool := do
    let name ← nameAt role n
    .ok (s.wordFree name)
  let n ← firstFree free (s.issued.size + reservedWords.length) (s.counter role)
  let name ← nameAt role n
  .ok (name, { s.advance role (n + 1) with issued := s.issued.insert name })

def nextLetters (s : NameSupply) : Checked (String × NameSupply) := do
  let free (n : Nat) : Checked Bool := do
    let name ← letters n
    .ok (s.lettersFree (String.ofList name))
  let n ← firstFree free (s.occupied.size + reservedWords.length) s.numbers
  let name ← letters n
  .ok (String.ofList name, { s with numbers := n + 1 })

theorem letterAt_mod (n : Nat) : letterAt (n % 26) = .ok (Char.ofNat ('a'.toNat + n % 26)) := by
  have hlt : n % 26 < 26 := Nat.mod_lt n (by decide)
  refine if_pos ?_
  change 97 + n % 26 < 256
  omega

theorem letters_eq (n : Nat) : letters n = .ok (Unmask.letters n) := by
  induction n using Nat.strong_induction_on with
  | _ n ih =>
      rw [letters, Unmask.letters]
      split_ifs with hlt
      · rw [letterAt_mod]
        rfl
      · have hminus : minus (n / 26) 1 = .ok (n / 26 - 1) := if_pos (by omega)
        split
        · next heq => cases heq.symm.trans hminus
        · next m heq =>
            obtain rfl := Except.ok.inj (heq.symm.trans hminus)
            rw [ih _ (by omega), ok_bind, letterAt_mod, ok_bind]

theorem nameAt_eq (role : Role) (n : Nat) : nameAt role n = .ok (role.nameAt n) := by
  have hlt : n % role.words.length < role.words.length := Nat.mod_lt _ (words_length_pos role)
  have hword : role.words.getD (n % role.words.length) "" = role.words[n % role.words.length] :=
    List.getD_eq_getElem _ _ hlt
  rw [nameAt, List.getElem?_eq_getElem hlt, Role.nameAt, hword]
  rfl

theorem firstFree_eq {free : Nat → Checked Bool} {free' : Nat → Bool}
    (h : ∀ n, free n = .ok (free' n)) (fuel n : Nat) :
    firstFree free fuel n = .ok (Unmask.firstFree free' fuel n) := by
  induction fuel generalizing n with
  | zero => rfl
  | succ fuel ih =>
      rw [firstFree, Unmask.firstFree, h, ok_bind]
      split_ifs
      · rfl
      · exact ih (n + 1)

theorem nextWord_eq (s : NameSupply) (role : Role) : nextWord s role = .ok (s.nextWord role) := by
  rw [nextWord, firstFree_eq fun n => by rw [nameAt_eq, ok_bind], ok_bind, nameAt_eq]
  rfl

theorem nextLetters_eq (s : NameSupply) : nextLetters s = .ok s.nextLetters := by
  rw [nextLetters, firstFree_eq fun n => by rw [letters_eq, ok_bind], ok_bind, letters_eq]
  rfl

/-! ## The renaming -/

def reserveNames (r : Renaming) (source : String) : Checked Renaming := do
  let ts ← tokens source
  let names := Std.TreeSet.ofList ((ts.filter fun t => t.kind = .name).map Token.text)
  .ok { r with supply := r.supply.reserve names.toList }

def addName (protection : Protection) (callable : Std.TreeSet String) (r : Renaming)
    (name : String) : Checked Renaming :=
  if r.names.contains name || !protection.allows name then .ok r
  else do
    let (word, supply) ← nextWord r.supply (if callable.contains name then .function else .value)
    .ok { r with supply, names := r.names.insert name word }

def addNumber (style : NumberStyle) (r : Renaming) (literal : String) : Checked Renaming :=
  if r.numbers.contains literal then .ok r
  else
    match style with
    | .letters => do
        let (name, supply) ← nextLetters r.supply
        .ok { r with supply, numbers := r.numbers.insert literal name }
    | .characters => do
        let new ← decodedNumber literal
        .ok { r with numbers := r.numbers.insert literal new }

def initialRenaming (o : Options) (source : String) : Checked Renaming :=
  if o.reserveSourceNames then reserveNames {} source else .ok {}

def renamingOf (o : Options) (source : String) : Checked Renaming := do
  let start ← initialRenaming o source
  let found ← suspects o.protection source
  let callable ← callableNames source
  let named ← found.names.foldlM (addName o.protection callable) start
  found.numbers.foldlM (addNumber o.numberStyle) named

theorem reserveNames_eq (r : Renaming) (source : String) :
    reserveNames r source = .ok (r.reserveNames source) := by
  rw [reserveNames, tokens_eq, ok_bind, ← tokenTexts_eq_map]
  rfl

theorem addName_eq (protection : Protection) {callable callable' : Std.TreeSet String}
    (h : ∀ x, x ∈ callable ↔ x ∈ callable') (r : Renaming) (name : String) :
    addName protection callable r name = .ok (r.addName protection callable' name) := by
  have hcontains : callable.contains name = callable'.contains name := by
    rw [Bool.eq_iff_iff, Std.TreeSet.contains_iff_mem, Std.TreeSet.contains_iff_mem, h]
  rw [addName, Renaming.addName, hcontains, nextWord_eq]
  split_ifs <;> rfl

theorem addNumber_eq (style : NumberStyle) (r : Renaming) (literal : String) :
    addNumber style r literal = .ok (r.addNumber style literal) := by
  cases style with
  | letters =>
      simp only [addNumber, Renaming.addNumber, nextLetters_eq, ok_bind]
      split_ifs <;> rfl
  | characters =>
      simp only [addNumber, Renaming.addNumber, decodedNumber_eq, ok_bind]
      split_ifs <;> rfl

theorem initialRenaming_eq (o : Options) (source : String) :
    initialRenaming o source =
      .ok (if o.reserveSourceNames then Renaming.reserveNames {} source else {}) := by
  rw [initialRenaming, reserveNames_eq]
  split_ifs <;> rfl

theorem renamingOf_eq (o : Options) (source : String) :
    renamingOf o source = .ok (Renaming.ofSource o source) := by
  obtain ⟨callable, hcallable, hmem⟩ := callableNames_eq source
  rw [renamingOf, initialRenaming_eq, ok_bind, suspects_eq, ok_bind, hcallable, ok_bind,
    foldlM_ok fun r x _ => addName_eq o.protection hmem r x, ok_bind,
    foldlM_ok fun r x _ => addNumber_eq o.numberStyle r x]
  rfl

/-! ## A whole run -/

def unmask (o : Options) (source : String) : Checked (Except Failure Report) :=
  match checkScript source with
  | .error e => .ok (.error e)
  | .ok () => do
      let r ← renamingOf o source
      let renamed ← replaceTokens .name r.names source
      let text ← replaceTokens .number r.numbers renamed
      let commands ← inText text
      .ok (.ok { text, names := r.names, numbers := r.numbers, commands })

/-- A run whose faults are caught and reported as a failure. -/
def guarded (o : Options) (source : String) : Except Failure Report :=
  match checkScript source with
  | .error e => .error e
  | .ok () =>
      match unmask o source with
      | .ok result => result
      | .error _ => .error (.broken "internal error while transforming")

theorem unmask_eq (o : Options) (source : String) :
    unmask o source = .ok (Unmask.unmask o source) := by
  rw [unmask, Unmask.unmask]
  cases checkScript source with
  | error e => rfl
  | ok _ =>
      simp only [renamingOf_eq, replaceTokens_eq, inText_eq, ok_bind]
      rfl

theorem guarded_eq (o : Options) (source : String) : guarded o source = Unmask.unmask o source := by
  rw [guarded, unmask_eq, Unmask.unmask]
  cases checkScript source with
  | error e => rfl
  | ok _ => rfl

/-- A run succeeds on a script that has anything but white space in it, and on no other. -/
theorem exists_report_iff (o : Options) (source : String) :
    (∃ report, Unmask.unmask o source = .ok report) ↔ ∃ c ∈ source.toList, isBlank c = false := by
  have hblank : isBlankText source = false ↔ ∃ c ∈ source.toList, isBlank c = false := by
    rw [isBlankText, List.all_eq_false]
    simp only [Bool.not_eq_true]
  rw [← hblank, Unmask.unmask, checkScript]
  cases isBlankText source with
  | true =>
      constructor
      · rintro ⟨report, h⟩
        cases h
      · intro h
        cases h
  | false => exact ⟨fun _ => rfl, fun _ => ⟨_, rfl⟩⟩

/-- Every access and every calculation of a run is in order, whatever the script and the
options.  Each part, with its accesses checked, gives what it gives without: the tokens
of a text; the names that it uses as functions, and at every place between two characters
the keyword in front of it; the suspects; the value of a literal, whether it looks
scrambled and what it encodes; a text with its tokens replaced; the commands in a text;
and the whole run.  A run succeeds exactly on the scripts that are not all white space,
and the guard around it never reports that it broke. -/
theorem unmask_never_faults :
    (∀ source, tokens source = .ok (Unmask.tokens source)) ∧
    (∀ source, ∃ s, callableNames source = .ok s ∧
      ∀ x, x ∈ s ↔ x ∈ Unmask.callableNames source) ∧
    (∀ front rest, ∃ k, followsFunction (front ++ rest) (byteLength front) = .ok k ∧
      (k = true ↔ AfterFunction front)) ∧
    (∀ protection source,
      suspects protection source = .ok (Suspects.ofSource protection source)) ∧
    (∀ literal, value literal = .ok (Literal.value? literal)) ∧
    (∀ literal, looksScrambled literal = .ok (Literal.looksScrambled literal)) ∧
    (∀ literal, decodedNumber literal = .ok (Unmask.decodedNumber literal)) ∧
    (∀ kind m text, replaceTokens kind m text = .ok (Unmask.replaceTokens kind m text)) ∧
    (∀ text, inText text = .ok (ShellCommand.inText text)) ∧
    ∀ o source,
      unmask o source = .ok (Unmask.unmask o source) ∧
      ((∃ report, Unmask.unmask o source = .ok report) ↔
        ∃ c ∈ source.toList, isBlank c = false) ∧
      ∀ message, guarded o source ≠ .error (.broken message) := by
  refine ⟨tokens_eq, callableNames_eq, followsFunction_append, suspects_eq, value_eq,
    looksScrambled_eq, decodedNumber_eq, replaceTokens_eq, inText_eq, fun o source => ?_⟩
  refine ⟨unmask_eq o source, exists_report_iff o source, fun message h => ?_⟩
  rw [guarded_eq, Unmask.unmask, checkScript] at h
  cases hblank : isBlankText source with
  | true =>
      rw [hblank] at h
      exact Failure.noConfusion (Except.error.inj h)
  | false =>
      rw [hblank] at h
      cases h

end Unmask.ByOffset
