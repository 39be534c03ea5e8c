/-
# `Unmask.Proofs.LetterNumerals` — letters are numerals without a zero

A name made of letters is a number in base 26 whose digits run from one to twenty-six:
`a` is one, `z` is twenty-six, and there is no zero.  Such numerals are unique, so
writing and reading are inverse to each other:

    `digitSum_letters`    what is read from the letters of `n` is `n + 1`
    `letters_digitSum`    the letters of what is read from a text, less one, are the text

The numbers of names start at zero and the numerals at one; hence the one that is taken
off.

The letters are found from the right.  `Writing` is the loop that does it, round by
round, with nothing that bounds it and with every calculation checked: the carry takes
one off a quotient, which could be zero for all that the loop says.  It never is
(`writing_iff`), since a number that has a carry is at least 26.
-/
import Mathlib.Data.Nat.Digits.Lemmas
import Unmask.Proofs.ByOffset.Run
import Unmask.Proofs.LetterOrder

namespace Unmask

/-! ## Reading letters -/

/-- The digit that a letter stands for: its place in the alphabet, `a` counting one. -/
def letterDigit (c : Char) : Nat := c.toNat - 'a'.toNat + 1

/-- The sum over the letters of a text of digit times power of 26; the power belongs to
the place, counted from the right and from zero. -/
def digitSum (w : List Char) : Nat :=
  ((w.reverse.map letterDigit).mapIdx fun place d => d * 26 ^ place).sum

theorem digitSum_concat (front : List Char) (c : Char) :
    digitSum (front ++ [c]) = letterDigit c + 26 * digitSum front := by
  simp only [digitSum, ← Nat.ofDigits_eq_sum_mapIdx]
  rw [List.reverse_append, List.reverse_singleton, List.singleton_append, List.map_cons,
    Nat.ofDigits_cons]

theorem digitSum_eq_lettersValue (w : List Char) : digitSum w = lettersValue w := by
  induction w using List.reverseRecOn with
  | nil => rfl
  | append_singleton front c ih =>
      have hvalue : lettersValue (front ++ [c]) = lettersValue front * 26 + letterDigit c :=
        List.foldl_concat ..
      rw [digitSum_concat, ih, hvalue]
      omega

theorem digitSum_letters (n : Nat) : digitSum (letters n) = n + 1 := by
  rw [digitSum_eq_lettersValue, lettersValue_letters]

theorem letters_digitSum {w : List Char} (hne : w ≠ []) (hlower : ∀ c ∈ w, IsLowercase c) :
    0 < digitSum w ∧ letters (digitSum w - 1) = w := by
  obtain ⟨n, rfl⟩ := exists_letters_eq hne hlower
  rw [digitSum_letters n]
  exact ⟨Nat.succ_pos n, rfl⟩

/-! ## The loop that writes them -/

/-- The loop that writes a number with letters.  A round pushes the last digit.  If the
number was a digit, that was the last round, and the pushed letters are turned around;
otherwise the loop goes on with the quotient less one.  A letter that does not fit a byte
and a difference below zero are faults, with which the loop ends.  The first number
counts the rounds. -/
inductive Writing : Nat → List Char → Nat → ByOffset.Checked (List Char) → Prop
  | last {pushed : List Char} {n : Nat} {c : Char} :
      ByOffset.letterAt (n % 26) = .ok c → n < 26 →
      Writing 1 pushed n (.ok (pushed ++ [c]).reverse)
  | carry {rounds : Nat} {pushed : List Char} {n m : Nat} {c : Char}
      {r : ByOffset.Checked (List Char)} :
      ByOffset.letterAt (n % 26) = .ok c → ¬ n < 26 → ByOffset.minus (n / 26) 1 = .ok m →
      Writing rounds (pushed ++ [c]) m r → Writing (rounds + 1) pushed n r
  | noLetter {pushed : List Char} {n : Nat} {e : ByOffset.Fault} :
      ByOffset.letterAt (n % 26) = .error e → Writing 1 pushed n (.error e)
  | belowZero {pushed : List Char} {n : Nat} {c : Char} {e : ByOffset.Fault} :
      ByOffset.letterAt (n % 26) = .ok c → ¬ n < 26 → ByOffset.minus (n / 26) 1 = .error e →
      Writing 1 pushed n (.error e)

theorem minus_carry {n : Nat} (h : ¬ n < 26) : ByOffset.minus (n / 26) 1 = .ok (n / 26 - 1) :=
  if_pos (by omega)

theorem letters_of_not_lt {n : Nat} (h : ¬ n < 26) :
    letters n = letters (n / 26 - 1) ++ [Char.ofNat ('a'.toNat + n % 26)] := by
  rw [letters, if_neg h]

/-- However the loop ends, it ends without a fault and with the letters of the number in
front of those that were pushed before. -/
theorem Writing.eq_letters {rounds : Nat} {pushed : List Char} {n : Nat}
    {r : ByOffset.Checked (List Char)} (h : Writing rounds pushed n r) :
    rounds = (letters n).length ∧ r = .ok (letters n ++ pushed.reverse) := by
  induction h with
  | last hc hlt =>
      obtain rfl := Except.ok.inj ((ByOffset.letterAt_mod _).symm.trans hc)
      rw [Nat.mod_eq_of_lt hlt, letters_digit hlt, List.reverse_append]
      exact ⟨rfl, rfl⟩
  | carry hc hlt hm _ ih =>
      obtain rfl := Except.ok.inj ((ByOffset.letterAt_mod _).symm.trans hc)
      obtain rfl := Except.ok.inj ((minus_carry hlt).symm.trans hm)
      obtain ⟨rfl, rfl⟩ := ih
      rw [letters_of_not_lt hlt, List.reverse_append, List.append_assoc, List.length_append]
      exact ⟨rfl, rfl⟩
  | noLetter hc => cases (ByOffset.letterAt_mod _).symm.trans hc
  | belowZero _ hlt hm => cases (minus_carry hlt).symm.trans hm

/-- The loop comes to an end, whatever was pushed before. -/
theorem writing_letters (n : Nat) :
    ∀ pushed, Writing (letters n).length pushed n (.ok (letters n ++ pushed.reverse)) := by
  induction n using Nat.strong_induction_on with
  | _ n ih =>
      intro pushed
      have hletter := ByOffset.letterAt_mod n
      by_cases hlt : n < 26
      · have hend : Writing 1 pushed n _ := .last hletter hlt
        rw [Nat.mod_eq_of_lt hlt, List.reverse_append] at hend
        rw [letters_digit hlt]
        exact hend
      · have hrest := ih (n / 26 - 1) (by omega) (pushed ++ [Char.ofNat ('a'.toNat + n % 26)])
        rw [List.reverse_append] at hrest
        have hround := Writing.carry hletter hlt (minus_carry hlt) hrest
        rw [letters_of_not_lt hlt, List.length_append, List.append_assoc]
        exact hround

theorem writing_iff {rounds n : Nat} {r : ByOffset.Checked (List Char)} :
    Writing rounds [] n r ↔ rounds = (letters n).length ∧ r = .ok (letters n) := by
  have hnil : letters n ++ [].reverse = letters n := List.append_nil _
  constructor
  · intro h
    have heq := h.eq_letters
    rw [hnil] at heq
    exact heq
  · rintro ⟨rfl, rfl⟩
    have hend := writing_letters n []
    rw [hnil] at hend
    exact hend

/-! ## Writing and reading -/

/-- Letters are numerals of base 26 without a zero.  For every number the loop ends, with
its letters and without a fault, after one round per letter; what is read from the letters
is the number and one; and every text over `a` to `z` but the empty one is what is written
for the number that is read from it. -/
theorem letters_are_numerals :
    (∀ n rounds r, Writing rounds [] n r ↔ rounds = (letters n).length ∧ r = .ok (letters n)) ∧
      (∀ n, digitSum (letters n) = n + 1) ∧
      ∀ w, w ≠ [] → (∀ c ∈ w, IsLowercase c) →
        0 < digitSum w ∧ letters (digitSum w - 1) = w :=
  ⟨fun _ _ _ => writing_iff, digitSum_letters, fun _ => letters_digitSum⟩

/-- The letters `aaa` follow `zz`: they are read as 703, and written for 702. -/
theorem letters_are_numerals_aaa :
    IsLowercase 'a' ∧ digitSum ['a', 'a', 'a'] = 703 ∧ letters 702 = ['a', 'a', 'a'] ∧
      Writing 3 [] 702 (.ok ['a', 'a', 'a']) := by
  have ha : IsLowercase 'a' := ⟨Char.le_refl _, by decide⟩
  have hlower : ∀ c ∈ ['a', 'a', 'a'], IsLowercase c := by
    intro c hc
    obtain rfl : c = 'a' := by simpa using hc
    exact ha
  have hsum : digitSum ['a', 'a', 'a'] = 703 := by decide
  have hletters := (letters_are_numerals.2.2 _ (List.cons_ne_nil _ _) hlower).2
  rw [hsum] at hletters
  refine ⟨ha, hsum, hletters, (letters_are_numerals.1 702 3 _).mpr ?_⟩
  rw [hletters]
  exact ⟨rfl, rfl⟩

end Unmask
