/-
# `Unmask.Proofs.CommandSearch` — pruning the search for commands loses none

The plain search for commands is written down here a second time, by places in
the text and without any shortcut (`searchFrom`): take the next head, try every
dash of its arguments in order, for each dash every quote on the rest of its
line in order, and accept the first quote that has an equal one behind it.  The
command reaches from the head to that second quote, and the search goes on
behind it; where nothing is accepted, it goes on behind the start of the head.

The search that runs leaves out two kinds of trial.

* *Dashes.*  A dash whose line has been tried before is not tried again.  The
  quotes behind it are quotes behind the earlier dash, and none of those could
  be closed (`argumentsEnd?_eq`).
* *Heads.*  When the arguments of a head lead nowhere, the search goes on behind
  all of them.  A head among them has the same arguments, less those in front of
  it; and no head starts inside another (`barren_of_dead`).

`inText_eq_search` puts the two together.
-/
import Mathlib.Algebra.Order.Ring.Nat
import Mathlib.Algebra.Order.Sub.Basic
import Mathlib.Data.Char
import Mathlib.Data.List.Forall2
import Mathlib.Data.List.TakeWhile
import Mathlib.Data.Nat.SuccPred
import Unmask.Proofs.Walk
import Unmask.ShellCommand

namespace Unmask.ShellCommand

/-! ## The plain search -/

/-- The places from `i` up to `j` where a character of the class stands. -/
def placesBetween (P : Char → Bool) (text : List Char) (i j : Nat) : List Nat :=
  (List.range' i (j - i)).filter fun k => text[k]?.any P

/-- The first place from `i` on where a character of the class stands. -/
def nextPlace? (P : Char → Bool) (text : List Char) (i : Nat) : Option Nat :=
  ((text.drop i).findIdx? P).map (i + ·)

def lineEnd (text : List Char) (i : Nat) : Nat :=
  (nextPlace? (· == '\n') text i).getD text.length

def argumentsStop (text : List Char) (i : Nat) : Nat :=
  (nextPlace? endsArguments text i).getD text.length

/-- The next quote that is equal to the one at `i`. -/
def equalQuote? (text : List Char) (i : Nat) : Option Nat :=
  match text[i]? with
  | some q => nextPlace? (· == q) text (i + 1)
  | none => none

/-- The quote that closes the first of the quotes from `i` to the end of the line
that can be closed. -/
def closerOnLine? (text : List Char) (i : Nat) : Option Nat :=
  (placesBetween isQuote text i (lineEnd text i)).findSome? (equalQuote? text)

/-- The quote that a command ends with whose arguments start at `i`: every dash of
the arguments is tried. -/
def commandEnd? (text : List Char) (i : Nat) : Option Nat :=
  (placesBetween (· == '-') text i (argumentsStop text i)).findSome? fun dash =>
    closerOnLine? text (dash + 1)

/-- The case of a letter does not matter, and the long s is an `s`. -/
def foldCase (c : Char) : Char := if c = 'ſ' then 's' else c.toLower

/-- Where a head ends that starts at `i`: the word in any case, and then at least one
blank and all that follow it. -/
def headEnd? (text : List Char) (i : Nat) : Option Nat :=
  let wordEnd := i + headWord.length
  let stop := (nextPlace? (fun c => !isBlank c) text wordEnd).getD text.length
  if (text.extract i wordEnd).map foldCase = headWord ∧ wordEnd < stop then some stop else none

/-- The first head that starts at `i` or later: where it starts, and where its
arguments start. -/
def nextHead? (text : List Char) (i : Nat) : Option (Nat × Nat) :=
  (List.range' i (text.length - i)).findSome? fun k => (headEnd? text k).map fun stop => (k, stop)

/-! ## Places and what stands there -/

section Places

variable {text cs : List Char} {i : Nat} {c : Char}

theorem getElem?_of_drop (h : text.drop i = c :: cs) : text[i]? = some c := by
  rw [← List.head?_drop, h]
  rfl

theorem drop_succ_of_drop (h : text.drop i = c :: cs) : text.drop (i + 1) = cs := by
  rw [← List.tail_drop, h]
  rfl

theorem lt_length_of_drop (h : text.drop i = c :: cs) : i < text.length := by
  by_contra hle
  rw [List.drop_eq_nil_of_le (Nat.le_of_not_lt hle)] at h
  exact absurd h.symm (List.cons_ne_nil c cs)

theorem length_le_of_drop (h : text.drop i = []) : text.length ≤ i :=
  List.drop_eq_nil_iff.mp h

theorem nextPlace?_nil (P : Char → Bool) (h : text.drop i = []) : nextPlace? P text i = none := by
  rw [nextPlace?, h]
  rfl

theorem nextPlace?_cons (P : Char → Bool) (h : text.drop i = c :: cs) :
    nextPlace? P text i = if P c then some i else nextPlace? P text (i + 1) := by
  rw [nextPlace?, nextPlace?, h, drop_succ_of_drop h, List.findIdx?_cons]
  by_cases hc : P c
  · simp [hc]
  · simp [hc, Function.comp_def, Nat.add_comm, Nat.add_left_comm]

theorem nextPlace?_ge {P : Char → Bool} {k : Nat} (h : nextPlace? P text i = some k) :
    i ≤ k ∧ k < text.length := by
  obtain ⟨n, hn, rfl⟩ := Option.map_eq_some_iff.mp h
  have hlt := (List.findIdx?_eq_some_iff_getElem.mp hn).1
  rw [List.length_drop] at hlt
  omega

theorem placesBetween_self (P : Char → Bool) (text : List Char) (i : Nat) :
    placesBetween P text i i = [] := by
  simp [placesBetween]

theorem placesBetween_cons (P : Char → Bool) {j : Nat} (hij : i < j) (h : text.drop i = c :: cs) :
    placesBetween P text i j =
      if P c then i :: placesBetween P text (i + 1) j else placesBetween P text (i + 1) j := by
  have hrange : List.range' i (j - i) = i :: List.range' (i + 1) (j - (i + 1)) := by
    rw [← List.range'_succ]
    congr 1
    omega
  rw [placesBetween, hrange, List.filter_cons, getElem?_of_drop h]
  rfl

theorem lineEnd_nil (h : text.drop i = []) : lineEnd text i = text.length := by
  rw [lineEnd, nextPlace?_nil _ h]
  rfl

theorem lineEnd_cons (h : text.drop i = c :: cs) :
    lineEnd text i = if c == '\n' then i else lineEnd text (i + 1) := by
  rw [lineEnd, nextPlace?_cons _ h]
  split_ifs <;> rfl

theorem argumentsStop_cons (h : text.drop i = c :: cs) :
    argumentsStop text i = if endsArguments c then i else argumentsStop text (i + 1) := by
  rw [argumentsStop, nextPlace?_cons _ h]
  split_ifs <;> rfl

theorem le_getD_nextPlace? (P : Char → Bool) (hi : i ≤ text.length) :
    i ≤ (nextPlace? P text i).getD text.length := by
  cases h : nextPlace? P text i with
  | none => exact hi
  | some k => exact (nextPlace?_ge h).1

theorem getD_nextPlace? (P : Char → Bool) : ∀ (cs : List Char) (i : Nat), text.drop i = cs →
    i ≤ text.length →
      (nextPlace? P text i).getD text.length = i + (cs.takeWhile fun c => !P c).length := by
  intro cs
  induction cs with
  | nil =>
      intro i h hi
      rw [nextPlace?_nil _ h]
      exact le_antisymm (length_le_of_drop h) hi
  | cons c cs ih =>
      intro i h hi
      rw [nextPlace?_cons _ h, List.takeWhile_cons]
      by_cases hc : P c = true
      · simp [hc]
      · have hlater := ih (i + 1) (drop_succ_of_drop h) (Nat.succ_le_of_lt (lt_length_of_drop h))
        simp only [hc, Bool.false_eq_true, if_false, Bool.not_false, if_true, List.length_cons]
        omega

end Places

/-! ## From places to what follows them

The search that runs carries the rest of the text along and counts what lies
behind.  With the place itself for a count it finds what the plain search finds. -/

theorem equalQuote?_of_drop {text cs : List Char} {i : Nat} {c : Char}
    (h : text.drop i = c :: cs) :
    equalQuote? text i = (cs.findIdx? (· == c)).map (i + 1 + ·) := by
  simp only [equalQuote?, getElem?_of_drop h, nextPlace?, drop_succ_of_drop h]

theorem quotationEnd?_eq (text : List Char) : ∀ (cs : List Char) (i : Nat), text.drop i = cs →
    quotationEnd? i cs = (closerOnLine? text i).map (· + 1) := by
  intro cs
  induction cs with
  | nil =>
      intro i h
      have hnone : placesBetween isQuote text i (lineEnd text i) = [] := by
        rw [lineEnd_nil h, placesBetween, Nat.sub_eq_zero_of_le (length_le_of_drop h)]
        rfl
      rw [closerOnLine?, hnone]
      rfl
  | cons c cs ih =>
      intro i h
      have htail := drop_succ_of_drop h
      rw [quotationEnd?, closerOnLine?, lineEnd_cons h]
      by_cases hnl : (c == '\n') = true
      · rw [if_pos hnl, if_pos hnl, placesBetween_self]
        rfl
      · rw [if_neg hnl, if_neg hnl]
        have hlt : i < lineEnd text (i + 1) :=
          le_getD_nextPlace? _ (Nat.succ_le_of_lt (lt_length_of_drop h))
        have hlater := ih (i + 1) htail
        rw [closerOnLine?] at hlater
        rw [placesBetween_cons _ hlt h]
        by_cases hq : isQuote c = true
        · rw [if_pos hq, if_pos hq, List.findSome?_cons, equalQuote?_of_drop h]
          cases cs.findIdx? (· == c) with
          | some k => simp; omega
          | none => exact hlater
        · rw [if_neg hq, if_neg hq]
          exact hlater

/-- Where a command ends whose arguments start here, every dash tried. -/
def everyDashEnd? (n : Nat) : List Char → Option Nat
  | [] => none
  | c :: cs =>
      if endsArguments c then none
      else
        match if c == '-' then quotationEnd? (n + 1) cs else none with
        | some stop => some stop
        | none => everyDashEnd? (n + 1) cs

theorem everyDashEnd?_eq (text : List Char) : ∀ (cs : List Char) (i : Nat), text.drop i = cs →
    everyDashEnd? i cs = (commandEnd? text i).map (· + 1) := by
  intro cs
  induction cs with
  | nil =>
      intro i h
      have hnone : placesBetween (· == '-') text i (argumentsStop text i) = [] := by
        rw [argumentsStop, nextPlace?_nil _ h, placesBetween, Option.getD_none,
          Nat.sub_eq_zero_of_le (length_le_of_drop h)]
        rfl
      rw [commandEnd?, hnone]
      rfl
  | cons c cs ih =>
      intro i h
      have htail := drop_succ_of_drop h
      rw [everyDashEnd?, commandEnd?, argumentsStop_cons h]
      by_cases hend : endsArguments c = true
      · rw [if_pos hend, if_pos hend, placesBetween_self]
        rfl
      · rw [if_neg hend, if_neg hend]
        have hlt : i < argumentsStop text (i + 1) :=
          le_getD_nextPlace? _ (Nat.succ_le_of_lt (lt_length_of_drop h))
        have hlater := ih (i + 1) htail
        rw [commandEnd?] at hlater
        rw [placesBetween_cons _ hlt h]
        by_cases hdash : (c == '-') = true
        · rw [if_pos hdash, if_pos hdash, List.findSome?_cons, quotationEnd?_eq text cs _ htail]
          cases closerOnLine? text (i + 1) with
          | some k => rfl
          | none => exact hlater
        · rw [if_neg hdash, if_neg hdash]
          exact hlater

/-! ## Dashes

A dash is passed over only while the rest of the line holds no quote that can be
closed. -/

theorem quotationEnd?_cons_eq_none {n : Nat} {c : Char} {cs : List Char}
    (h : quotationEnd? n (c :: cs) = none) : c = '\n' ∨ quotationEnd? (n + 1) cs = none := by
  rw [quotationEnd?] at h
  by_cases hnl : (c == '\n') = true
  · exact Or.inl (by simpa using hnl)
  · rw [if_neg hnl] at h
    split at h
    · exact absurd h (Option.some_ne_none _)
    · exact Or.inr h

/-- Only the first dash of a line needs to be tried. -/
theorem argumentsEnd?_eq : ∀ (cs : List Char) (tried : Bool) (n : Nat),
    (tried = true → quotationEnd? n cs = none) →
      argumentsEnd? tried n cs = everyDashEnd? n cs := by
  intro cs
  induction cs with
  | nil =>
      intro tried n _
      rfl
  | cons c cs ih =>
      intro tried n htried
      rw [argumentsEnd?, everyDashEnd?]
      by_cases hend : endsArguments c = true
      · rw [if_pos hend, if_pos hend]
      · rw [if_neg hend, if_neg hend]
        cases tried with
        | false =>
            by_cases hdash : (c == '-') = true
            · obtain rfl : c = '-' := by simpa using hdash
              cases hquote : quotationEnd? (n + 1) cs with
              | some stop => simp
              | none => simpa [hquote] using ih true (n + 1) fun _ => hquote
            · simpa [hdash] using ih false (n + 1) (by simp)
        | true =>
            rcases quotationEnd?_cons_eq_none (htried rfl) with rfl | hquote
            · simpa using ih false (n + 1) (by simp)
            · simpa [hquote] using ih (c != '\n') (n + 1) fun _ => hquote

/-! ## Counting from elsewhere -/

theorem quotationEnd?_add (n : Nat) : ∀ (cs : List Char) (k : Nat),
    quotationEnd? (n + k) cs = (quotationEnd? k cs).map (n + ·) := by
  intro cs
  induction cs with
  | nil =>
      intro k
      rfl
  | cons c cs ih =>
      intro k
      rw [quotationEnd?, quotationEnd?, Nat.add_assoc, ih (k + 1)]
      split_ifs with hnl hquote
      · rfl
      · cases cs.findIdx? (· == c) with
        | some i => simp [Nat.add_assoc]
        | none => rfl
      · rfl

theorem everyDashEnd?_add (n : Nat) : ∀ (cs : List Char) (k : Nat),
    everyDashEnd? (n + k) cs = (everyDashEnd? k cs).map (n + ·) := by
  intro cs
  induction cs with
  | nil =>
      intro k
      rfl
  | cons c cs ih =>
      intro k
      rw [everyDashEnd?, everyDashEnd?, Nat.add_assoc, ih (k + 1), quotationEnd?_add n cs (k + 1)]
      split_ifs with hend hdash
      · rfl
      · cases quotationEnd? (k + 1) cs with
        | some stop => rfl
        | none => rfl
      · rfl

/-- Whether a dash leads anywhere does not depend on what lies behind. -/
theorem everyDashEnd?_eq_none_iff (n k : Nat) (cs : List Char) :
    everyDashEnd? n cs = none ↔ everyDashEnd? k cs = none := by
  rw [← Nat.add_zero n, ← Nat.add_zero k, everyDashEnd?_add, everyDashEnd?_add,
    Option.map_eq_none_iff, Option.map_eq_none_iff]

/-! ## Heads -/

/-- When arguments lead nowhere, a part of them leads nowhere either. -/
theorem everyDashEnd?_suffix {a rest : List Char} (ha : ∀ c ∈ a, endsArguments c = false) {n : Nat}
    (h : everyDashEnd? n (a ++ rest) = none) : everyDashEnd? n rest = none := by
  induction a generalizing n with
  | nil => exact h
  | cons c a ih =>
      have hc : endsArguments c = false := ha c List.mem_cons_self
      rw [List.cons_append, everyDashEnd?, hc] at h
      have hlater : everyDashEnd? (n + 1) (a ++ rest) = none := by
        simp only [Bool.false_eq_true, if_false] at h
        split at h
        · exact absurd h (Option.some_ne_none _)
        · exact h
      exact (everyDashEnd?_eq_none_iff _ _ _).mp
        (ih (fun d hd => ha d (List.mem_cons_of_mem _ hd)) hlater)

/-- The characters spell the word, in any case. -/
def Spells (word cs : List Char) : Prop := List.Forall₂ (fun l c => isLetter l c = true) word cs

theorem spells_of_startsWithWord : ∀ {word text : List Char}, startsWithWord word text = true →
    ∃ p rest, text = p ++ rest ∧ Spells word p := by
  intro word
  induction word with
  | nil =>
      intro text _
      exact ⟨[], text, rfl, List.Forall₂.nil⟩
  | cons l word ih =>
      intro text h
      cases text with
      | nil => exact Bool.noConfusion h
      | cons c cs =>
          rw [startsWithWord, Bool.and_eq_true] at h
          obtain ⟨p, rest, rfl, hp⟩ := ih h.2
          exact ⟨c :: p, rest, rfl, List.Forall₂.cons h.1 hp⟩

theorem Spells.exists_letter {word p : List Char} (h : Spells word p) {c : Char} (hc : c ∈ p) :
    ∃ l ∈ word, isLetter l c = true := by
  induction h with
  | nil => exact absurd hc List.not_mem_nil
  | cons hhead _ ih =>
      rcases List.mem_cons.mp hc with rfl | hc
      · exact ⟨_, List.mem_cons_self, hhead⟩
      · obtain ⟨l, hl, hletter⟩ := ih hc
        exact ⟨l, List.mem_cons_of_mem _ hl, hletter⟩

theorem Spells.plain {p : List Char} (h : Spells headWord p) {c : Char} (hc : c ∈ p) :
    isBlank c = false ∧ endsArguments c = false := by
  obtain ⟨l, hl, hletter⟩ := h.exists_letter hc
  have hword : (headWord.all fun l => !isBlank l && !endsArguments l &&
      (!isBlank l.toUpper && !endsArguments l.toUpper)) = true := by decide
  have hplain := List.all_eq_true.mp hword l hl
  simp only [Bool.and_eq_true, Bool.not_eq_true'] at hplain
  simp only [isLetter, Bool.or_eq_true, Bool.and_eq_true, beq_iff_eq] at hletter
  rcases hletter with (rfl | rfl) | ⟨-, rfl⟩
  · exact hplain.1
  · exact hplain.2
  · decide

theorem endsArguments_of_isBlank {c : Char} (h : isBlank c = true) : endsArguments c = false := by
  rw [← Bool.not_eq_true]
  intro hend
  simp only [endsArguments, isQuote, Bool.or_eq_true, beq_iff_eq] at hend
  rcases hend with (((((((rfl | rfl) | rfl) | rfl) | rfl) | rfl) | rfl) | rfl) <;>
    exact absurd h (by decide)

theorem toUpper_toLower (c : Char) : c.toLower = c ∨ c.toLower.toUpper = c := by
  by_cases hc : c.val ≥ 'A'.val ∧ c.val ≤ 'Z'.val
  · have hlower : c.val + ('a'.val - 'A'.val) ≥ 'a'.val ∧
        c.val + ('a'.val - 'A'.val) ≤ 'z'.val := by
      have hge : 65 ≤ c.toNat := hc.1
      have hle : c.toNat ≤ 90 := hc.2
      have hnat : (c.val + 32).toNat = c.toNat + 32 := by
        rw [UInt32.toNat_add]
        exact Nat.mod_eq_of_lt (by change c.toNat + 32 < 4294967296; omega)
      constructor
      · change 97 ≤ (c.val + 32).toNat
        omega
      · change (c.val + 32).toNat ≤ 122
        omega
    right
    unfold Char.toLower
    rw [dif_pos hc]
    unfold Char.toUpper
    rw [dif_pos hlower]
    apply Char.ext
    change c.val + 32 + ('A'.val - 'a'.val) = c.val
    rw [UInt32.add_assoc]
    exact UInt32.add_zero _
  · left
    unfold Char.toLower
    rw [dif_neg hc]

theorem isLetter_eq {l : Char} (hl : l ∈ headWord) (c : Char) :
    isLetter l c = (foldCase c == l) := by
  have hword : (headWord.all fun l => foldCase l == l && foldCase l.toUpper == l) = true := by
    decide
  have hcase := List.all_eq_true.mp hword l hl
  simp only [Bool.and_eq_true, beq_iff_eq] at hcase
  rw [Bool.eq_iff_iff]
  simp only [isLetter, Bool.or_eq_true, Bool.and_eq_true, beq_iff_eq]
  constructor
  · rintro ((rfl | rfl) | ⟨rfl, rfl⟩)
    · exact hcase.1
    · exact hcase.2
    · rfl
  · rw [foldCase]
    split_ifs with hlong
    · rintro rfl
      exact Or.inr ⟨rfl, hlong⟩
    · rintro rfl
      rcases toUpper_toLower c with h | h
      · exact Or.inl (Or.inl h.symm)
      · exact Or.inl (Or.inr h.symm)

theorem startsWithWord_eq (word text : List Char) (h : ∀ l ∈ word, l ∈ headWord) :
    startsWithWord word text = ((text.take word.length).map foldCase == word) := by
  induction word generalizing text with
  | nil => simp [startsWithWord]
  | cons l word ih =>
      cases text with
      | nil => rfl
      | cons c cs =>
          rw [startsWithWord, isLetter_eq (h l List.mem_cons_self),
            ih cs fun d hd => h d (List.mem_cons_of_mem l hd)]
          rfl

theorem headEnd?_eq (text : List Char) (i : Nat) :
    headEnd? text i = (headLength? (text.drop i)).map (i + ·) := by
  have hword : text.extract i (i + headWord.length) = (text.drop i).take headWord.length := by
    rw [List.extract, Nat.add_sub_cancel_left]
  simp only [headEnd?, headLength?, hword, startsWithWord_eq headWord (text.drop i) fun _ => id,
    beq_iff_eq, List.drop_drop]
  by_cases hspell : ((text.drop i).take headWord.length).map foldCase = headWord
  · have hle : i + headWord.length ≤ text.length := by
      have hlen := congrArg List.length hspell
      rw [List.length_map, List.length_take, List.length_drop] at hlen
      have hpos : 0 < headWord.length := by decide
      omega
    simp only [hspell, true_and, if_true, getD_nextPlace? _ _ _ rfl hle, Bool.not_not]
    generalize (text.drop (i + headWord.length)).takeWhile isBlank = blanks
    cases blanks with
    | nil => simp
    | cons c cs => simp [Nat.add_assoc]
  · simp only [hspell, false_and, if_false]
    rfl

theorem headLength?_eq_some {text : List Char} {n : Nat} (h : headLength? text = some n) :
    ∃ p s rest, text = p ++ s ++ rest ∧ Spells headWord p ∧ s ≠ [] ∧
      (∀ c ∈ s, isBlank c = true) ∧ n = (p ++ s).length := by
  simp only [headLength?] at h
  split_ifs at h with hword hblank
  obtain ⟨p, rest, rfl, hp⟩ := spells_of_startsWithWord hword
  have hdrop : (p ++ rest).drop headWord.length = rest := by
    rw [List.Forall₂.length_eq hp, List.drop_left]
  rw [hdrop] at h hblank
  refine ⟨p, rest.takeWhile isBlank, rest.dropWhile isBlank, ?_, hp, by simpa using hblank,
    fun c hc => List.mem_takeWhile_imp hc, ?_⟩
  · rw [List.append_assoc, List.takeWhile_append_dropWhile]
  · rw [List.length_append, ← List.Forall₂.length_eq hp]
    exact (Option.some.inj h).symm

theorem headLength?_bounds {text : List Char} {n : Nat} (h : headLength? text = some n) :
    0 < n ∧ n ≤ text.length := by
  obtain ⟨p, s, rest, rfl, -, hne, -, rfl⟩ := headLength?_eq_some h
  have hpos := List.length_pos_of_ne_nil hne
  simp only [List.length_append]
  omega

theorem plain_of_head {p s : List Char} (hp : Spells headWord p)
    (hs : ∀ c ∈ s, isBlank c = true) : ∀ c ∈ p ++ s, endsArguments c = false := by
  intro c hc
  rcases List.mem_append.mp hc with hc | hc
  · exact (hp.plain hc).2
  · exact endsArguments_of_isBlank (hs c hc)

theorem headLength?_of_blank {cs rest : List Char} {c : Char} (hlen : cs.length < headWord.length)
    (hc : isBlank c = true) (n : Nat) : headLength? (cs ++ c :: rest) ≠ some n := by
  intro hn
  obtain ⟨p, s, r, heq, hp, -⟩ := headLength?_eq_some hn
  have hmem : c ∈ p := by
    have hget : (p ++ s ++ r)[cs.length]? = some c := by rw [← heq]; simp
    rw [List.append_assoc, List.getElem?_append_left (by rw [← hp.length_eq]; exact hlen)] at hget
    exact List.mem_of_getElem? hget
  rw [(hp.plain hmem).1] at hc
  exact Bool.noConfusion hc

theorem within_arguments {h y w r : List Char} (hh : ∀ c ∈ h, endsArguments c = false)
    (hw : ∀ c ∈ w.head?, endsArguments c = true) (heq : y ++ w = h ++ r) :
    ∃ z, y = h ++ z ∧ r = z ++ w := by
  rcases List.append_eq_append_iff.mp heq with ⟨m, rfl, rfl⟩ | ⟨z, hy, hr⟩
  · cases m with
    | nil => exact ⟨[], by simp, by simp⟩
    | cons c m =>
        have hend : endsArguments c = true := hw c rfl
        rw [hh c (by simp)] at hend
        exact Bool.noConfusion hend
  · exact ⟨z, hy, hr⟩

/-- A head among arguments that lead nowhere leads nowhere. -/
theorem dead_among_arguments {a w x y : List Char} (ha : ∀ c ∈ a, endsArguments c = false)
    (hw : ∀ c ∈ w.head?, endsArguments c = true) (hdead : everyDashEnd? 0 (a ++ w) = none)
    (hxy : a = x ++ y) {n : Nat} (hn : headLength? (y ++ w) = some n) :
    everyDashEnd? 0 ((y ++ w).drop n) = none := by
  subst hxy
  obtain ⟨p, s, r, heq, hp, -, hs, rfl⟩ := headLength?_eq_some hn
  obtain ⟨z, rfl, rfl⟩ := within_arguments (plain_of_head hp hs) hw heq
  rw [heq, List.drop_left]
  refine everyDashEnd?_suffix (a := x ++ (p ++ s)) (fun c hc => ha c ?_) ?_
  · rw [← List.append_assoc]
    exact List.mem_append_left _ hc
  · simpa only [List.append_assoc] using hdead

/-- When the arguments of a head lead nowhere, no head that starts inside the head
or among its arguments leads anywhere. -/
theorem barren_of_dead {p s a w : List Char} (hp : Spells headWord p)
    (hne : s ≠ []) (hs : ∀ c ∈ s, isBlank c = true) (ha : ∀ c ∈ a, endsArguments c = false)
    (hw : ∀ c ∈ w.head?, endsArguments c = true) (hdead : everyDashEnd? 0 (a ++ w) = none)
    {x y : List Char} (hx : x ≠ []) (hxy : p ++ s ++ a = x ++ y) {n : Nat}
    (hn : headLength? (y ++ w) = some n) : everyDashEnd? 0 ((y ++ w).drop n) = none := by
  rcases List.append_eq_append_iff.mp hxy with ⟨u, -, hu⟩ | ⟨u, hu, rfl⟩
  · exact dead_among_arguments ha hw hdead hu hn
  · rcases List.append_eq_append_iff.mp hu with ⟨v, rfl, rfl⟩ | ⟨v, rfl, rfl⟩
    · cases u with
      | nil => exact dead_among_arguments ha hw hdead (List.nil_append a).symm hn
      | cons c u =>
          have hblank : headLength? ([] ++ c :: (u ++ a ++ w)) ≠ some n :=
            headLength?_of_blank (by decide) (hs c (by simp)) n
          exact absurd hn hblank
    · obtain ⟨c, s, rfl⟩ := List.exists_cons_of_ne_nil hne
      have hlen : v.length < headWord.length := by
        have hword := hp.length_eq
        have hpos := List.length_pos_of_ne_nil hx
        rw [List.length_append] at hword
        omega
      have hblank : headLength? (v ++ c :: (s ++ a ++ w)) ≠ some n :=
        headLength?_of_blank hlen (hs c List.mem_cons_self) n
      exact absurd (by simpa only [List.append_assoc, List.cons_append] using hn) hblank

/-! ## The plain search, step by step -/

theorem mem_placesBetween {P : Char → Bool} {text : List Char} {i j k : Nat}
    (h : k ∈ placesBetween P text i j) : i ≤ k ∧ k < j := by
  have hrange := List.mem_range'_1.mp (List.mem_filter.mp h).1
  omega

theorem commandEnd?_bounds {text : List Char} {i close : Nat}
    (h : commandEnd? text i = some close) : i ≤ close ∧ close < text.length := by
  obtain ⟨dash, hdash, hline⟩ := List.exists_of_findSome?_eq_some h
  obtain ⟨opener, hopener, hclose⟩ := List.exists_of_findSome?_eq_some hline
  have hle := mem_placesBetween hdash
  have hle' := mem_placesBetween hopener
  rw [equalQuote?] at hclose
  split at hclose
  · have hbounds := nextPlace?_ge hclose
    omega
  · exact absurd hclose.symm (Option.some_ne_none close)

theorem nextHead?_bounds {text : List Char} {i start stop : Nat}
    (h : nextHead? text i = some (start, stop)) :
    i ≤ start ∧ start < text.length ∧ start ≤ stop := by
  obtain ⟨k, hk, hhead⟩ := List.exists_of_findSome?_eq_some h
  obtain ⟨stop', hstop, heq⟩ := Option.map_eq_some_iff.mp hhead
  obtain ⟨rfl, rfl⟩ := Prod.mk.inj heq
  have hrange := List.mem_range'_1.mp hk
  have hle : k ≤ stop' := by
    rw [headEnd?_eq] at hstop
    obtain ⟨n, -, rfl⟩ := Option.map_eq_some_iff.mp hstop
    exact Nat.le_add_right k n
  omega

/-- The commands from `i` on, without any shortcut. -/
def searchFrom (text : List Char) (i : Nat) : List (List Char) :=
  match _ : nextHead? text i with
  | none => []
  | some (start, stop) =>
      match _ : commandEnd? text stop with
      | some close => text.extract start (close + 1) :: searchFrom text (close + 1)
      | none => searchFrom text (start + 1)
termination_by text.length - i
decreasing_by
  · have hhead := nextHead?_bounds ‹_›
    have hclose := commandEnd?_bounds ‹_›
    omega
  · have hhead := nextHead?_bounds ‹_›
    omega

theorem searchFrom_eq (text : List Char) (i : Nat) :
    searchFrom text i =
      match nextHead? text i with
      | none => []
      | some (start, stop) =>
          match commandEnd? text stop with
          | some close => text.extract start (close + 1) :: searchFrom text (close + 1)
          | none => searchFrom text (start + 1) := by
  rw [searchFrom]
  split
  · next h => rw [h]
  · next h =>
      rw [h]
      split
      · next h' => simp only [h']
      · next h' => simp only [h']

section Step

variable {text : List Char} {i n : Nat}

theorem nextHead?_of_head (hi : i < text.length) (h : headLength? (text.drop i) = some n) :
    nextHead? text i = some (i, i + n) := by
  obtain ⟨m, hm⟩ : ∃ m, text.length - i = m + 1 := ⟨text.length - i - 1, by omega⟩
  rw [nextHead?, hm, List.range'_succ, List.findSome?_cons, headEnd?_eq, h]
  rfl

theorem nextHead?_of_silent (h : headLength? (text.drop i) = none) :
    nextHead? text i = nextHead? text (i + 1) := by
  rw [nextHead?, nextHead?]
  by_cases hi : i < text.length
  · obtain ⟨m, hm⟩ : ∃ m, text.length - i = m + 1 := ⟨text.length - i - 1, by omega⟩
    have hm' : text.length - (i + 1) = m := by omega
    rw [hm, hm', List.range'_succ, List.findSome?_cons, headEnd?_eq, h]
    rfl
  · have hzero : text.length - i = 0 := by omega
    have hzero' : text.length - (i + 1) = 0 := by omega
    rw [hzero, hzero']
    rfl

theorem lt_length_of_head (h : headLength? (text.drop i) = some n) : i < text.length := by
  by_contra hle
  have hnone : headLength? [] = none := by decide
  rw [List.drop_eq_nil_of_le (Nat.le_of_not_lt hle), hnone] at h
  exact absurd h.symm (Option.some_ne_none n)

theorem searchFrom_found {close : Nat} (h : headLength? (text.drop i) = some n)
    (hclose : commandEnd? text (i + n) = some close) :
    searchFrom text i = text.extract i (close + 1) :: searchFrom text (close + 1) := by
  rw [searchFrom_eq, nextHead?_of_head (lt_length_of_head h) h]
  simp only [hclose]

theorem searchFrom_barren
    (h : ∀ n, headLength? (text.drop i) = some n → commandEnd? text (i + n) = none) :
    searchFrom text i = searchFrom text (i + 1) := by
  cases hhead : headLength? (text.drop i) with
  | some n =>
      rw [searchFrom_eq, nextHead?_of_head (lt_length_of_head hhead) hhead]
      simp only [h n hhead]
  | none => rw [searchFrom_eq, nextHead?_of_silent hhead, ← searchFrom_eq]

theorem searchFrom_skip {m : Nat} (h : ∀ k, i ≤ k → k < i + m →
    ∀ n, headLength? (text.drop k) = some n → commandEnd? text (k + n) = none) :
    searchFrom text i = searchFrom text (i + m) := by
  induction m with
  | zero => rfl
  | succ m ih =>
      rw [ih fun k hle hlt => h k hle (Nat.lt_succ_of_lt hlt)]
      exact searchFrom_barren (h (i + m) (Nat.le_add_right i m) (Nat.lt_succ_self _))

theorem searchFrom_of_nil (h : text.drop i = []) : searchFrom text i = [] := by
  have hzero : text.length - i = 0 := Nat.sub_eq_zero_of_le (length_le_of_drop h)
  rw [searchFrom_eq, nextHead?, hzero]
  rfl

end Step

/-! ## The two searches -/

theorem commandEnd?_eq_none_iff (text : List Char) (i : Nat) :
    commandEnd? text i = none ↔ everyDashEnd? 0 (text.drop i) = none := by
  rw [everyDashEnd?_eq_none_iff 0 i, everyDashEnd?_eq text _ i rfl, Option.map_eq_none_iff]

/-- The two searches for the end of a command agree, one counting from the head and
the other from the start of the text. -/
theorem argumentsEnd?_eq_commandEnd? (text : List Char) (i n : Nat) :
    (argumentsEnd? false n (text.drop (i + n))).map (i + ·) =
      (commandEnd? text (i + n)).map (· + 1) := by
  rw [argumentsEnd?_eq _ false n (by simp), ← everyDashEnd?_add, everyDashEnd?_eq text _ _ rfl]

theorem at?_found {b : Option Char} {text : List Char} {n stop : Nat}
    (h : headLength? text = some n) (hstop : argumentsEnd? false n (text.drop n) = some stop) :
    at? b text = some (some (text.take stop), stop) := by
  simp only [at?, h, hstop]

theorem at?_dead {b : Option Char} {text : List Char} {n : Nat}
    (h : headLength? text = some n) (hstop : argumentsEnd? false n (text.drop n) = none) :
    at? b text =
      some (none, n + ((text.drop n).takeWhile fun c => !endsArguments c).length) := by
  simp only [at?, h, hstop]

theorem at?_silent {b : Option Char} {text : List Char} (h : headLength? text = none) :
    at? b text = none := by
  simp only [at?, h]

theorem commandEnd?_of_dead {text : List Char} {i n : Nat} (h : headLength? (text.drop i) = some n)
    (hdead : commandEnd? text (i + n) = none) {k : Nat} (hle : i ≤ k)
    (hlt : k < i + (n + ((text.drop (i + n)).takeWhile fun c => !endsArguments c).length))
    {m : Nat} (hn : headLength? (text.drop k) = some m) : commandEnd? text (k + m) = none := by
  obtain ⟨p, s, rest, htext, hp, hne, hs, rfl⟩ := headLength?_eq_some h
  have hrest : text.drop (i + (p ++ s).length) = rest := by
    rw [← List.drop_drop, htext, List.drop_left]
  rw [commandEnd?_eq_none_iff, hrest] at hdead
  rw [hrest] at hlt
  generalize hargs : (rest.takeWhile fun c => !endsArguments c) = a at hlt
  generalize hbehind : (rest.dropWhile fun c => !endsArguments c) = w
  obtain rfl : a ++ w = rest := by rw [← hargs, ← hbehind, List.takeWhile_append_dropWhile]
  have ha : ∀ c ∈ a, endsArguments c = false := by
    intro c hc
    rw [← hargs] at hc
    simpa using List.mem_takeWhile_imp hc
  have hw : ∀ c ∈ w.head?, endsArguments c = true := by
    intro c hc
    have hstop := List.head?_dropWhile_not (fun c => !endsArguments c) (a ++ w)
    rw [hbehind, Option.mem_def.mp hc] at hstop
    simpa using hstop
  -- Up to `k` lies `x`, and from `k` on to the end of the arguments lies `y`.
  obtain ⟨x, y, hxy, hlen⟩ : ∃ x y, p ++ s ++ a = x ++ y ∧ x.length = k - i := by
    refine ⟨(p ++ s ++ a).take (k - i), (p ++ s ++ a).drop (k - i),
      (List.take_append_drop _ _).symm, ?_⟩
    rw [List.length_take, List.length_append]
    omega
  have hdrop : text.drop k = y ++ w := by
    have hk : k = i + x.length := by omega
    rw [hk, ← List.drop_drop, htext, ← List.append_assoc, hxy, List.append_assoc, List.drop_left]
  rw [hdrop] at hn
  rw [commandEnd?_eq_none_iff, ← List.drop_drop, hdrop]
  by_cases hx : x = []
  · subst hx
    obtain rfl : p ++ s ++ a = y := hxy
    rw [htext, ← List.append_assoc, hn] at h
    obtain rfl := Option.some.inj h
    rw [List.append_assoc, List.drop_left]
    exact hdead
  · exact barren_of_dead hp hne hs ha hw hdead hx hxy hn

theorem searchFrom_dead {text : List Char} {i n : Nat} (h : headLength? (text.drop i) = some n)
    (hdead : commandEnd? text (i + n) = none) :
    searchFrom text i = searchFrom text
      (i + (n + ((text.drop (i + n)).takeWhile fun c => !endsArguments c).length)) :=
  searchFrom_skip fun _ hle hlt _ hm => commandEnd?_of_dead h hdead hle hlt hm

theorem scan_command {text : List Char} {i n close : Nat} (b : Option Char)
    (h : headLength? (text.drop i) = some n) (hclose : commandEnd? text (i + n) = some close) :
    ∃ b', scan at? 0 b (text.drop i) =
      some (text.extract i (close + 1)) :: scan at? 0 b' (text.drop (close + 1)) := by
  have hends := argumentsEnd?_eq_commandEnd? text i n
  rw [hclose] at hends
  obtain ⟨stop, hstop, hsum⟩ := Option.map_eq_some_iff.mp hends
  replace hsum : i + stop = close + 1 := hsum
  have hbounds := commandEnd?_bounds hclose
  have hwidth : close + 1 - i = stop := by omega
  have hlen : stop ≤ (text.drop i).length := by
    rw [List.length_drop]
    omega
  have hat : at? b (text.drop i) = some (some ((text.drop i).take stop), stop) :=
    at?_found h (by rw [List.drop_drop]; exact hstop)
  have hscan := scan_taken (by omega) hlen hat
  rw [List.drop_drop, hsum] at hscan
  rw [List.extract, hwidth]
  exact ⟨_, hscan⟩

/-- At a head that leads nowhere the walk finds nothing, and passes what the plain
search may skip. -/
theorem scan_dead {text : List Char} {i n : Nat} (b : Option Char)
    (h : headLength? (text.drop i) = some n) (hdead : commandEnd? text (i + n) = none) :
    ∃ b' k, 0 < k ∧ scan at? 0 b (text.drop i) = none :: scan at? 0 b' (text.drop (i + k)) ∧
      searchFrom text i = searchFrom text (i + k) := by
  have hends := argumentsEnd?_eq_commandEnd? text i n
  rw [hdead] at hends
  have hstop : argumentsEnd? false n (text.drop (i + n)) = none :=
    Option.map_eq_none_iff.mp hends
  obtain ⟨hpos, hle⟩ := headLength?_bounds h
  have hat := at?_dead h (b := b) (by rw [List.drop_drop]; exact hstop)
  rw [List.drop_drop] at hat
  have hlen : n + ((text.drop (i + n)).takeWhile fun c => !endsArguments c).length ≤
      (text.drop i).length := by
    have hargs := (List.takeWhile_sublist (l := text.drop (i + n))
      fun c => !endsArguments c).length_le
    rw [List.length_drop] at hle hargs ⊢
    omega
  have hscan := scan_taken (Nat.add_pos_left hpos _) hlen hat
  rw [List.drop_drop] at hscan
  exact ⟨_, _, Nat.add_pos_left hpos _, hscan, searchFrom_dead h hdead⟩

/-- The walk and the plain search find the same from every place on. -/
theorem filterMap_scan_eq_searchFrom (text : List Char) (i : Nat) (b : Option Char) :
    (scan at? 0 b (text.drop i)).filterMap id = searchFrom text i := by
  induction hm : text.length - i using Nat.strong_induction_on generalizing i b with
  | _ m ih =>
      cases hhead : headLength? (text.drop i) with
      | none =>
          have hbarren : searchFrom text i = searchFrom text (i + 1) :=
            searchFrom_barren fun n hn => absurd (hhead.symm.trans hn).symm (Option.some_ne_none n)
          cases hdrop : text.drop i with
          | nil => rw [searchFrom_of_nil hdrop]; rfl
          | cons c cs =>
              rw [hdrop] at hhead
              have hlt := lt_length_of_drop hdrop
              rw [scan, at?_silent hhead, hbarren, ← drop_succ_of_drop hdrop]
              exact ih _ (by omega) (i + 1) (some c) rfl
      | some n =>
          have hlt := lt_length_of_head hhead
          cases hclose : commandEnd? text (i + n) with
          | some close =>
              obtain ⟨b', hscan⟩ := scan_command b hhead hclose
              have hbounds := commandEnd?_bounds hclose
              rw [hscan, searchFrom_found hhead hclose, List.filterMap_cons,
                ih _ (by omega) (close + 1) b' rfl]
              rfl
          | none =>
              obtain ⟨b', k, hk, hscan, hsearch⟩ := scan_dead b hhead hclose
              rw [hscan, hsearch, List.filterMap_cons, ih _ (by omega) (i + k) b' rfl]
              rfl

/-- The commands that are found in a text are those of the plain search. -/
theorem inText_eq_search (text : String) :
    inText text = (searchFrom (unescape text).toList 0).map String.ofList := by
  rw [inText, inPlainText, findAll, unescape, String.toList_ofList]
  rw [← filterMap_scan_eq_searchFrom (unescapeChars text.toList) 0 none, List.drop_zero]

end Unmask.ShellCommand
