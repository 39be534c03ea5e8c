/-
# `Unmask.Proofs.ByOffset.Numbers` — the values of literals, by offsets and in words

A literal is read here byte by byte, and its value is kept in a signed word of 128
bits.  Products and sums stick at the ends of the word; a negation or a magnitude
that does not fit is a fault, and so is a digit below `'0'`.

None of these faults is met (`value_eq`, `looksScrambled_eq`).  The magnitude of a
literal sticks at the upper end of the word (`magnitude_le`), and the lower end is
further away from zero than that, so its negation fits.
-/
import Mathlib.Algebra.Group.Int.Defs
import Unmask.Proofs.ByOffset.Access
import Unmask.Renaming

namespace Unmask.ByOffset

/-! ## Words -/

/-- The lower end of a word. -/
def least : Int := -2 ^ 127

def greatest : Int := 2 ^ 127 - 1

/-- A result that has to fit a word. -/
def word (v : Int) : Checked Int :=
  if least ≤ v ∧ v ≤ greatest then .ok v else .error .overflow

/-- A result that sticks at the ends of a word. -/
def saturated (v : Int) : Int := max least (min greatest v)

def pushDigit (base acc : Int) (digit : Nat) : Int := saturated (saturated (acc * base) + digit)

def withSign (negative : Bool) (m : Int) : Checked Int := if negative then word (-m) else .ok m

/-! ## Literals -/

/-- The number that a hexadecimal literal stands for: behind the signs and two bytes
there are its digits. -/
def hexValue (cs : List Char) : Checked Int := do
  let digits ← dropBytes 2 (cs.dropWhile isSign)
  let m := (octets digits).foldl (fun acc b => pushDigit 16 acc (Literal.digitValue b)) 0
  withSign (cs.head? == some '-') m

def splitSign (cs : List Char) : Checked (Bool × List Char) :=
  if (octets cs).head? = some '-' then do
    let rest ← dropBytes 1 cs
    .ok (true, rest)
  else if (octets cs).head? = some '+' then do
    let rest ← dropBytes 1 cs
    .ok (false, rest)
  else .ok (false, cs)

def pushDecimal (acc : Int) (b : Char) : Checked Int := do
  let digit ← minus b.toNat '0'.toNat
  .ok (pushDigit 10 acc digit)

/-- The number that the decimal digits at the start of a literal stand for. -/
def decimalValue (cs : List Char) : Checked (Option Int) := do
  let (negative, rest) ← splitSign (cs.dropWhile isBlank)
  let digits := (octets rest).takeWhile Char.isDigit
  if digits.isEmpty then .ok none
  else do
    let m ← digits.foldlM pushDecimal 0
    let v ← withSign negative m
    .ok (some v)

def value (cs : List Char) : Checked (Option Int) :=
  if Literal.isHex cs then do
    let v ← hexValue cs
    .ok (some v)
  else decimalValue cs

def looksScrambled (cs : List Char) : Checked Bool := do
  match ← value cs with
  | none => .ok false
  | some v => do
      let n ← if Literal.isHex cs then word v.natAbs else .ok v
      .ok (!Literal.isCommon cs && Literal.inBand cs n)

def decodedNumber (literal : String) : Checked String := do
  let v ← value literal.toList
  let v := v.getD 0
  .ok (if 32 ≤ v && v ≤ 126 then quotedChar (Char.ofNat v.toNat) else toString v)

/-! ## Magnitudes -/

theorem pushDigit_natCast (base acc digit : Nat) :
    pushDigit base acc digit =
      (min Literal.ceiling (min Literal.ceiling (acc * base) + digit) : Nat) := by
  have hproduct : (acc : Int) * base = (acc * base : Nat) := by push_cast; rfl
  rw [pushDigit, hproduct]
  generalize acc * base = x
  simp only [saturated, least, greatest, Literal.ceiling]
  omega

theorem foldl_pushDigit (base : Nat) (digits : List Char) (acc : Nat) :
    digits.foldl (fun acc b => pushDigit base acc (Literal.digitValue b)) (acc : Int) =
      (digits.foldl (Literal.push base) acc : Nat) := by
  induction digits generalizing acc with
  | nil => rfl
  | cons d digits ih =>
      rw [List.foldl_cons, List.foldl_cons, pushDigit_natCast]
      exact ih _

theorem magnitude_le (base : Nat) (digits : List Char) :
    Literal.magnitude base digits ≤ Literal.ceiling := by
  rcases List.eq_nil_or_concat digits with rfl | ⟨front, d, rfl⟩
  · exact Nat.zero_le _
  · rw [Literal.magnitude, List.concat_eq_append, List.foldl_concat]
    exact Nat.min_le_left _ _

/-- The negation of what sticks at the upper end fits. -/
theorem withSign_magnitude (negative : Bool) (base : Nat) (digits : List Char) :
    withSign negative (Literal.magnitude base digits : Nat) =
      .ok (Literal.withSign negative (Literal.magnitude base digits)) := by
  have hle := magnitude_le base digits
  cases negative with
  | false => rfl
  | true =>
      have hfits : least ≤ -(Literal.magnitude base digits : Int) ∧
          -(Literal.magnitude base digits : Int) ≤ greatest := by
        simp only [least, greatest, Literal.ceiling] at hle ⊢
        omega
      exact if_pos hfits

/-! ## Digits and signs in bytes -/

theorem toNat_of_isDigit {c : Char} (h : c.isDigit = true) : 48 ≤ c.toNat ∧ c.toNat ≤ 57 := by
  simp only [Char.isDigit, ge_iff_le, Bool.and_eq_true, decide_eq_true_eq,
    UInt32.le_iff_toNat_le] at h
  exact h

theorem lt_of_isDigit {c : Char} (h : c.isDigit = true) : c.toNat < 128 := by
  have := toNat_of_isDigit h
  omega

theorem byteClass_isDigit : ByteClass Char.isDigit := byteClass_of_lt fun _ => lt_of_isDigit

theorem lt_of_isHexDigit {c : Char} (h : Name.isHexDigit c = true) : c.toNat < 128 := by
  simp only [Name.isHexDigit, Bool.or_eq_true, Bool.and_eq_true, decide_eq_true_eq,
    Char.le_def, UInt32.le_iff_toNat_le] at h
  rcases h with (h | ⟨-, h⟩) | ⟨-, h⟩
  · exact lt_of_isDigit h
  · change c.toNat ≤ 102 at h
    omega
  · change c.toNat ≤ 70 at h
    omega

theorem digitValue_of_isDigit {c : Char} (h : c.isDigit = true) :
    Literal.digitValue c = c.toNat - 48 :=
  if_pos h

/-- A byte that was taken for a decimal digit is not below `'0'`. -/
theorem foldlM_pushDecimal {digits : List Char} (h : ∀ d ∈ digits, d.isDigit = true) :
    digits.foldlM pushDecimal 0 = .ok ((Literal.magnitude 10 digits : Nat) : Int) := by
  rw [foldlM_ok (g := fun acc d => pushDigit 10 acc (Literal.digitValue d))]
  · exact congrArg Except.ok (foldl_pushDigit 10 digits 0)
  · intro acc d hd
    have hle : '0'.toNat ≤ d.toNat := (toNat_of_isDigit (h d hd)).1
    rw [pushDecimal, minus, if_pos hle, ok_bind, digitValue_of_isDigit (h d hd)]
    rfl

/-! ## The value of a literal -/

theorem dropBytes_one {c : Char} (hc : c.toNat < 128) (cs : List Char) :
    dropBytes 1 (c :: cs) = .ok cs := by
  have h := dropBytes_append [c] cs
  rw [byteLength_of_lt hc] at h
  exact h

theorem splitSign_eq (cs : List Char) : splitSign cs = .ok (Literal.splitSign cs) := by
  cases cs with
  | nil => rfl
  | cons c cs =>
      simp only [splitSign, head?_octets (d := '-') (by decide), head?_octets (d := '+') (by decide),
        List.head?_cons, Option.some.injEq]
      split_ifs with hminus hplus
      · subst hminus
        rw [dropBytes_one (by decide)]
        rfl
      · subst hplus
        rw [dropBytes_one (by decide)]
        rfl
      · unfold Literal.splitSign
        split
        · next heq => exact absurd (List.cons.inj heq).1 hminus
        · next heq => exact absurd (List.cons.inj heq).1 hplus
        · rfl

theorem dropWhile_isSign {cs : List Char} (h : Literal.isHex cs = true) :
    cs.dropWhile isSign = (Literal.splitSign cs).2 ∧
      (cs.head? == some '-') = (Literal.splitSign cs).1 := by
  rw [Literal.isHex] at h
  obtain ⟨digits, hrun, -, -⟩ := isHexRun_iff.mp h
  unfold Literal.splitSign at hrun ⊢
  split at hrun
  · subst hrun
    exact ⟨rfl, rfl⟩
  · subst hrun
    exact ⟨rfl, rfl⟩
  · subst hrun
    exact ⟨rfl, rfl⟩

theorem hexValue_eq {cs : List Char} (h : Literal.isHex cs = true) :
    hexValue cs = .ok (Literal.withSign (Literal.splitSign cs).1
      (Literal.magnitude 16 ((Literal.splitSign cs).2.drop 2))) := by
  obtain ⟨hrun, hsign⟩ := dropWhile_isSign h
  rw [Literal.isHex] at h
  obtain ⟨digits, hdigits, -, hall⟩ := isHexRun_iff.mp h
  have hdrop : dropBytes 2 ('0' :: 'x' :: digits) = .ok digits :=
    dropBytes_append ['0', 'x'] digits
  have hfold : digits.foldl (fun acc b => pushDigit 16 acc (Literal.digitValue b)) 0 =
      (Literal.magnitude 16 digits : Nat) := foldl_pushDigit 16 digits 0
  rw [hexValue, hrun, hsign, hdigits, hdrop, ok_bind,
    octets_of_ascii fun d hd => lt_of_isHexDigit (hall d hd), hfold]
  exact withSign_magnitude _ 16 digits

theorem decimalValue_eq (cs : List Char) :
    decimalValue cs = .ok (
      let (negative, rest) := Literal.splitSign (cs.dropWhile isBlank)
      let digits := rest.takeWhile Char.isDigit
      if digits.isEmpty then none
      else some (Literal.withSign negative (Literal.magnitude 10 digits))) := by
  rw [decimalValue, splitSign_eq, ok_bind]
  generalize Literal.splitSign (cs.dropWhile isBlank) = split
  obtain ⟨negative, rest⟩ := split
  have hdigit : ∀ d ∈ rest.takeWhile Char.isDigit, d.isDigit = true :=
    fun d hd => List.mem_takeWhile_imp hd
  have hascii : ∀ d ∈ rest.takeWhile Char.isDigit, d.toNat < 128 :=
    fun d hd => lt_of_isDigit (hdigit d hd)
  simp only [takeWhile_octets byteClass_isDigit, octets_of_ascii hascii]
  split_ifs
  · rfl
  · rw [foldlM_pushDecimal hdigit, ok_bind, withSign_magnitude, ok_bind]

theorem value_eq (cs : List Char) : value cs = .ok (Literal.value? cs) := by
  rw [value, Literal.value?]
  split_ifs with hhex
  · rw [hexValue_eq hhex, ok_bind]
  · exact decimalValue_eq cs

theorem natAbs_value?_le {cs : List Char} {v : Int} (h : Literal.value? cs = some v) :
    v.natAbs ≤ Literal.ceiling := by
  have hsign : ∀ (negative : Bool) (base : Nat) (digits : List Char),
      (Literal.withSign negative (Literal.magnitude base digits)).natAbs ≤ Literal.ceiling := by
    intro negative base digits
    have hle := magnitude_le base digits
    cases negative with
    | false => exact hle
    | true =>
        rw [Literal.withSign, if_pos rfl, Int.natAbs_neg]
        exact hle
  rw [Literal.value?] at h
  split_ifs at h with hhex
  · rw [← Option.some.inj h]
    exact hsign _ _ _
  · simp only [Option.ite_none_left_eq_some, Option.some.injEq] at h
    rw [← h.2]
    exact hsign _ _ _

theorem word_natAbs {cs : List Char} {v : Int} (h : Literal.value? cs = some v) :
    word v.natAbs = .ok (v.natAbs : Int) := by
  have hle := natAbs_value?_le h
  refine if_pos ?_
  simp only [least, greatest, Literal.ceiling] at hle ⊢
  omega

theorem looksScrambled_eq (cs : List Char) :
    looksScrambled cs = .ok (Literal.looksScrambled cs) := by
  rw [looksScrambled, value_eq, ok_bind, Literal.looksScrambled]
  cases hvalue : Literal.value? cs with
  | none => rfl
  | some v =>
      simp only [Literal.score, word_natAbs hvalue]
      split_ifs <;> rfl

theorem decodedNumber_eq (literal : String) :
    decodedNumber literal = .ok (Unmask.decodedNumber literal) := by
  rw [decodedNumber, value_eq, ok_bind]
  rfl

end Unmask.ByOffset
