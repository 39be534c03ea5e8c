/-
# `Unmask.Proofs.LiteralValue` — the value of a literal is exact, up to one clamp

`Literal.value?` reads its digits from the left into a word of 128 bits, and the
accumulator sticks at the upper end of the word: after each product and after each
sum.  Here the digits are given the number that they write, of whatever size
(`numeral`), and the two are compared.

* Sticking at every step is the same as clamping the number once, at the end
  (`magnitude_eq_min`).  The reason is one step (`push_clamped`): an accumulator that
  sticks stays where it is, since neither a product with the base nor one more digit
  takes it below the end of the word again.  Leading zeros do no harm, in either base.
* What the digits are is said of the text alone, once for hexadecimal literals
  (`IsHexLiteral`) and once for all others (`DecimalForm`): white space, at most one
  sign, the digits that follow, and anything behind them.  Every text has such a
  reading, and it has one only, because each part is as long as can be.

`value?_exact` puts these together, and adds that the reading in words meets no
overflow: the magnitude is clamped before the sign is applied, so its negation fits.
-/
import Mathlib.Data.Nat.Digits.Lemmas
import Unmask.Proofs.ByOffset.Numbers
import Unmask.Proofs.LiteralBands

namespace Unmask.Literal

/-! ## The number that digits write -/

/-- The place of a digit among the sixteen, in either case of the letters. -/
def digitRank (c : Char) : Nat := "0123456789abcdef".toList.idxOf c.toLower

/-- The number that digits write in a base, the last digit counting once. -/
def numeral (base : Nat) (digits : List Char) : Nat :=
  Nat.ofDigits base (digits.reverse.map digitRank)

theorem numeral_nil (base : Nat) : numeral base [] = 0 := rfl

theorem numeral_concat (base : Nat) (digits : List Char) (d : Char) :
    numeral base (digits ++ [d]) = numeral base digits * base + digitRank d := by
  rw [numeral, List.reverse_append, List.reverse_singleton, List.singleton_append,
    List.map_cons, Nat.ofDigits_cons, numeral]
  ring

theorem digitValue_eq_digitRank {c : Char} (h : Name.isHexDigit c = true) :
    digitValue c = digitRank c := by
  have hascii : ∀ n < 128, Name.isHexDigit (Char.ofNat n) = true →
      digitValue (Char.ofNat n) = digitRank (Char.ofNat n) := by
    decide +kernel
  have hc := hascii c.toNat (ByOffset.lt_of_isHexDigit h)
  rw [Char.ofNat_toNat] at hc
  exact hc h

/-! ## Sticking and clamping -/

/-- One more digit of a number that was clamped is one more digit of the number,
clamped. -/
theorem push_clamped (base n : Nat) (c : Char) :
    push base (min n ceiling) c = min (n * base + digitValue c) ceiling := by
  rw [push]
  rcases Nat.le_total n ceiling with hle | hge
  · rw [Nat.min_eq_left hle]
    generalize n * base = product
    omega
  · rw [Nat.min_eq_right hge]
    rcases Nat.eq_zero_or_pos base with rfl | hpos
    · simp only [Nat.mul_zero]
      omega
    · -- Both products are at the end of the word or above it.
      have hstuck : ceiling ≤ ceiling * base := Nat.le_mul_of_pos_right _ hpos
      have hexact : ceiling ≤ n * base := hge.trans (Nat.le_mul_of_pos_right _ hpos)
      omega

theorem magnitude_concat (base : Nat) (digits : List Char) (d : Char) :
    magnitude base (digits ++ [d]) = push base (magnitude base digits) d := by
  rw [magnitude, List.foldl_concat, magnitude]

theorem magnitude_eq_min (base : Nat) {digits : List Char}
    (h : ∀ d ∈ digits, Name.isHexDigit d = true) :
    magnitude base digits = min (numeral base digits) ceiling := by
  induction digits using List.reverseRecOn with
  | nil => rfl
  | append_singleton digits d ih =>
      have hd : Name.isHexDigit d = true := h d (by simp)
      have hdigits : ∀ x ∈ digits, Name.isHexDigit x = true :=
        fun x hx => h x (List.mem_append_left _ hx)
      rw [magnitude_concat, ih hdigits, push_clamped, numeral_concat, digitValue_eq_digitRank hd]

theorem isHexDigit_of_isDigit {c : Char} (h : c.isDigit = true) : Name.isHexDigit c = true := by
  simp [Name.isHexDigit, h]

theorem ceiling_eq : ceiling = 2 ^ 127 - 1 := by norm_num [ceiling]

/-! ## How a text is read -/

def signFactor (sign : List Char) : Int := if sign = ['-'] then -1 else 1

theorem withSign_eq (sign : List Char) (m : Nat) :
    withSign (sign == ['-']) m = signFactor sign * m := by
  by_cases h : sign = ['-']
  · simp [withSign, signFactor, h]
  · simp [withSign, signFactor, h]

/-- A text that is no hexadecimal literal, cut for reading: white space, a sign if there
is one, the digits that follow and the rest.  Each part is as long as can be. -/
structure DecimalForm (cs blanks sign digits rest : List Char) : Prop where
  eq : cs = blanks ++ (sign ++ (digits ++ rest))
  allBlank : ∀ c ∈ blanks, isBlank c = true
  isSign : IsSignText sign
  allDigits : ∀ d ∈ digits, d.isDigit = true
  blanks_end : ∀ c ∈ (sign ++ (digits ++ rest)).head?, isBlank c = false
  sign_taken : sign = [] → ∀ c ∈ (digits ++ rest).head?, c ≠ '-' ∧ c ≠ '+'
  digits_end : ∀ c ∈ rest.head?, c.isDigit = false

theorem splitSign_of_taken {sign rest : List Char} (hsign : IsSignText sign)
    (htaken : sign = [] → ∀ c ∈ rest.head?, c ≠ '-' ∧ c ≠ '+') :
    splitSign (sign ++ rest) = (sign == ['-'], rest) := by
  rcases hsign with rfl | rfl | rfl
  · rw [List.nil_append]
    unfold splitSign
    split
    · exact absurd rfl (htaken rfl '-' rfl).1
    · exact absurd rfl (htaken rfl '+' rfl).2
    · rfl
  · rfl
  · rfl

theorem value?_of_decimalForm {cs blanks sign digits rest : List Char}
    (hhex : ¬ IsHexLiteral cs) (h : DecimalForm cs blanks sign digits rest) :
    value? cs = if digits = [] then none
      else some (signFactor sign * (min (numeral 10 digits) ceiling : Nat)) := by
  have hblanks : cs.dropWhile isBlank = sign ++ (digits ++ rest) := by
    rw [h.eq]
    exact (takeWhile_dropWhile_append h.allBlank h.blanks_end).2
  have hdigits : (digits ++ rest).takeWhile Char.isDigit = digits :=
    (takeWhile_dropWhile_append h.allDigits h.digits_end).1
  have hmagnitude : magnitude 10 digits = min (numeral 10 digits) ceiling :=
    magnitude_eq_min 10 fun d hd => isHexDigit_of_isDigit (h.allDigits d hd)
  rw [value?, if_neg fun hcs => hhex (isHex_iff.mp hcs), hblanks,
    splitSign_of_taken h.isSign h.sign_taken]
  simp only [hdigits, hmagnitude, withSign_eq, List.isEmpty_iff]

theorem exists_decimalForm (cs : List Char) :
    ∃ blanks sign digits rest, DecimalForm cs blanks sign digits rest := by
  -- The text behind the white space, cut behind its sign and again behind its digits.
  obtain ⟨sign, rest, hsplit, hsign, htaken⟩ : ∃ sign rest,
      cs.dropWhile isBlank = sign ++ rest ∧ IsSignText sign ∧
        (sign = [] → ∀ c ∈ rest.head?, c ≠ '-' ∧ c ≠ '+') := by
    cases hbehind : cs.dropWhile isBlank with
    | nil => exact ⟨[], [], rfl, Or.inl rfl, by simp⟩
    | cons c behind =>
        by_cases hminus : c = '-'
        · exact ⟨['-'], behind, by rw [hminus]; rfl, Or.inr (Or.inl rfl), by simp⟩
        · by_cases hplus : c = '+'
          · exact ⟨['+'], behind, by rw [hplus]; rfl, Or.inr (Or.inr rfl), by simp⟩
          · exact ⟨[], c :: behind, rfl, Or.inl rfl, by simp [hminus, hplus]⟩
  refine ⟨cs.takeWhile isBlank, sign, rest.takeWhile Char.isDigit,
    rest.dropWhile Char.isDigit, ?_⟩
  have hrest : rest.takeWhile Char.isDigit ++ rest.dropWhile Char.isDigit = rest :=
    List.takeWhile_append_dropWhile
  constructor
  · rw [hrest, ← hsplit, List.takeWhile_append_dropWhile]
  · exact fun c hc => List.mem_takeWhile_imp hc
  · exact hsign
  · exact fun d hd => List.mem_takeWhile_imp hd
  · rw [hrest, ← hsplit]
    exact head?_dropWhile_eq_false _ cs
  · rw [hrest]
    exact htaken
  · exact head?_dropWhile_eq_false _ rest

/-! ## The value -/

theorem value?_of_hex {cs sign digits : List Char} (hcs : cs = sign ++ '0' :: 'x' :: digits)
    (hsign : IsSignText sign) (hrun : IsHexRun ('0' :: 'x' :: digits)) :
    value? cs = some (signFactor sign * (min (numeral 16 digits) ceiling : Nat)) := by
  have hdigits : ∀ d ∈ digits, Name.isHexDigit d = true := by
    obtain ⟨run, hsame, -, hall⟩ := hrun
    rw [(List.cons.inj (List.cons.inj hsame).2).2]
    exact hall
  have hmagnitude : magnitude 16 digits = min (numeral 16 digits) ceiling :=
    magnitude_eq_min 16 hdigits
  rw [hcs, value?_append hsign hrun, withSign_eq]
  exact congrArg (fun m : Nat => some (signFactor sign * (m : Int))) hmagnitude

/-- In words, too, the accumulator holds the number of the digits so far, clamped. -/
theorem foldl_pushDigit_eq_min (base : Nat) {digits : List Char}
    (h : ∀ d ∈ digits, Name.isHexDigit d = true) :
    digits.foldl (fun acc d => ByOffset.pushDigit base acc (digitValue d)) 0 =
      (min (numeral base digits) ceiling : Nat) := by
  have hwords := ByOffset.foldl_pushDigit base digits 0
  rw [Int.natCast_zero] at hwords
  rw [hwords]
  exact congrArg Nat.cast (magnitude_eq_min base h)

/-- The value of a literal is exact up to one clamp at `2 ^ 127 - 1`.  A hexadecimal
literal stands for what its digits write in base 16, with its sign.  Any other text is
read behind its white space and one sign: without a digit there it stands for nothing,
and else for what the digits there write in base 10, whatever follows them.  When this
is done in words of 128 bits, the accumulator holds the number of the digits so far,
clamped, and no step overflows, the negation included. -/
theorem value?_exact (literal : String) :
    (∀ sign digits, literal.toList = sign ++ '0' :: 'x' :: digits → IsSignText sign →
      IsHexRun ('0' :: 'x' :: digits) →
      value? literal.toList =
        some (signFactor sign * (min (numeral 16 digits) (2 ^ 127 - 1) : Nat))) ∧
    (¬ IsHexLiteral literal.toList →
      (∃ blanks sign digits rest, DecimalForm literal.toList blanks sign digits rest) ∧
      ∀ blanks sign digits rest, DecimalForm literal.toList blanks sign digits rest →
        value? literal.toList = if digits = [] then none
          else some (signFactor sign * (min (numeral 10 digits) (2 ^ 127 - 1) : Nat))) ∧
    (∀ (base : Nat) (digits : List Char), (∀ d ∈ digits, Name.isHexDigit d = true) →
      digits.foldl (fun acc d => ByOffset.pushDigit base acc (digitValue d)) 0 =
        (min (numeral base digits) (2 ^ 127 - 1) : Nat)) ∧
    ByOffset.value literal.toList = .ok (value? literal.toList) := by
  rw [← ceiling_eq]
  refine ⟨?_, ?_, ?_, ByOffset.value_eq _⟩
  · intro sign digits hcs hsign hrun
    exact value?_of_hex hcs hsign hrun
  · intro hhex
    refine ⟨exists_decimalForm _, ?_⟩
    intro blanks sign digits rest hform
    exact value?_of_decimalForm hhex hform
  · intro base digits hdigits
    exact foldl_pushDigit_eq_min base hdigits

/-- One more than the word holds behind a minus; leading zeros behind a blank of two
bytes and a plus, with something behind the digits; and a second sign where a digit
should be. -/
theorem value?_exact_saturated :
    value? "-0x80000000000000000000000000000000".toList = some (-(2 ^ 127 - 1)) ∧
      DecimalForm "\u00a0+0042px".toList ['\u00a0'] ['+'] ['0', '0', '4', '2'] ['p', 'x'] ∧
      value? "\u00a0+0042px".toList = some 42 ∧
      value? "+-5".toList = none := by
  have hrun : IsHexRun "0x80000000000000000000000000000000".toList :=
    ⟨_, rfl, by decide, List.all_eq_true.mp (by decide)⟩
  have hform : DecimalForm "\u00a0+0042px".toList ['\u00a0'] ['+'] ['0', '0', '4', '2']
      ['p', 'x'] :=
    ⟨by decide +kernel, List.all_eq_true.mp (by decide), Or.inr (Or.inr rfl),
      List.all_eq_true.mp (by decide), by rintro _ ⟨⟩; decide, by simp, by rintro _ ⟨⟩; decide⟩
  have hnone : DecimalForm "+-5".toList [] ['+'] [] ['-', '5'] :=
    ⟨rfl, List.forall_mem_nil _, Or.inr (Or.inr rfl), List.forall_mem_nil _,
      by rintro _ ⟨⟩; decide, by simp, by rintro _ ⟨⟩; decide⟩
  refine ⟨?_, hform, ?_, ?_⟩
  · rw [(value?_exact "-0x80000000000000000000000000000000").1 ['-'] _ rfl
      (Or.inr (Or.inl rfl)) hrun]
    decide +kernel
  · rw [((value?_exact "\u00a0+0042px").2.1 (by decide)).2 _ _ _ _ hform]
    decide +kernel
  · exact ((value?_exact "+-5").2.1 (by decide)).2 _ _ _ _ hnone

end Unmask.Literal
