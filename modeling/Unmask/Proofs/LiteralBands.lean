/-
# `Unmask.Proofs.LiteralBands` — the bands of suspicious numbers are one threshold

`Literal.inBand` lists eight bands.  Seven are asked about the value, among them the
codes of printable characters, most numbers of three digits and those of four to six.
These seven lie above 15, and one of them takes everything from 16 on: the numbers with
two or more hexadecimal digits.  So only that one counts, and beside it the band that
is asked about the text alone, four or more decimal digits (`inBand_iff`).

What is asked is the value for a decimal literal and its magnitude for a hexadecimal
one.  This decides the part that the sign plays: none for hexadecimal literals, and
for decimal ones a minus takes the number out of every band
(`looksScrambled_threshold`).
-/
import Mathlib.Algebra.Order.Group.Unbundled.Abs
import Mathlib.Algebra.Order.Ring.Int
import Unmask.Proofs.TokenGrammar

namespace Unmask.Literal

/-! ## Texts -/

/-- `0x` and then hexadecimal digits only, at least one. -/
def IsHexRun (cs : List Char) : Prop :=
  ∃ digits, cs = '0' :: 'x' :: digits ∧ digits ≠ [] ∧ ∀ d ∈ digits, Name.isHexDigit d = true

/-- A plus, a minus or nothing. -/
def IsSignText (sign : List Char) : Prop := sign = [] ∨ sign = ['-'] ∨ sign = ['+']

def IsHexLiteral (cs : List Char) : Prop :=
  ∃ sign run, cs = sign ++ run ∧ IsSignText sign ∧ IsHexRun run

/-- Four or more decimal digits and nothing else. -/
def IsLongDecimal (cs : List Char) : Prop := 4 ≤ cs.length ∧ ∀ c ∈ cs, c.isDigit = true

theorem splitSign_append {sign run : List Char} (hsign : IsSignText sign) (hrun : IsHexRun run) :
    splitSign (sign ++ run) = (sign == ['-'], run) := by
  obtain ⟨digits, rfl, -, -⟩ := hrun
  rcases hsign with rfl | rfl | rfl <;> rfl

theorem isHex_iff {cs : List Char} : isHex cs = true ↔ IsHexLiteral cs := by
  constructor
  · intro h
    rw [isHex] at h
    have hrun : IsHexRun (splitSign cs).2 := isHexRun_iff.mp h
    unfold splitSign at hrun
    split at hrun
    · exact ⟨['-'], _, rfl, Or.inr (Or.inl rfl), hrun⟩
    · exact ⟨['+'], _, rfl, Or.inr (Or.inr rfl), hrun⟩
    · exact ⟨[], _, rfl, Or.inl rfl, hrun⟩
  · rintro ⟨sign, run, rfl, hsign, hrun⟩
    rw [isHex, splitSign_append hsign hrun]
    exact isHexRun_iff.mpr hrun

instance (cs : List Char) : Decidable (IsHexLiteral cs) := decidable_of_iff _ isHex_iff

theorem x_mem_of_isHexLiteral {cs : List Char} (h : IsHexLiteral cs) : 'x' ∈ cs := by
  obtain ⟨sign, run, rfl, -, digits, rfl, -⟩ := h
  simp

theorem not_isLongDecimal_of_isHexLiteral {cs : List Char} (h : IsHexLiteral cs) :
    ¬ IsLongDecimal cs := by
  intro hlong
  exact absurd (hlong.2 'x' (x_mem_of_isHexLiteral h)) (by decide)

theorem not_common_of_isHexLiteral {literal : String} (h : IsHexLiteral literal.toList) :
    literal ∉ commonNumbers := by
  have hdigits : ∀ text ∈ commonNumbers, 'x' ∉ text.toList := by decide +kernel
  intro hcommon
  exact hdigits literal hcommon (x_mem_of_isHexLiteral h)

/-! ## Bands -/

theorem isHexDigit_of_mem_toDigits {n : Nat} :
    ∀ c ∈ Nat.toDigits 16 n, Name.isHexDigit c = true := by
  have hdigit : ∀ d < 16, Name.isHexDigit d.digitChar = true := by decide
  induction n using Nat.strong_induction_on with
  | _ n ih =>
      intro c hc
      rcases Nat.lt_or_ge n 16 with hlt | hge
      · rw [Nat.toDigits_of_lt_base hlt, List.mem_singleton] at hc
        exact hc ▸ hdigit n hlt
      · rw [Nat.toDigits_of_base_le (by omega) hge, List.mem_append, List.mem_singleton] at hc
        rcases hc with hc | rfl
        · exact ih (n / 16) (by omega) c hc
        · exact hdigit _ (Nat.mod_lt n (by omega))

/-- Two hexadecimal digits are spelled from 16 on; a minus is none. -/
theorem spellsHexPair_iff {n : Int} : spellsHexPair n = true ↔ 16 ≤ n := by
  rw [spellsHexPair, hexText]
  by_cases hneg : n < 0
  · have hminus : Name.isHexDigit '-' = false := by decide
    rw [if_pos hneg, List.all_cons, hminus]
    simp only [Bool.false_and, Bool.and_false, Bool.false_eq_true, false_iff]
    omega
  · have hall : (Nat.toDigits 16 n.natAbs).all Name.isHexDigit = true :=
      List.all_eq_true.mpr isHexDigit_of_mem_toDigits
    have hlength : (Nat.toDigits 16 n.natAbs).length ≤ 1 ↔ n.natAbs < 16 ^ 1 :=
      Nat.length_toDigits_le_iff (by omega) (by omega)
    rw [if_neg hneg, hall, Bool.and_true, decide_eq_true_eq]
    omega

theorem inBand_iff {cs : List Char} {n : Int} :
    inBand cs n = true ↔ 16 ≤ n ∨ IsLongDecimal cs := by
  simp only [inBand, Bool.or_eq_true, Bool.and_eq_true, decide_eq_true_eq, spellsHexPair_iff,
    List.all_eq_true]
  constructor
  · rintro (((((((h | h) | h) | h) | h) | h) | h) | h)
    · exact Or.inl (by omega)
    · exact Or.inl h
    · exact Or.inl (by omega)
    · exact Or.inr h
    · exact Or.inl (by omega)
    · exact Or.inl (by omega)
    · exact Or.inl (by omega)
    · exact Or.inl (by omega)
  · rintro (h | h)
    · exact Or.inl (Or.inl (Or.inl (Or.inl (Or.inl (Or.inl (Or.inr h))))))
    · exact Or.inl (Or.inl (Or.inl (Or.inl (Or.inr h))))

theorem score_eq (cs : List Char) (v : Int) :
    score cs v = if IsHexLiteral cs then |v| else v := by
  simp only [score, isHex_iff, Int.natCast_natAbs]

theorem looksScrambled_iff {literal : String} :
    looksScrambled literal.toList = true ↔
      ∃ v, value? literal.toList = some v ∧ literal ∉ commonNumbers ∧
        (16 ≤ (if IsHexLiteral literal.toList then |v| else v) ∨
          IsLongDecimal literal.toList) := by
  unfold looksScrambled
  cases value? literal.toList with
  | none => simp
  | some v =>
      rw [Bool.and_eq_true, inBand_iff, score_eq, isCommon, String.ofList_toList]
      simp

/-! ## Signs -/

theorem value?_append {sign run : List Char} (hsign : IsSignText sign) (hrun : IsHexRun run) :
    value? (sign ++ run) = some (withSign (sign == ['-']) (magnitude 16 (run.drop 2))) := by
  have hhex : isHex (sign ++ run) = true := isHex_iff.mpr ⟨sign, run, rfl, hsign, hrun⟩
  rw [value?, if_pos hhex, splitSign_append hsign hrun]

theorem abs_withSign (negative : Bool) (m : Nat) : |withSign negative m| = m := by
  have hm : |(m : Int)| = m := abs_of_nonneg (Int.natCast_nonneg m)
  cases negative with
  | false => exact hm
  | true => exact (abs_neg _).trans hm

theorem looksScrambled_hex {sign run : String} (hsign : IsSignText sign.toList)
    (hrun : IsHexRun run.toList) :
    looksScrambled (sign ++ run).toList = true ↔ 16 ≤ magnitude 16 (run.toList.drop 2) := by
  have hhex : IsHexLiteral (sign ++ run).toList :=
    ⟨sign.toList, run.toList, String.toList_append, hsign, hrun⟩
  have hvalue := value?_append hsign hrun
  rw [← String.toList_append] at hvalue
  rw [looksScrambled_iff, hvalue]
  constructor
  · rintro ⟨v, hv, -, hscore | hlong⟩
    · rw [if_pos hhex, ← Option.some.inj hv, abs_withSign] at hscore
      exact Int.ofNat_le.mp hscore
    · exact absurd hlong (not_isLongDecimal_of_isHexLiteral hhex)
  · intro hscore
    refine ⟨_, rfl, not_common_of_isHexLiteral hhex, Or.inl ?_⟩
    rw [if_pos hhex, abs_withSign]
    exact Int.ofNat_le.mpr hscore

/-- A decimal literal with a minus: the first character that is no white space. -/
def IsMinusDecimal (cs : List Char) : Prop :=
  ¬ IsHexLiteral cs ∧ (cs.dropWhile isBlank).head? = some '-'

theorem isBlank_eq_false_of_isDigit {c : Char} (h : c.isDigit = true) : isBlank c = false := by
  have hlow : 48 ≤ c.toNat := (Char.isDigit_iff_toNat.mp h).1
  have hhigh : c.toNat ≤ 57 := (Char.isDigit_iff_toNat.mp h).2
  simp only [isBlank, Bool.or_eq_false_iff, Bool.and_eq_false_iff, decide_eq_false_iff_not,
    beq_eq_false_iff_ne]
  omega

theorem not_isLongDecimal_of_isMinusDecimal {cs : List Char} (h : IsMinusDecimal cs) :
    ¬ IsLongDecimal cs := by
  rintro ⟨hlength, hdigits⟩
  cases cs with
  | nil => exact absurd hlength (by decide)
  | cons c cs =>
      have hc : c.isDigit = true := hdigits c List.mem_cons_self
      have hhead := h.2
      rw [List.dropWhile_cons_of_neg (by simp [isBlank_eq_false_of_isDigit hc])] at hhead
      rw [Option.some.inj hhead] at hc
      exact absurd hc (by decide)

/-- The value of a decimal literal with a minus is not above zero, and only such a
decimal literal has a value below zero. -/
theorem value?_decimal {cs : List Char} {v : Int} (hhex : ¬ IsHexLiteral cs)
    (hv : value? cs = some v) :
    (IsMinusDecimal cs → v ≤ 0) ∧ (v < 0 → IsMinusDecimal cs) := by
  rw [value?, if_neg (fun h => hhex (isHex_iff.mp h))] at hv
  simp only [Option.ite_none_left_eq_some, Option.some.injEq] at hv
  obtain ⟨-, rfl⟩ := hv
  unfold IsMinusDecimal splitSign
  split
  · next heq =>
      refine ⟨fun _ => ?_, fun _ => ⟨hhex, by rw [heq]; rfl⟩⟩
      show -((_ : Nat) : Int) ≤ 0
      omega
  · next heq =>
      refine ⟨fun h => ?_, fun h => ?_⟩
      · have hplus : some '+' = some '-' := by
          rw [← h.2, heq]
          rfl
        exact absurd hplus (by decide)
      · exact absurd h (Int.not_lt.mpr (Int.natCast_nonneg _))
  · next hminus _ =>
      refine ⟨fun h => ?_, fun h => ?_⟩
      · obtain ⟨rest, hrest⟩ := List.head?_eq_some_iff.mp h.2
        exact absurd hrest (hminus rest)
      · exact absurd h (Int.not_lt.mpr (Int.natCast_nonneg _))

theorem looksScrambled_of_isMinusDecimal {literal : String}
    (h : IsMinusDecimal literal.toList) : looksScrambled literal.toList = false := by
  rw [Bool.eq_false_iff]
  intro hscrambled
  obtain ⟨v, hv, -, hscore | hlong⟩ := looksScrambled_iff.mp hscrambled
  · rw [if_neg h.1] at hscore
    have hle := (value?_decimal h.1 hv).1 h
    omega
  · exact not_isLongDecimal_of_isMinusDecimal h hlong

/-- The bands are one threshold: a literal looks scrambled exactly if it has a value, its
text is not spared, and its score is at least 16 or its text is made of four or more
digits.  The score is the value, for hexadecimal literals its magnitude.  So a
hexadecimal literal is judged alike with either sign and without one, and a decimal
literal with a minus, or with a value below zero, never looks scrambled. -/
theorem looksScrambled_threshold (literal : String) :
    (looksScrambled literal.toList = true ↔
      ∃ v, value? literal.toList = some v ∧ literal ∉ commonNumbers ∧
        (16 ≤ (if IsHexLiteral literal.toList then |v| else v) ∨
          IsLongDecimal literal.toList)) ∧
    (IsHexRun literal.toList →
      looksScrambled ("-" ++ literal).toList = looksScrambled literal.toList ∧
        looksScrambled ("+" ++ literal).toList = looksScrambled literal.toList) ∧
    (IsMinusDecimal literal.toList → looksScrambled literal.toList = false) ∧
    ∀ v, ¬ IsHexLiteral literal.toList → value? literal.toList = some v → v < 0 →
      looksScrambled literal.toList = false := by
  refine ⟨looksScrambled_iff, fun hrun => ?_, looksScrambled_of_isMinusDecimal, ?_⟩
  · have hplain := looksScrambled_hex (Or.inl rfl : IsSignText "".toList) hrun
    rw [String.empty_append] at hplain
    constructor
    · rw [Bool.eq_iff_iff, hplain, looksScrambled_hex (Or.inr (Or.inl rfl)) hrun]
    · rw [Bool.eq_iff_iff, hplain, looksScrambled_hex (Or.inr (Or.inr rfl)) hrun]
  · intro v hhex hv hneg
    exact looksScrambled_of_isMinusDecimal ((value?_decimal hhex hv).2 hneg)

theorem looksScrambled_threshold_signs :
    IsHexRun "0x1f".toList ∧ looksScrambled "0x1f".toList = true ∧
      looksScrambled ("-" ++ "0x1f").toList = looksScrambled "0x1f".toList ∧
      looksScrambled "5000".toList = true ∧
      IsMinusDecimal " -5000px".toList ∧ looksScrambled " -5000px".toList = false ∧
      value? "-5000".toList = some (-5000) ∧ looksScrambled "-5000".toList = false := by
  have hrun : IsHexRun "0x1f".toList :=
    ⟨['1', 'f'], rfl, by decide, List.all_eq_true.mp (by decide)⟩
  have hminus : IsMinusDecimal " -5000px".toList := ⟨by decide, rfl⟩
  have hvalue : value? "-5000".toList = some (-5000) := by decide
  refine ⟨hrun, by decide +kernel, ((looksScrambled_threshold "0x1f").2.1 hrun).1,
    by decide +kernel, hminus, (looksScrambled_threshold " -5000px").2.2.1 hminus, hvalue, ?_⟩
  exact (looksScrambled_threshold "-5000").2.2.2 _ (by decide) hvalue (by decide)

end Unmask.Literal
