/-
# `Unmask.Proofs.DecodedNumbers` — what a number is decoded to keeps its value

In the style `characters` a literal is replaced by what it encodes: the codes of
printable ASCII characters by the character in single quotes, all other numbers by
their decimal text.  Both are writings, and each is read back here.

* `unquoted?` reads a literal in single quotes, with its escapes undone.  What
  `quotedChar` writes is such a literal and holds that one character, the quote and the
  backslash included (`unquoted?_quotedChar`).
* The decimal text of a number is read back by `Literal.value?` itself
  (`value?_toString`), as long as the number fits a word — and what comes from a literal
  does, since its value was clamped.  The text is the canonical one
  (`CanonicalDecimal`): hexadecimal digits, plus signs and leading zeros of the old
  literal are gone.

`decoding_keeps_value` says this of the entries that a renaming makes, whatever other
literals it is given along with this one.
-/
import Unmask.Proofs.LiteralValue
import Unmask.Proofs.RenamingHistory

namespace Unmask

/-! ## Literals in single quotes -/

/-- What stands behind an opening quote, up to the closing quote at the very end: an
escaped quote or backslash stands for itself, and no line ends in between. -/
def behindQuote? : List Char → Option (List Char)
  | [] => none
  | ['\''] => some []
  | '\\' :: c :: rest =>
      if c == '\'' || c == '\\' then (behindQuote? rest).map (c :: ·) else none
  | c :: rest =>
      if c == '\'' || c == '\n' || c == '\r' then none else (behindQuote? rest).map (c :: ·)

/-- The content of a literal in single quotes, if the text is one. -/
def unquoted? : List Char → Option (List Char)
  | '\'' :: rest => behindQuote? rest
  | _ => none

theorem unquoted?_quotedChar {c : Char} (h : 32 ≤ c.toNat) :
    unquoted? (quotedChar c).toList = some [c] := by
  by_cases hquote : c = '\''
  · subst hquote
    rfl
  · by_cases hslash : c = '\\'
    · subst hslash
      rfl
    · have hline : c ≠ '\n' := by
        rintro rfl
        exact absurd h (by decide)
      have hreturn : c ≠ '\r' := by
        rintro rfl
        exact absurd h (by decide)
      have htext : (quotedChar c).toList = ['\'', c, '\''] := by
        simp [quotedChar, hquote, hslash]
      rw [htext]
      simp [unquoted?, behindQuote?, hquote, hslash, hline, hreturn]

/-! ## Canonical decimals -/

/-- The shortest decimal text of a number: zero, or digits of which the first is not
zero, behind a minus if the number is negative. -/
inductive CanonicalDecimal : List Char → Prop
  | zero : CanonicalDecimal ['0']
  | positive {d : Char} {ds : List Char} : d ≠ '0' → (∀ x ∈ d :: ds, x.isDigit = true) →
      CanonicalDecimal (d :: ds)
  | negative {d : Char} {ds : List Char} : d ≠ '0' → (∀ x ∈ d :: ds, x.isDigit = true) →
      CanonicalDecimal ('-' :: d :: ds)

theorem isDigit_of_mem_toDigits {n : Nat} : ∀ c ∈ Nat.toDigits 10 n, c.isDigit = true :=
  fun _ hc => Nat.isDigit_of_mem_toDigits (by decide) (by decide) hc

/-- Only zero is written with a zero in front. -/
theorem head?_toDigits {n : Nat} (hpos : 0 < n) : (Nat.toDigits 10 n).head? ≠ some '0' := by
  induction n using Nat.strong_induction_on with
  | _ n ih =>
      rcases Nat.lt_or_ge n 10 with hlt | hge
      · rw [Nat.toDigits_of_lt_base hlt, List.head?_cons, Ne, Option.some.injEq,
          Nat.digitChar_eq_zero]
        omega
      · rw [Nat.toDigits_of_base_le (by decide) hge,
          List.head?_append_of_ne_nil _ Nat.toDigits_ne_nil]
        exact ih (n / 10) (by omega) (by omega)

theorem exists_toDigits {n : Nat} (hpos : 0 < n) :
    ∃ d ds, Nat.toDigits 10 n = d :: ds ∧ d ≠ '0' := by
  obtain ⟨d, ds, hdigits⟩ := List.exists_cons_of_ne_nil (Nat.toDigits_ne_nil (b := 10) (n := n))
  refine ⟨d, ds, hdigits, ?_⟩
  rintro rfl
  exact head?_toDigits hpos (by rw [hdigits, List.head?_cons])

theorem toList_toString (v : Int) :
    (toString v).toList = (if v < 0 then ['-'] else []) ++ Nat.toDigits 10 v.natAbs := by
  cases v with
  | ofNat n =>
      have htext : toString (Int.ofNat n) = String.ofList (Nat.toDigits 10 n) :=
        Nat.toString_eq_ofList_toDigits
      rw [htext, String.toList_ofList]
      rfl
  | negSucc n =>
      have htext : toString (Int.negSucc n) = "-" ++ String.ofList (Nat.toDigits 10 (n + 1)) :=
        congrArg ("-" ++ ·) Nat.toString_eq_ofList_toDigits
      rw [htext, String.toList_append, if_pos (Int.negSucc_lt_zero n)]
      exact congrArg (['-'] ++ ·) String.toList_ofList

theorem canonicalDecimal_toString (v : Int) : CanonicalDecimal (toString v).toList := by
  rw [toList_toString]
  rcases Int.lt_trichotomy v 0 with hneg | rfl | hpos
  · obtain ⟨d, ds, hdigits, hd⟩ := exists_toDigits (n := v.natAbs) (by omega)
    rw [if_pos hneg, hdigits]
    exact .negative hd fun x hx => isDigit_of_mem_toDigits x (hdigits ▸ hx)
  · exact .zero
  · obtain ⟨d, ds, hdigits, hd⟩ := exists_toDigits (n := v.natAbs) (by omega)
    rw [if_neg (by omega), hdigits]
    exact .positive hd fun x hx => isDigit_of_mem_toDigits x (hdigits ▸ hx)

namespace Literal

theorem numeral_toDigits {base : Nat} (hbase : 1 < base) (hle : base ≤ 16) (n : Nat) :
    numeral base (Nat.toDigits base n) = n := by
  have hrank : ∀ d < 16, digitRank d.digitChar = d := by decide +kernel
  induction n using Nat.strong_induction_on with
  | _ n ih =>
      rcases Nat.lt_or_ge n base with hlt | hge
      · rw [Nat.toDigits_of_lt_base hlt, ← List.nil_append [_], numeral_concat, numeral_nil,
          hrank n (by omega)]
        omega
      · have hmod : n % base < base := Nat.mod_lt n (by omega)
        rw [Nat.toDigits_of_base_le hbase hge, numeral_concat,
          ih (n / base) (Nat.div_lt_self (by omega) hbase), hrank (n % base) (by omega)]
        exact Nat.div_add_mod' n base

theorem decimalForm_toString (v : Int) :
    DecimalForm (toString v).toList [] (if v < 0 then ['-'] else []) (Nat.toDigits 10 v.natAbs)
      [] := by
  obtain ⟨d, ds, hdigits⟩ :=
    List.exists_cons_of_ne_nil (Nat.toDigits_ne_nil (b := 10) (n := v.natAbs))
  have hd : d.isDigit = true := isDigit_of_mem_toDigits d (hdigits ▸ List.mem_cons_self)
  constructor
  · rw [toList_toString, List.append_nil, List.nil_append]
  · exact List.forall_mem_nil _
  · split_ifs
    · exact Or.inr (Or.inl rfl)
    · exact Or.inl rfl
  · exact isDigit_of_mem_toDigits
  · intro c hc
    rw [hdigits] at hc
    split_ifs at hc
    · obtain rfl := Option.some.inj hc
      decide
    · obtain rfl := Option.some.inj hc
      exact isBlank_eq_false_of_isDigit hd
  · intro _ c hc
    rw [hdigits] at hc
    obtain rfl := Option.some.inj hc
    constructor
    · rintro rfl
      exact absurd hd (by decide)
    · rintro rfl
      exact absurd hd (by decide)
  · simp

theorem not_isHexLiteral_toString (v : Int) : ¬ IsHexLiteral (toString v).toList := by
  intro hhex
  have hx := x_mem_of_isHexLiteral hhex
  rw [toList_toString, List.mem_append] at hx
  rcases hx with hx | hx
  · split_ifs at hx
    · exact absurd hx (by decide)
    · exact absurd hx List.not_mem_nil
  · exact absurd (isDigit_of_mem_toDigits 'x' hx) (by decide)

/-- A number that fits a word is read back from its decimal text. -/
theorem value?_toString {v : Int} (hv : v.natAbs ≤ ceiling) :
    value? (toString v).toList = some v := by
  rw [value?_of_decimalForm (not_isHexLiteral_toString v) (decimalForm_toString v),
    if_neg Nat.toDigits_ne_nil, numeral_toDigits (by decide) (by decide), Nat.min_eq_left hv]
  congr 1
  split_ifs with hneg
  · rw [signFactor, if_pos rfl]
    omega
  · rw [signFactor, if_neg (by simp)]
    omega

end Literal

/-! ## What is decoded -/

theorem decodedNumber_printable {literal : String} {v : Int}
    (hv : Literal.value? literal.toList = some v) (hlow : 32 ≤ v) (hhigh : v ≤ 126) :
    ∃ c : Char, (c.toNat : Int) = v ∧ unquoted? (decodedNumber literal).toList = some [c] := by
  have hvalid : v.toNat.isValidChar := Or.inl (by omega)
  have hcode : (Char.ofNat v.toNat).toNat = v.toNat := by
    rw [Char.ofNat, dif_pos hvalid]
    rfl
  refine ⟨Char.ofNat v.toNat, by rw [hcode]; omega, ?_⟩
  have htext : decodedNumber literal = quotedChar (Char.ofNat v.toNat) := by
    simp [decodedNumber, hv, hlow, hhigh]
  rw [htext]
  exact unquoted?_quotedChar (by omega)

theorem decodedNumber_other {literal : String} {v : Int}
    (hv : Literal.value? literal.toList = some v) (hother : ¬ (32 ≤ v ∧ v ≤ 126)) :
    decodedNumber literal = toString v := by
  simp only [decodedNumber, hv, Option.getD_some, Bool.and_eq_true, decide_eq_true_eq]
  exact if_neg hother

namespace Renaming

theorem getElem?_numbers_characters {literal : String} {literals : List String} :
    ∀ {r : Renaming}, literal ∈ literals → literal ∉ r.numbers →
      (r.addNumbers literals .characters).numbers[literal]? = some (decodedNumber literal) := by
  induction literals with
  | nil =>
      intro r hmem
      exact absurd hmem List.not_mem_nil
  | cons first literals ih =>
      intro r hmem hnew
      have hstep : r.addNumbers (first :: literals) .characters =
          (addNumber .characters r first).addNumbers literals .characters := rfl
      rw [hstep]
      by_cases hfirst : literal = first
      · subst hfirst
        -- The entry is made now, and what comes later leaves it standing.
        have hlater := extends_step (addNumber .characters r literal)
          (.numberAll literals .characters)
        refine hlater.numbers ?_
        rcases addNumber_cases .characters r literal with ⟨-, hold⟩ | ⟨-, ⟨hstyle, -⟩ | ⟨-, heq⟩⟩
        · exact absurd hold hnew
        · exact NumberStyle.noConfusion hstyle
        · rw [heq]
          exact Std.TreeMap.getElem?_insert_self
      · refine ih ((List.mem_cons.mp hmem).resolve_left hfirst) ?_
        rw [mem_numbers_addNumber]
        rintro (hold | hsame)
        · exact hnew hold
        · exact hfirst hsame

end Renaming

/-- A literal that stands for a number, and has no entry yet, is given a text that keeps
the number: in the range of printable characters a literal in single quotes that holds
just the character with that code, and otherwise the canonical decimal text, which is
read back as the same number. -/
theorem decoding_keeps_value (r : Renaming) (literals : List String) {literal : String} {v : Int}
    (hmem : literal ∈ literals) (hnew : literal ∉ r.numbers)
    (hv : Literal.value? literal.toList = some v) :
    ∃ text : String, (r.addNumbers literals .characters).numbers[literal]? = some text ∧
      (32 ≤ v ∧ v ≤ 126 →
        ∃ c : Char, (c.toNat : Int) = v ∧ unquoted? text.toList = some [c]) ∧
      (¬ (32 ≤ v ∧ v ≤ 126) →
        Literal.value? text.toList = some v ∧ CanonicalDecimal text.toList) := by
  refine ⟨decodedNumber literal, Renaming.getElem?_numbers_characters hmem hnew, ?_, ?_⟩
  · rintro ⟨hlow, hhigh⟩
    exact decodedNumber_printable hv hlow hhigh
  · intro hother
    rw [decodedNumber_other hv hother]
    exact ⟨Literal.value?_toString (ByOffset.natAbs_value?_le hv), canonicalDecimal_toString v⟩

/-- A quote, which has to be escaped, and a negative number with leading zeros, whose
magnitude would be a printable character. -/
theorem decoding_keeps_value_escaped :
    (∃ text : String,
      (({} : Renaming).addNumbers ["-0x0041", "0x27"] .characters).numbers["0x27"]? = some text ∧
        ∃ c : Char, (c.toNat : Int) = 39 ∧ unquoted? text.toList = some [c]) ∧
    ∃ text : String,
      (({} : Renaming).addNumbers ["-0x0041", "0x27"] .characters).numbers["-0x0041"]? =
          some text ∧
        Literal.value? text.toList = some (-65) ∧ CanonicalDecimal text.toList := by
  have hquote : Literal.value? "0x27".toList = some 39 := by decide +kernel
  have hminus : Literal.value? "-0x0041".toList = some (-65) := by decide +kernel
  constructor
  · obtain ⟨text, htext, hquoted, -⟩ := decoding_keeps_value {} ["-0x0041", "0x27"] (by simp)
      Std.TreeMap.not_mem_emptyc hquote
    exact ⟨text, htext, hquoted (by decide)⟩
  · obtain ⟨text, htext, -, hdecimal⟩ := decoding_keeps_value {} ["-0x0041", "0x27"]
      (by simp) Std.TreeMap.not_mem_emptyc hminus
    exact ⟨text, htext, hdecimal (by decide)⟩

end Unmask
