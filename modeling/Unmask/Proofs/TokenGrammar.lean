/-
# `Unmask.Proofs.TokenGrammar` — the tokens of a text, told by its bytes

What the tokens are is said here a second time, of the bytes of the text in
UTF-8 and of nothing else.

* A *maximal run* is a stretch of name bytes that no name byte touches.
* A run that starts with no digit is a name, a run of digits or of `0x` and
  hexadecimal digits is a number (`RunToken`).  Such a token spans its run,
  except that a hexadecimal number takes the byte in front of it along when that
  is a sign in unary position (`UnarySign`).

The main result, `tokens_are_runs`, says that the tokens of a text are these and
no others, each once, in the order of the text, and that the text of a token is
what its span cuts out.

The tokens come from the cut into beats, which is a matter of characters, so
the two have to be brought together.  All classes in question are classes of
ASCII characters.  A byte that encodes such a character is that character, and
every other byte is above 127 (`class_of_mem_utf8EncodeChar`); so a gap, a run and the
start of a gap look the same in bytes.  The proof then follows the beats: a
maximal run of bytes is the run of the first beat or lies behind it
(`maximalRun_beat`).
-/
import Mathlib.Algebra.GroupWithZero.Nat
import Unmask.Proofs.Cut

namespace Unmask

/-! ## Bytes -/

def utf8 (text : String) : List UInt8 := text.toUTF8.data.toList

def encode (text : List Char) : List UInt8 := text.flatMap String.utf8EncodeChar

theorem utf8_eq_encode (text : String) : utf8 text = encode text.toList := by
  rw [utf8, String.toUTF8_eq_toByteArray, ← String.utf8Encode_toList, List.utf8Encode,
    List.toList_data_toByteArray, encode]

theorem utf8_ofList (text : List Char) : utf8 (String.ofList text) = encode text := by
  rw [utf8_eq_encode, String.toList_ofList]

theorem utf8_injective : Function.Injective utf8 := by
  intro a b h
  refine String.toByteArray_inj.mp (ByteArray.ext (Array.toList_inj.mp ?_))
  exact h

@[simp] theorem encode_nil : encode [] = [] := rfl

@[simp] theorem encode_append (a b : List Char) : encode (a ++ b) = encode a ++ encode b :=
  List.flatMap_append

@[simp] theorem encode_singleton (c : Char) : encode [c] = String.utf8EncodeChar c := by
  simp [encode]

theorem byteLength_eq_sum (text : List Char) :
    byteLength text = (text.map Char.utf8Size).sum := by
  rw [byteLength, List.sum, List.foldr_map]

theorem length_encode (text : List Char) : (encode text).length = byteLength text := by
  simp [encode, byteLength_eq_sum, List.length_flatMap]

theorem encode_ne_nil {text : List Char} (h : text ≠ []) : encode text ≠ [] := by
  obtain ⟨c, cs, rfl⟩ := List.exists_cons_of_ne_nil h
  exact List.append_ne_nil_of_left_ne_nil String.utf8EncodeChar_ne_nil _

theorem toNat_ofUInt8 (b : UInt8) : (Char.ofUInt8 b).toNat = b.toNat :=
  UInt8.toNat_toUInt32 b

/-- A byte of a character is the character itself, or neither of the two is ASCII. -/
theorem mem_utf8EncodeChar {c : Char} {b : UInt8} (h : b ∈ String.utf8EncodeChar c) :
    (String.utf8EncodeChar c = [b] ∧ Char.ofUInt8 b = c) ∨
      (128 ≤ b.toNat ∧ 128 ≤ c.toNat) := by
  have hval : c.val.toNat = c.toNat := rfl
  by_cases hc : c.toNat < 128
  · have hsize : c.utf8Size = 1 := by
      rw [Char.utf8Size_eq_one_iff, UInt32.le_iff_toNat_le]
      exact Nat.le_of_lt_succ hc
    rw [String.utf8EncodeChar_eq_singleton hsize] at h ⊢
    obtain rfl := List.mem_singleton.mp h
    refine Or.inl ⟨rfl, Char.toNat_inj.mp ?_⟩
    rw [toNat_ofUInt8, UInt32.toNat_toUInt8, hval]
    omega
  · refine Or.inr ⟨?_, Nat.le_of_not_lt hc⟩
    simp only [String.utf8EncodeChar, hval] at h
    split_ifs at h
    · omega
    all_goals
      simp only [List.mem_cons, List.not_mem_nil, or_false] at h
      rcases h with rfl | rfl | rfl | rfl <;> rw [UInt8.toNat_ofNat'] <;> omega

/-- A class of ASCII characters has a byte of a character in it exactly if it has
the character. -/
theorem class_of_mem_utf8EncodeChar {P : Char → Bool} (hP : ∀ c, 128 ≤ c.toNat → P c = false)
    {c : Char} {b : UInt8} (h : b ∈ String.utf8EncodeChar c) : P (Char.ofUInt8 b) = P c := by
  rcases mem_utf8EncodeChar h with ⟨-, hb⟩ | ⟨hb, hc⟩
  · rw [hb]
  · rw [hP c hc, hP _ (by rw [toNat_ofUInt8]; exact hb)]

/-! ## The grammar of tokens -/

/-- The bytes of ASCII letters and digits, of `_` and of `$`. -/
def isPartByte (b : UInt8) : Bool := Name.isPart (Char.ofUInt8 b)

/-- A run of name bytes that no name byte touches, with what stands before it and
behind it. -/
structure MaximalRun (bytes before run rest : List UInt8) : Prop where
  eq : bytes = before ++ run ++ rest
  ne_nil : run ≠ []
  isPart : ∀ b ∈ run, isPartByte b = true
  begins : ∀ b ∈ before.getLast?, isPartByte b = false
  ends : ∀ b ∈ rest.head?, isPartByte b = false

/-- The last of these bytes is a plus or a minus, and the one before it, if there
is one, ends no operand: it is no name byte and no closing bracket. -/
def UnarySign (before : List UInt8) : Prop :=
  ∃ b s, before = b ++ [s] ∧ (Char.ofUInt8 s = '+' ∨ Char.ofUInt8 s = '-') ∧
    ∀ c ∈ b.getLast?, isPartByte c = false ∧ Char.ofUInt8 c ≠ ')' ∧ Char.ofUInt8 c ≠ ']'

/-- What kind of token a maximal run is and where the token starts, given the
bytes before the run; it ends with the run. -/
inductive RunToken (before : List UInt8) : List Char → TokenKind → Nat → Prop
  | name {c : Char} {cs : List Char} : c.isDigit = false →
      RunToken before (c :: cs) .name before.length
  | decimal {run : List Char} : (∀ c ∈ run, c.isDigit = true) →
      RunToken before run .number before.length
  | hex {digits : List Char} : digits ≠ [] → (∀ d ∈ digits, Name.isHexDigit d = true) →
      ¬ UnarySign before → RunToken before ('0' :: 'x' :: digits) .number before.length
  | signed {digits : List Char} : digits ≠ [] → (∀ d ∈ digits, Name.isHexDigit d = true) →
      UnarySign before → RunToken before ('0' :: 'x' :: digits) .number (before.length - 1)

/-! ## Maximal runs and beats -/

theorem not_maximalRun_gap {g before run rest : List UInt8}
    (hg : ∀ b ∈ g, isPartByte b = false) : ¬ MaximalRun g before run rest := by
  intro h
  obtain ⟨b, hb⟩ := List.exists_mem_of_ne_nil run h.ne_nil
  have hmem : b ∈ g := by
    rw [h.eq]
    exact List.mem_append_left _ (List.mem_append_right _ hb)
  exact Bool.noConfusion ((h.isPart b hb).symm.trans (hg b hmem))

theorem MaximalRun.before_ne_nil {bytes before run rest : List UInt8}
    (h : MaximalRun bytes before run rest)
    (hbytes : ∀ b ∈ bytes.head?, isPartByte b = false) : before ≠ [] := by
  rintro rfl
  obtain ⟨b, bs, hrun⟩ := List.exists_cons_of_ne_nil h.ne_nil
  have hhead : b ∈ bytes.head? := by rw [h.eq, hrun]; rfl
  have hb : isPartByte b = true := h.isPart b (hrun ▸ List.mem_cons_self)
  exact Bool.noConfusion (hb.symm.trans (hbytes b hhead))

theorem run_unique {r rest r' rest' : List UInt8} (hr : ∀ b ∈ r, isPartByte b = true)
    (hrest : ∀ b ∈ rest.head?, isPartByte b = false) (hr' : ∀ b ∈ r', isPartByte b = true)
    (hrest' : ∀ b ∈ rest'.head?, isPartByte b = false) (h : r ++ rest = r' ++ rest') :
    r = r' ∧ rest = rest' := by
  have stop : ∀ {r rest : List UInt8}, (∀ b ∈ r, isPartByte b = true) →
      (∀ b ∈ rest.head?, isPartByte b = false) → (r ++ rest).takeWhile isPartByte = r := by
    intro r rest hr hrest
    rw [List.takeWhile_append_of_pos hr]
    cases rest with
    | nil => simp
    | cons b bs => simp [hrest b rfl]
  have hrr : r = r' := by rw [← stop hr hrest, h, stop hr' hrest']
  subst hrr
  exact ⟨rfl, List.append_cancel_left h⟩

/-- A maximal run of a beat and what follows is the run of the beat or lies behind
it. -/
theorem maximalRun_beat {g r rest : List UInt8} (hg : ∀ b ∈ g, isPartByte b = false)
    (hne : r ≠ []) (hr : ∀ b ∈ r, isPartByte b = true)
    (hrest : ∀ b ∈ rest.head?, isPartByte b = false) {before run behind : List UInt8} :
    MaximalRun (g ++ r ++ rest) before run behind ↔
      (before = g ∧ run = r ∧ behind = rest) ∨
        ∃ between, before = g ++ r ++ between ∧ MaximalRun rest between run behind := by
  constructor
  · intro h
    have heq := h.eq
    rw [List.append_assoc before] at heq
    rcases List.append_eq_append_iff.mp heq with ⟨between, rfl, hbehind⟩ | ⟨m, hgr, hm⟩
    · refine Or.inr ⟨between, rfl, ⟨?_, h.ne_nil, h.isPart, ?_, h.ends⟩⟩
      · rw [hbehind, List.append_assoc]
      · intro b hb
        refine h.begins b ?_
        rw [List.getLast?_append, Option.mem_def.mp hb]
        rfl
    · refine Or.inl ?_
      -- The run can start neither inside `r` nor inside `g`.
      have hstart : before = g ∧ m = r := by
        rcases List.append_eq_append_iff.mp hgr with ⟨u, rfl, rfl⟩ | ⟨u, rfl, rfl⟩
        · rcases List.eq_nil_or_concat u with rfl | ⟨v, c, rfl⟩
          · simp
          · have hc : isPartByte c = true := hr c (by simp)
            have hlast : isPartByte c = false := h.begins c (by simp)
            exact Bool.noConfusion (hc.symm.trans hlast)
        · cases u with
          | nil => simp
          | cons c cs =>
              obtain ⟨d, ds, hrun⟩ := List.exists_cons_of_ne_nil h.ne_nil
              rw [hrun] at hm
              obtain ⟨rfl, -⟩ := List.cons.inj hm
              have hd : isPartByte d = true := h.isPart d (hrun ▸ List.mem_cons_self)
              exact Bool.noConfusion (hd.symm.trans (hg d (by simp)))
      obtain ⟨rfl, rfl⟩ := hstart
      exact ⟨rfl, run_unique h.isPart h.ends hr hrest hm⟩
  · rintro (⟨rfl, rfl, rfl⟩ | ⟨between, rfl, h⟩)
    · refine ⟨rfl, hne, hr, fun b hb => hg b (List.mem_of_mem_getLast? hb), hrest⟩
    · refine ⟨by rw [h.eq]; simp only [List.append_assoc], h.ne_nil, h.isPart, ?_, h.ends⟩
      intro b hb
      refine h.begins b ?_
      rwa [List.getLast?_append_of_ne_nil _ (h.before_ne_nil hrest)] at hb

/-! ## A beat in bytes -/

theorem isPart_eq_false_of_le {c : Char} (h : 128 ≤ c.toNat) : Name.isPart c = false := by
  rw [← Bool.not_eq_true]
  intro hc
  have := toNat_of_isPart hc
  omega

theorem isPartByte_of_mem {c : Char} {b : UInt8} (h : b ∈ String.utf8EncodeChar c) :
    isPartByte b = Name.isPart c :=
  class_of_mem_utf8EncodeChar (fun _ => isPart_eq_false_of_le) h

theorem isPartByte_of_mem_encode {text : List Char} {k : Bool}
    (h : ∀ c ∈ text, Name.isPart c = k) : ∀ b ∈ encode text, isPartByte b = k := by
  intro b hb
  obtain ⟨c, hc, hbc⟩ := List.mem_flatMap.mp hb
  rw [isPartByte_of_mem hbc, h c hc]

theorem head?_encode {rest : List Char} (h : EndsRun rest) :
    ∀ b ∈ (encode rest).head?, isPartByte b = false := by
  intro b hb
  cases rest with
  | nil => exact absurd hb (by simp)
  | cons c cs =>
      have hcons : encode (c :: cs) = String.utf8EncodeChar c ++ encode cs := List.flatMap_cons
      rw [hcons, List.head?_append_of_ne_nil _ String.utf8EncodeChar_ne_nil] at hb
      rw [isPartByte_of_mem (List.mem_of_mem_head? hb)]
      exact h c rfl

theorem map_ofUInt8_encode {r : List Char} (h : ∀ c ∈ r, Name.isPart c = true) :
    (encode r).map Char.ofUInt8 = r := by
  induction r with
  | nil => rfl
  | cons c cs ih =>
      obtain ⟨b, hb⟩ := List.exists_mem_of_ne_nil _ (String.utf8EncodeChar_ne_nil (c := c))
      rcases mem_utf8EncodeChar hb with ⟨hsingle, hbc⟩ | ⟨-, hc⟩
      · have hcons : encode (c :: cs) = [b] ++ encode cs := by
          rw [← hsingle]
          exact List.flatMap_cons
        rw [hcons, List.map_append, ih fun d hd => h d (List.mem_cons_of_mem _ hd),
          List.map_singleton, hbc, List.singleton_append]
      · have hpart := h c List.mem_cons_self
        rw [isPart_eq_false_of_le hc] at hpart
        exact Bool.noConfusion hpart

theorem ofUInt8_eq_iff {c d : Char} {b : UInt8} (hd : d.toNat < 128)
    (h : b ∈ String.utf8EncodeChar c) : Char.ofUInt8 b = d ↔ c = d := by
  have hclass := class_of_mem_utf8EncodeChar (P := (· == d))
    (fun e he => beq_false_of_ne (by rintro rfl; omega)) h
  rw [← beq_iff_eq, ← beq_iff_eq (a := c), hclass]

theorem length_utf8EncodeChar_sign {c : Char} (h : isSign c = true) :
    (String.utf8EncodeChar c).length = 1 := by
  simp only [isSign, Bool.or_eq_true, beq_iff_eq] at h
  rcases h with rfl | rfl <;> rfl

theorem getLast?_append_encode (passed : List UInt8) (v : List Char) (c : Char) :
    (passed ++ encode (v ++ [c])).getLast? = (String.utf8EncodeChar c).getLast? := by
  rw [encode_append, encode_singleton, ← List.append_assoc,
    List.getLast?_append_of_ne_nil _ String.utf8EncodeChar_ne_nil]

/-- The bytes in front of a text that is cut on its own: none at the start of the
whole text, and otherwise bytes that end in a name byte. -/
inductive Passed : Bool → List UInt8 → Prop
  | start : Passed true []
  | run {bytes : List UInt8} {b : UInt8} : bytes.getLast? = some b → isPartByte b = true →
      Passed false bytes

theorem no_operand_iff {atStart : Bool} {passed : List UInt8} (hp : Passed atStart passed)
    {g : List Char} (hg : IsGap g) :
    (∀ b ∈ (passed ++ encode g).getLast?,
      isPartByte b = false ∧ Char.ofUInt8 b ≠ ')' ∧ Char.ofUInt8 b ≠ ']') ↔
    (g = [] → atStart = true) ∧ ∀ c ∈ g.getLast?, c ≠ ')' ∧ c ≠ ']' := by
  rcases List.eq_nil_or_concat g with rfl | ⟨v, c, rfl⟩
  · cases hp with
    | start => simp
    | run hlast hb => simp [hlast, hb]
  · have hc : Name.isPart c = false := hg c (by simp)
    obtain ⟨b, hb⟩ := Option.isSome_iff_exists.mp
      (List.getLast?_isSome.mpr (String.utf8EncodeChar_ne_nil (c := c)))
    have hmem : b ∈ String.utf8EncodeChar c := List.mem_of_getLast? hb
    rw [List.concat_eq_append, getLast?_append_encode, hb]
    simp [isPartByte_of_mem hmem, hc, ofUInt8_eq_iff _ hmem]

/-- The sign that a gap offers to the run behind it is a sign in unary position. -/
theorem unarySign_iff {atStart : Bool} {passed : List UInt8} (hp : Passed atStart passed)
    {g : List Char} (hg : IsGap g) :
    UnarySign (passed ++ encode g) ↔ ∃ s, unarySign? atStart g = some s := by
  have hsign : ∀ {b : UInt8} {c : Char}, b ∈ String.utf8EncodeChar c →
      (Char.ofUInt8 b = '+' ∨ Char.ofUInt8 b = '-' ↔ isSign c = true) := by
    intro b c hb
    rw [ofUInt8_eq_iff (by decide) hb, ofUInt8_eq_iff (by decide) hb, isSign, Bool.or_eq_true,
      beq_iff_eq, beq_iff_eq]
  constructor
  · rintro ⟨b, s, heq, hs, hlast⟩
    have hmem : s ∈ (passed ++ encode g).getLast? := by simp [heq]
    rcases List.eq_nil_or_concat g with rfl | ⟨v, c, rfl⟩
    · -- The sign would be the last byte of a run.
      cases hp with
      | start => simp at hmem
      | run hpassed hpart =>
          rw [encode_nil, List.append_nil, hpassed] at hmem
          obtain rfl := Option.some.inj hmem
          rw [isPartByte] at hpart
          rcases hs with hs | hs <;> rw [hs] at hpart <;> exact absurd hpart (by decide)
    · rw [List.concat_eq_append] at heq hmem ⊢
      rw [getLast?_append_encode] at hmem
      have hc : isSign c = true := (hsign (List.mem_of_mem_getLast? hmem)).mp hs
      obtain ⟨d, hd⟩ := List.length_eq_one_iff.mp (length_utf8EncodeChar_sign hc)
      have hb : b = passed ++ encode v := by
        rw [encode_append, encode_singleton, hd, ← List.append_assoc] at heq
        exact (List.append_inj_left' heq rfl).symm
      have hv : IsGap v := fun x hx => hg x (by simp [hx])
      rw [hb] at hlast
      obtain ⟨hstart, hbracket⟩ := (no_operand_iff hp hv).mp hlast
      exact ⟨c, unarySign?_eq_some_iff.mpr ⟨v, rfl, hc, hstart, hbracket⟩⟩
  · rintro ⟨s, hs⟩
    obtain ⟨v, rfl, hs, hstart, hbracket⟩ := unarySign?_eq_some_iff.mp hs
    obtain ⟨b, hb⟩ := List.length_eq_one_iff.mp (length_utf8EncodeChar_sign hs)
    have hv : IsGap v := fun x hx => hg x (List.mem_append_left _ hx)
    refine ⟨passed ++ encode v, b, ?_, (hsign (by simp [hb])).mpr hs,
      (no_operand_iff hp hv).mpr ⟨hstart, hbracket⟩⟩
    rw [encode_append, encode_singleton, hb, List.append_assoc]

/-! ## The tokens of a beat -/

theorem isHexRun_iff {r : List Char} :
    Literal.isHexRun r = true ↔
      ∃ digits, r = '0' :: 'x' :: digits ∧ digits ≠ [] ∧
        ∀ d ∈ digits, Name.isHexDigit d = true := by
  constructor
  · intro h
    unfold Literal.isHexRun at h
    split at h
    · next d ds => exact ⟨d :: ds, rfl, List.cons_ne_nil d ds, List.all_eq_true.mp h⟩
    · exact Bool.noConfusion h
  · rintro ⟨digits, rfl, hne, hall⟩
    obtain ⟨d, ds, rfl⟩ := List.exists_cons_of_ne_nil hne
    exact List.all_eq_true.mpr hall

theorem ofBlock_eq_token_iff {r : List Char} (hr : IsRun r) {kind : TokenKind} :
    Piece.ofBlock r = .token kind r ↔
      (kind = .name ∧ ∃ c cs, r = c :: cs ∧ c.isDigit = false) ∨
        (kind = .number ∧
          (Literal.isHexRun r = true ∨ ∀ c ∈ r, c.isDigit = true)) := by
  obtain ⟨c, cs, rfl⟩ := List.exists_cons_of_ne_nil hr.ne_nil
  have hpart : Name.isPart c = true := hr.isPart c List.mem_cons_self
  cases hd : c.isDigit with
  | false =>
      rw [ofBlock_name hpart hd]
      cases kind <;> simp [isHexRun_eq_false hd, hd]
  | true =>
      have hnumber : Literal.isHexRun (c :: cs) = true ∨ Literal.isDecimalRun (c :: cs) = true ↔
          Literal.isHexRun (c :: cs) = true ∨ ∀ d ∈ c :: cs, d.isDigit = true := by
        simp [Literal.isDecimalRun]
      rw [← hnumber, ← Bool.or_eq_true]
      simp only [Piece.ofBlock, hpart, hd, Bool.not_true, Bool.false_eq_true, if_false]
      split_ifs with h
      · cases kind <;> simp [h, hd]
      · cases kind <;> simp [h, hd]

theorem runToken_iff {before : List UInt8} {r : List Char} (hr : IsRun r) {kind : TokenKind}
    {start : Nat} :
    RunToken before r kind start ↔
      (Literal.isHexRun r = true ∧ UnarySign before ∧ kind = .number ∧
        start = before.length - 1) ∨
      (¬ (Literal.isHexRun r = true ∧ UnarySign before) ∧ Piece.ofBlock r = .token kind r ∧
        start = before.length) := by
  constructor
  · intro h
    cases h with
    | name hc =>
        refine Or.inr ⟨?_, (ofBlock_eq_token_iff hr).mpr (Or.inl ⟨rfl, _, _, rfl, hc⟩), rfl⟩
        rw [isHexRun_eq_false hc]
        simp
    | decimal hall =>
        refine Or.inr ⟨?_, (ofBlock_eq_token_iff hr).mpr (Or.inr ⟨rfl, Or.inr hall⟩), rfl⟩
        rintro ⟨hhex, -⟩
        obtain ⟨digits, rfl, -, -⟩ := isHexRun_iff.mp hhex
        exact absurd (hall 'x' (by simp)) (by decide)
    | hex hne hall hsign =>
        have hhex := isHexRun_iff.mpr ⟨_, rfl, hne, hall⟩
        exact Or.inr ⟨fun h => hsign h.2,
          (ofBlock_eq_token_iff hr).mpr (Or.inr ⟨rfl, Or.inl hhex⟩), rfl⟩
    | signed hne hall hsign =>
        exact Or.inl ⟨isHexRun_iff.mpr ⟨_, rfl, hne, hall⟩, hsign, rfl, rfl⟩
  · rintro (⟨hhex, hsign, rfl, rfl⟩ | ⟨hsign, hblock, rfl⟩)
    · obtain ⟨digits, rfl, hne, hall⟩ := isHexRun_iff.mp hhex
      exact .signed hne hall hsign
    · rcases (ofBlock_eq_token_iff hr).mp hblock with ⟨rfl, c, cs, rfl, hc⟩ | ⟨rfl, hhex | hall⟩
      · exact .name hc
      · obtain ⟨digits, rfl, hne, hall⟩ := isHexRun_iff.mp hhex
        exact .hex hne hall fun h => hsign ⟨hhex, h⟩
      · exact .decimal hall

theorem byteLength_append (a b : List Char) :
    byteLength (a ++ b) = byteLength a + byteLength b := by
  simp [byteLength_eq_sum]

theorem locate_append (ps qs : List Piece) (start : Nat) :
    locate start (ps ++ qs) =
      locate start ps ++ locate (start + byteLength (ps.flatMap Piece.text)) qs := by
  induction ps generalizing start with
  | nil => rfl
  | cons p ps ih =>
      cases p with
      | gap t => simp [locate, ih, Piece.text, byteLength_append, Nat.add_assoc]
      | token k t => simp [locate, ih, Piece.text, byteLength_append, Nat.add_assoc]

theorem locate_ofGap (start : Nat) (g : List Char) : locate start (Piece.ofGap g) = [] := by
  cases g with
  | nil => rfl
  | cons c cs => rfl

theorem locate_token (start : Nat) (k : TokenKind) (t : List Char) :
    locate start [.token k t] = [⟨k, String.ofList t, start, start + byteLength t⟩] :=
  rfl

section Beat

variable {atStart : Bool} {passed : List UInt8} {g r : List Char}

theorem locate_beat_signed (passed : List UInt8) {s : Char}
    (h : takenSign? atStart g r = some s) :
    ∃ v, g = v ++ [s] ∧ (passed ++ encode v).length = (passed ++ encode g).length - 1 ∧
      locate passed.length (beat atStart g r) =
        [⟨.number, String.ofList (s :: r), (passed ++ encode v).length,
          (passed ++ encode v ++ encode (s :: r)).length⟩] := by
  obtain ⟨v, rfl, hsign, -, -⟩ := unarySign?_eq_some_iff.mp (takenSign?_eq_some_iff.mp h).2
  refine ⟨v, rfl, ?_, ?_⟩
  · have hone := length_utf8EncodeChar_sign hsign
    simp only [encode_append, encode_singleton, List.length_append]
    omega
  · simp only [beat, h, List.dropLast_concat, locate_append, locate_ofGap, locate_token,
      Piece.flatMap_text_ofGap, List.length_append, length_encode, List.nil_append]

theorem locate_beat_unsigned (passed : List UInt8) (h : takenSign? atStart g r = none) :
    locate passed.length (beat atStart g r) =
      locate (passed ++ encode g).length [Piece.ofBlock r] := by
  simp only [beat, h, locate_append, locate_ofGap, Piece.flatMap_text_ofGap, List.length_append,
    length_encode, List.nil_append]

theorem exists_takenSign?_iff (hp : Passed atStart passed) (hg : IsGap g) :
    (∃ s, takenSign? atStart g r = some s) ↔
      Literal.isHexRun r = true ∧ UnarySign (passed ++ encode g) := by
  simp only [takenSign?_eq_some_iff, unarySign_iff hp hg, exists_and_left]

/-- A token of a beat is the token of its run, and its text reaches to the end of
the beat. -/
theorem runToken_of_mem_locate_beat (hp : Passed atStart passed) (hg : IsGap g) (hr : IsRun r)
    {t : Token} (ht : t ∈ locate passed.length (beat atStart g r)) :
    RunToken (passed ++ encode g) r t.kind t.start ∧
      t.stop = (passed ++ encode g ++ encode r).length ∧
      ∃ x, x.length = t.start ∧ passed ++ encode g ++ encode r = x ++ utf8 t.text := by
  cases hs : takenSign? atStart g r with
  | some s =>
      obtain ⟨hhex, hsign⟩ := (exists_takenSign?_iff hp hg).mp ⟨s, hs⟩
      obtain ⟨v, rfl, hlen, hlocate⟩ := locate_beat_signed passed hs
      rw [hlocate] at ht
      obtain rfl := List.mem_singleton.mp ht
      have hbytes : passed ++ encode (v ++ [s]) ++ encode r =
          passed ++ encode v ++ encode (s :: r) := by
        rw [← List.singleton_append (l := r)]
        simp only [encode_append, List.append_assoc]
      refine ⟨(runToken_iff hr).mpr (Or.inl ⟨hhex, hsign, rfl, hlen⟩), ?_,
        passed ++ encode v, rfl, ?_⟩
      · rw [hbytes]
      · rw [hbytes, utf8_ofList]
  | none =>
      have hunsigned : ¬ (Literal.isHexRun r = true ∧ UnarySign (passed ++ encode g)) := by
        rw [← exists_takenSign?_iff hp hg, hs]
        simp
      rw [locate_beat_unsigned passed hs] at ht
      cases hblock : Piece.ofBlock r with
      | gap u =>
          rw [hblock] at ht
          exact absurd ht List.not_mem_nil
      | token k u =>
          have hu : u = r := by
            have htext := Piece.text_ofBlock r
            rw [hblock] at htext
            exact htext
          subst hu
          rw [hblock, locate_token] at ht
          obtain rfl := List.mem_singleton.mp ht
          refine ⟨(runToken_iff hr).mpr (Or.inr ⟨hunsigned, hblock, rfl⟩), ?_,
            passed ++ encode g, rfl, ?_⟩
          · simp only [List.length_append, length_encode]
          · rw [utf8_ofList]

theorem exists_mem_locate_beat (hp : Passed atStart passed) (hg : IsGap g) (hr : IsRun r)
    {kind : TokenKind} {start : Nat} (h : RunToken (passed ++ encode g) r kind start) :
    ∃ t ∈ locate passed.length (beat atStart g r), t.kind = kind ∧ t.start = start := by
  rcases (runToken_iff hr).mp h with ⟨hhex, hsign, rfl, rfl⟩ | ⟨hunsigned, hblock, rfl⟩
  · obtain ⟨s, hs⟩ := (exists_takenSign?_iff hp hg).mpr ⟨hhex, hsign⟩
    obtain ⟨v, rfl, hlen, hlocate⟩ := locate_beat_signed passed hs
    exact ⟨_, hlocate ▸ List.mem_singleton_self _, rfl, hlen⟩
  · have hs : takenSign? atStart g r = none := by
      rw [Option.eq_none_iff_forall_ne_some]
      intro s hs
      exact hunsigned ((exists_takenSign?_iff hp hg).mp ⟨s, hs⟩)
    rw [locate_beat_unsigned passed hs, hblock, locate_token]
    exact ⟨_, List.mem_singleton_self _, rfl, rfl⟩

theorem Passed.beat (hr : IsRun r) : Passed false (passed ++ encode g ++ encode r) := by
  obtain ⟨b, hb⟩ := Option.isSome_iff_exists.mp
    (List.getLast?_isSome.mpr (encode_ne_nil hr.ne_nil))
  refine .run (b := b) ?_ (isPartByte_of_mem_encode hr.isPart b (List.mem_of_getLast? hb))
  rw [List.getLast?_append, hb]
  rfl

end Beat

/-! ## The tokens of a text -/

theorem maximalRun_encode_iff {g r rest : List Char} (hg : IsGap g) (hr : IsRun r)
    (hrest : EndsRun rest) {before run behind : List UInt8} :
    MaximalRun (encode (g ++ r ++ rest)) before run behind ↔
      (before = encode g ∧ run = encode r ∧ behind = encode rest) ∨
        ∃ between, before = encode g ++ encode r ++ between ∧
          MaximalRun (encode rest) between run behind := by
  rw [encode_append, encode_append]
  exact maximalRun_beat (isPartByte_of_mem_encode hg) (encode_ne_nil hr.ne_nil)
    (isPartByte_of_mem_encode hr.isPart) (head?_encode hrest)

theorem locate_cut_beat {atStart : Bool} (passed : List UInt8) {g r rest : List Char}
    (hg : IsGap g) (hr : IsRun r) (hrest : EndsRun rest) :
    locate passed.length (cut atStart (g ++ r ++ rest)) =
      locate passed.length (beat atStart g r) ++
        locate (passed ++ encode g ++ encode r).length (cut false rest) := by
  rw [cut_beat atStart hg hr hrest, locate_append, flatMap_text_beat]
  simp only [byteLength_append, List.length_append, length_encode, Nat.add_assoc]

/-- Every token is the token of a maximal run. -/
theorem maximalRun_of_mem_locate {text : List Char} :
    ∀ {atStart : Bool} {passed : List UInt8}, Passed atStart passed →
      ∀ {t : Token}, t ∈ locate passed.length (cut atStart text) →
        (∃ before run rest, MaximalRun (encode text) before run rest ∧
          RunToken (passed ++ before) (run.map Char.ofUInt8) t.kind t.start ∧
          t.stop = (passed ++ before ++ run).length) ∧
        ∃ x z, passed ++ encode text = x ++ utf8 t.text ++ z ∧ x.length = t.start ∧
          (x ++ utf8 t.text).length = t.stop := by
  induction text using beat_induction with
  | gap g hg =>
      intro atStart passed hp t ht
      rw [cut_gap atStart hg, locate_ofGap] at ht
      exact absurd ht List.not_mem_nil
  | beat g r rest hg hr hrest ih =>
      intro atStart passed hp t ht
      rw [locate_cut_beat passed hg hr hrest] at ht
      have hbytes : passed ++ encode (g ++ r ++ rest) =
          passed ++ encode g ++ encode r ++ encode rest := by
        simp only [encode_append, List.append_assoc]
      rw [hbytes]
      rcases List.mem_append.mp ht with ht | ht
      · obtain ⟨htoken, hstop, x, hx, htext⟩ := runToken_of_mem_locate_beat hp hg hr ht
        refine ⟨⟨encode g, encode r, encode rest,
          (maximalRun_encode_iff hg hr hrest).mpr (Or.inl ⟨rfl, rfl, rfl⟩), ?_, hstop⟩,
          x, encode rest, by rw [htext], hx, by rw [hstop, htext]⟩
        rw [map_ofUInt8_encode hr.isPart]
        exact htoken
      · obtain ⟨⟨before, run, behind, hrun, htoken, hstop⟩, hslice⟩ := ih (.beat hr) ht
        refine ⟨⟨encode g ++ encode r ++ before, run, behind,
          (maximalRun_encode_iff hg hr hrest).mpr (Or.inr ⟨before, rfl, hrun⟩), ?_, ?_⟩, hslice⟩
        · simpa only [List.append_assoc] using htoken
        · simpa only [List.append_assoc] using hstop

/-- The token of every maximal run is there. -/
theorem exists_mem_locate {text : List Char} :
    ∀ {atStart : Bool} {passed : List UInt8}, Passed atStart passed →
      ∀ {before run rest : List UInt8} {kind : TokenKind} {start : Nat},
        MaximalRun (encode text) before run rest →
        RunToken (passed ++ before) (run.map Char.ofUInt8) kind start →
        ∃ t ∈ locate passed.length (cut atStart text),
          t.kind = kind ∧ t.start = start ∧ t.stop = (passed ++ before ++ run).length := by
  induction text using beat_induction with
  | gap g hg =>
      intro atStart passed hp before run rest kind start hrun
      exact absurd hrun (not_maximalRun_gap (isPartByte_of_mem_encode hg))
  | beat g r rest hg hr hrest ih =>
      intro atStart passed hp before run behind kind start hrun htoken
      rw [locate_cut_beat passed hg hr hrest]
      rcases (maximalRun_encode_iff hg hr hrest).mp hrun with
        ⟨rfl, rfl, rfl⟩ | ⟨between, rfl, hlater⟩
      · rw [map_ofUInt8_encode hr.isPart] at htoken
        obtain ⟨t, ht, hkind, hstart⟩ := exists_mem_locate_beat hp hg hr htoken
        exact ⟨t, List.mem_append_left _ ht, hkind, hstart,
          (runToken_of_mem_locate_beat hp hg hr ht).2.1⟩
      · have htoken' : RunToken (passed ++ encode g ++ encode r ++ between)
            (run.map Char.ofUInt8) kind start := by
          simpa only [List.append_assoc] using htoken
        obtain ⟨t, ht, hkind, hstart, hstop⟩ := ih (.beat hr) hlater htoken'
        refine ⟨t, List.mem_append_right _ ht, hkind, hstart, ?_⟩
        simpa only [List.append_assoc] using hstop

theorem le_start_of_mem_locate {ps : List Piece} {start : Nat} {t : Token}
    (ht : t ∈ locate start ps) : start ≤ t.start := by
  induction ps generalizing start with
  | nil => exact absurd ht List.not_mem_nil
  | cons p ps ih =>
      cases p with
      | gap u => exact Nat.le_trans (Nat.le_add_right _ _) (ih ht)
      | token k u =>
          rcases List.mem_cons.mp ht with rfl | ht
          · exact Nat.le_refl _
          · exact Nat.le_trans (Nat.le_add_right _ _) (ih ht)

/-- No token reaches into one that is listed later. -/
theorem pairwise_locate (ps : List Piece) (start : Nat) :
    (locate start ps).Pairwise fun a b => a.stop ≤ b.start := by
  induction ps generalizing start with
  | nil => exact List.Pairwise.nil
  | cons p ps ih =>
      cases p with
      | gap u => exact ih _
      | token k u => exact List.pairwise_cons.mpr ⟨fun t ht => le_start_of_mem_locate ht, ih _⟩

theorem RunToken.start_le {before : List UInt8} {run : List Char} {kind : TokenKind}
    {start : Nat} (h : RunToken before run kind start) : start ≤ before.length := by
  cases h with
  | name => exact Nat.le_refl _
  | decimal => exact Nat.le_refl _
  | hex => exact Nat.le_refl _
  | signed => exact Nat.sub_le _ _

section Source

variable {source : String} {t : Token}

theorem maximalRun_of_mem_tokens (ht : t ∈ tokens source) :
    ∃ before run rest, MaximalRun (utf8 source) before run rest ∧
      RunToken before (run.map Char.ofUInt8) t.kind t.start ∧
      t.stop = (before ++ run).length := by
  rw [utf8_eq_encode]
  exact (maximalRun_of_mem_locate .start ht).1

theorem start_lt_stop (ht : t ∈ tokens source) : t.start < t.stop := by
  obtain ⟨before, run, rest, hrun, htoken, hstop⟩ := maximalRun_of_mem_tokens ht
  have hpos : 0 < run.length := List.length_pos_of_ne_nil hrun.ne_nil
  have hle := htoken.start_le
  rw [hstop, List.length_append]
  omega

theorem utf8_text_of_mem_tokens (ht : t ∈ tokens source) :
    utf8 t.text = (utf8 source).extract t.start t.stop := by
  obtain ⟨x, z, hbytes, hstart, hstop⟩ := (maximalRun_of_mem_locate .start ht).2
  rw [List.nil_append, ← utf8_eq_encode] at hbytes
  rw [hbytes, ← hstart, ← hstop, List.append_assoc]
  simp

theorem token_eq {t' : Token} (ht : t ∈ tokens source) (ht' : t' ∈ tokens source)
    (hkind : t.kind = t'.kind) (hstart : t.start = t'.start) (hstop : t.stop = t'.stop) :
    t = t' := by
  have htext : t.text = t'.text := by
    refine utf8_injective ?_
    rw [utf8_text_of_mem_tokens ht, utf8_text_of_mem_tokens ht', hstart, hstop]
  cases t
  cases t'
  simp_all

end Source

/-- The tokens of a text are in the order of the text and do not overlap; the text
of a token is what its span cuts out; every maximal run that the grammar knows is
exactly one token, and every token is such a run. -/
theorem tokens_are_runs (source : String) :
    (tokens source).Pairwise (fun a b => a.stop ≤ b.start) ∧
    (∀ t ∈ tokens source, t.start < t.stop ∧
      utf8 t.text = (utf8 source).extract t.start t.stop) ∧
    (∀ before run rest, MaximalRun (utf8 source) before run rest →
      ∀ kind start, RunToken before (run.map Char.ofUInt8) kind start →
        ∃! t, t ∈ tokens source ∧ t.kind = kind ∧ t.start = start ∧
          t.stop = (before ++ run).length) ∧
    (∀ t ∈ tokens source, ∃ before run rest, MaximalRun (utf8 source) before run rest ∧
      RunToken before (run.map Char.ofUInt8) t.kind t.start ∧
      t.stop = (before ++ run).length) := by
  refine ⟨pairwise_locate _ 0, fun t ht => ⟨start_lt_stop ht, utf8_text_of_mem_tokens ht⟩, ?_,
    fun t ht => maximalRun_of_mem_tokens ht⟩
  intro before run rest hrun kind start htoken
  rw [utf8_eq_encode] at hrun
  obtain ⟨t, ht, hkind, hstart, hstop⟩ := exists_mem_locate .start hrun htoken
  refine ⟨t, ⟨ht, hkind, hstart, hstop⟩, ?_⟩
  rintro t' ⟨ht', hkind', hstart', hstop'⟩
  exact token_eq ht' ht (hkind'.trans hkind.symm) (hstart'.trans hstart.symm)
    (hstop'.trans hstop.symm)

/-- A sign behind a character of two bytes, one behind an operand, and a run that
is no token. -/
example : tokens "é-0x1f 1e5 x-0x2" =
    [⟨.number, "-0x1f", 2, 7⟩, ⟨.name, "x", 12, 13⟩, ⟨.number, "0x2", 14, 17⟩] := by
  decide

end Unmask
