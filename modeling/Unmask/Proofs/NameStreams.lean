/-
# `Unmask.Proofs.NameStreams` — the streams of new names never run dry

The search for the next free name is bounded: `firstFree` gives up after as
many steps as there are taken names.  Giving up would mean handing out a name
that is taken, so the bound has to be right, and it is, by a pigeonhole: the
names of a stream are pairwise distinct, so among one more of them than can be
taken one is free.

    `firstFree_spec`    the first free number from n on, if one of n, …, n + fuel is free
    `exists_not_mem`    one of any taken.length + 1 names of a stream is not taken
    `nameAt_injective`, `letters_injective`    different numbers have different names

Together they say what the two operations of a supply give: `nextWord` and
`nextLetters` hand out the *first* free name from the counter on, whatever the
bound was (`nextWord_spec`, `nextLetters_spec`).  Since that determines the
name, the bound never matters again.
-/
import Mathlib.Data.Finset.Card
import Mathlib.Data.List.GetD
import Mathlib.Data.List.Nodup
import Std.Data.String.ToNat
import Unmask.NameSupply
import Unmask.Proofs.Respelling

namespace Unmask

/-! ## The bounded search -/

/-- `i` is the first number from `n` on that is free. -/
structure IsFirstFree (free : Nat → Bool) (n i : Nat) : Prop where
  le : n ≤ i
  isFree : free i = true
  least : ∀ j, n ≤ j → j < i → free j = false

theorem IsFirstFree.unique {free : Nat → Bool} {n i j : Nat} (hi : IsFirstFree free n i)
    (hj : IsFirstFree free n j) : i = j := by
  rcases Nat.lt_trichotomy i j with h | h | h
  · exact absurd hi.isFree (by simp [hj.least i hi.le h])
  · exact h
  · exact absurd hj.isFree (by simp [hi.least j hj.le h])

theorem firstFree_spec {free : Nat → Bool} : ∀ {fuel n m : Nat}, n ≤ m → m ≤ n + fuel →
    free m = true → IsFirstFree free n (firstFree free fuel n) := by
  intro fuel
  induction fuel with
  | zero =>
      intro n m hn hm hfree
      obtain rfl : n = m := Nat.le_antisymm hn hm
      exact ⟨Nat.le_refl n, hfree, fun j h₁ h₂ => absurd h₂ (Nat.not_lt.mpr h₁)⟩
  | succ fuel ih =>
      intro n m hn hm hfree
      rw [firstFree]
      by_cases h : free n = true
      · rw [if_pos h]
        exact ⟨Nat.le_refl n, h, fun j h₁ h₂ => absurd h₂ (Nat.not_lt.mpr h₁)⟩
      · rw [if_neg h]
        have hne : n ≠ m := fun heq => h (heq ▸ hfree)
        have hlt : n + 1 ≤ m := Nat.lt_of_le_of_ne hn hne
        have hspec := ih hlt (by omega) hfree
        refine ⟨Nat.le_of_succ_le hspec.le, hspec.isFree, fun j h₁ h₂ => ?_⟩
        rcases Nat.eq_or_lt_of_le h₁ with rfl | h₁
        · simpa using h
        · exact hspec.least j h₁ h₂

/-- Among one more name of a stream than are taken, one is not taken. -/
theorem exists_not_mem {name : Nat → String} (hname : Function.Injective name)
    (taken : List String) (n : Nat) :
    ∃ m, n ≤ m ∧ m ≤ n + taken.length ∧ name m ∉ taken := by
  by_contra h
  push Not at h
  have hmaps : Set.MapsTo (fun i => name (n + i)) (Finset.range (taken.length + 1))
      (taken.toFinset) := by
    intro i hi
    have hi' : i < taken.length + 1 := Finset.mem_range.mp hi
    exact List.mem_toFinset.mpr (h (n + i) (by omega) (by omega))
  have hinj : Set.InjOn (fun i => name (n + i)) (Finset.range (taken.length + 1)) :=
    fun i _ j _ hij => Nat.add_left_cancel (hname hij)
  have hcard := Finset.card_le_card_of_injOn _ hmaps hinj
  rw [Finset.card_range] at hcard
  have := taken.toFinset_card_le
  omega

/-! ## Words with a round number -/

theorem words_nodup (role : Role) : role.words.Nodup := by
  cases role with
  | value => exact (by decide +kernel : valueWords.Nodup)
  | function => exact (by decide +kernel : functionWords.Nodup)

/-- A text made of letters, at least one. -/
def IsWord (w : List Char) : Prop := w ≠ [] ∧ ∀ c ∈ w, c.isAlpha = true

instance (w : List Char) : Decidable (IsWord w) :=
  decidable_of_iff ((!w.isEmpty && w.all Char.isAlpha) = true) (by simp [IsWord])

theorem isWord_of_mem_words {role : Role} {w : String} (h : w ∈ role.words) :
    IsWord w.toList := by
  cases role with
  | value => exact (by decide +kernel : ∀ w ∈ valueWords, IsWord w.toList) w h
  | function => exact (by decide +kernel : ∀ w ∈ functionWords, IsWord w.toList) w h

/-- The number behind a word: none in the first round. -/
def roundDigits (round : Nat) : List Char :=
  if round = 0 then [] else Nat.toDigits 10 (round + 1)

theorem isDigit_of_mem_roundDigits {round : Nat} {c : Char} (h : c ∈ roundDigits round) :
    c.isDigit = true := by
  rw [roundDigits] at h
  split_ifs at h
  · exact absurd h List.not_mem_nil
  · exact Nat.isDigit_of_mem_toDigits (by omega) (Nat.le_refl 10) h

theorem roundDigits_injective {a b : Nat} (h : roundDigits a = roundDigits b) : a = b := by
  rw [roundDigits, roundDigits] at h
  split_ifs at h with ha hb hb
  · rw [ha, hb]
  · exact absurd h.symm Nat.toDigits_ne_nil
  · exact absurd h Nat.toDigits_ne_nil
  · have hrepr : Nat.repr (a + 1) = Nat.repr (b + 1) := by
      rw [Nat.repr_eq_ofList_toDigits, Nat.repr_eq_ofList_toDigits, h]
    exact Nat.succ_injective (Nat.repr_injective hrepr)

theorem toList_nameAt (role : Role) (n : Nat) :
    (role.nameAt n).toList =
      (role.words.getD (n % role.words.length) "").toList ++
        roundDigits (n / role.words.length) := by
  simp only [Role.nameAt, roundDigits]
  split_ifs
  · rw [List.append_nil]
  · rw [String.toList_append, Nat.toList_repr]

theorem words_length_pos (role : Role) : 0 < role.words.length := by
  cases role <;> decide

theorem getD_mem_words (role : Role) (n : Nat) :
    role.words.getD (n % role.words.length) "" ∈ role.words := by
  have h : n % role.words.length < role.words.length := Nat.mod_lt _ (words_length_pos role)
  rw [List.getD_eq_getElem _ _ h]
  exact List.getElem_mem h

theorem letters_digits_inj {w w' d d' : List Char} (hw : ∀ c ∈ w, c.isAlpha = true)
    (hw' : ∀ c ∈ w', c.isAlpha = true) (hd : ∀ c ∈ d, c.isDigit = true)
    (hd' : ∀ c ∈ d', c.isDigit = true) (h : w ++ d = w' ++ d') : w = w' ∧ d = d' := by
  have split : ∀ {w d : List Char}, (∀ c ∈ w, c.isAlpha = true) → (∀ c ∈ d, c.isDigit = true) →
      (w ++ d).filter Char.isDigit = d := by
    intro w d hw hd
    have hnil : w.filter Char.isDigit = [] :=
      List.filter_eq_nil_iff.mpr fun c hc => by simp [isDigit_eq_false_of_isAlpha (hw c hc)]
    rw [List.filter_append, hnil, List.nil_append, List.filter_eq_self.mpr hd]
  have hdd : d = d' := by rw [← split hw hd, h, split hw' hd']
  subst hdd
  exact ⟨List.append_cancel_right h, rfl⟩

theorem nameAt_injective (role : Role) : Function.Injective role.nameAt := by
  intro a b h
  have hlist : (role.nameAt a).toList = (role.nameAt b).toList := by rw [h]
  rw [toList_nameAt, toList_nameAt] at hlist
  obtain ⟨hword, hround⟩ := letters_digits_inj
    (isWord_of_mem_words (getD_mem_words role a)).2
    (isWord_of_mem_words (getD_mem_words role b)).2
    (fun _ => isDigit_of_mem_roundDigits) (fun _ => isDigit_of_mem_roundDigits) hlist
  have hpos := words_length_pos role
  have hmod : a % role.words.length = b % role.words.length := by
    have heq := String.toList_inj.mp hword
    rw [List.getD_eq_getElem _ _ (Nat.mod_lt _ hpos),
      List.getD_eq_getElem _ _ (Nat.mod_lt _ hpos)] at heq
    exact (words_nodup role).getElem_inj_iff.mp heq
  calc a = role.words.length * (a / role.words.length) + a % role.words.length :=
        (Nat.div_add_mod a _).symm
    _ = role.words.length * (b / role.words.length) + b % role.words.length := by
        rw [roundDigits_injective hround, hmod]
    _ = b := Nat.div_add_mod b _

theorem isValid_letters_digits {w d : List Char} (hw : IsWord w)
    (hd : ∀ c ∈ d, c.isDigit = true) : Name.isValid (w ++ d) = true := by
  obtain ⟨hne, halpha⟩ := hw
  obtain ⟨c, cs, rfl⟩ := List.exists_cons_of_ne_nil hne
  refine isValid_cons.mpr ⟨?_, ?_⟩
  · simp [Name.isStart, halpha c List.mem_cons_self]
  · intro x hx
    rcases List.mem_append.mp hx with hx | hx
    · simp [Name.isPart, Char.isAlphanum, halpha x (List.mem_cons_of_mem _ hx)]
    · simp [Name.isPart, Char.isAlphanum, hd x hx]

theorem isValid_nameAt (role : Role) (n : Nat) : Name.isValid (role.nameAt n).toList = true := by
  rw [toList_nameAt]
  exact isValid_letters_digits (isWord_of_mem_words (getD_mem_words role n))
    fun _ => isDigit_of_mem_roundDigits

/-! ## Names made of letters

Reading the letters back as digits from 1 to 26 gives the number plus one. -/

/-- The value of letters as digits of base 26, `a` counting one. -/
def lettersValue (cs : List Char) : Nat :=
  cs.foldl (fun v c => v * 26 + (c.toNat - 'a'.toNat + 1)) 0

theorem toNat_letter {d : Nat} (h : d < 26) : (Char.ofNat ('a'.toNat + d)).toNat = 97 + d := by
  exact (by decide : ∀ d < 26, (Char.ofNat ('a'.toNat + d)).toNat = 97 + d) d h

theorem lettersValue_letters (n : Nat) : lettersValue (letters n) = n + 1 := by
  induction n using Nat.strong_induction_on with
  | _ n ih =>
      have hd : n % 26 < 26 := Nat.mod_lt n (by omega)
      rw [letters]
      split_ifs with hlt
      · simp only [lettersValue, List.foldl_cons, List.foldl_nil, toNat_letter hd]
        have : 'a'.toNat = 97 := rfl
        omega
      · have hrec := ih (n / 26 - 1) (by omega)
        rw [lettersValue] at hrec ⊢
        rw [List.foldl_append, hrec, List.foldl_cons, List.foldl_nil, toNat_letter hd]
        have : 'a'.toNat = 97 := rfl
        omega

theorem letters_injective : Function.Injective fun n => String.ofList (letters n) := by
  intro a b h
  have hval : lettersValue (letters a) = lettersValue (letters b) := by
    rw [String.ofList_injective h]
  rw [lettersValue_letters, lettersValue_letters] at hval
  exact Nat.succ_injective hval

theorem isWord_letters (n : Nat) : IsWord (letters n) := by
  have hlast : ∀ d < 26, (Char.ofNat ('a'.toNat + d)).isAlpha = true := by decide
  induction n using Nat.strong_induction_on with
  | _ n ih =>
      have hd : n % 26 < 26 := Nat.mod_lt n (by omega)
      rw [letters]
      split_ifs with hlt
      · refine ⟨List.cons_ne_nil _ _, fun c hc => ?_⟩
        rw [List.mem_singleton.mp hc]
        exact hlast _ hd
      · refine ⟨List.append_ne_nil_of_right_ne_nil _ (List.cons_ne_nil _ _), fun c hc => ?_⟩
        rcases List.mem_append.mp hc with hc | hc
        · exact (ih (n / 26 - 1) (by omega)).2 c hc
        · rw [List.mem_singleton.mp hc]
          exact hlast _ hd

theorem isValid_letters (n : Nat) : Name.isValid (letters n) = true := by
  rw [← List.append_nil (letters n)]
  exact isValid_letters_digits (isWord_letters n) fun _ h => absurd h List.not_mem_nil

/-! ## What a supply hands out -/

namespace NameSupply

theorem wordFree_iff {s : NameSupply} {name : String} :
    s.wordFree name = true ↔ name ∉ s.issued ∧ isReserved name = false := by
  rw [wordFree, Bool.and_eq_true, Bool.not_eq_true', Bool.not_eq_true',
    ← Bool.not_eq_true, Std.TreeSet.contains_iff_mem]

theorem lettersFree_iff {s : NameSupply} {name : String} :
    s.lettersFree name = true ↔ name ∉ s.occupied ∧ isReserved name = false := by
  rw [lettersFree, Bool.and_eq_true, Bool.not_eq_true', Bool.not_eq_true',
    ← Bool.not_eq_true, Std.TreeSet.contains_iff_mem]

/-- The next word is the first free one from the counter on; it is issued, its
stream moves behind it, and nothing else changes. -/
theorem nextWord_spec (s : NameSupply) (role : Role) :
    ∃ n, IsFirstFree (fun n => s.wordFree (role.nameAt n)) (s.counter role) n ∧
      s.nextWord role = (role.nameAt n,
        { s.advance role (n + 1) with issued := s.issued.insert (role.nameAt n) }) := by
  refine ⟨_, ?_, rfl⟩
  obtain ⟨m, hle, hbound, hfree⟩ := exists_not_mem (nameAt_injective role)
    (s.issued.toList ++ reservedWords) (s.counter role)
  rw [List.length_append, Std.TreeSet.length_toList] at hbound
  refine firstFree_spec hle hbound ?_
  rw [List.mem_append, not_or, Std.TreeSet.mem_toList] at hfree
  exact wordFree_iff.mpr ⟨hfree.1, by simp [isReserved, hfree.2]⟩

/-- The next letters are the first free ones from the counter on; their stream
moves behind them, and nothing else changes. -/
theorem nextLetters_spec (s : NameSupply) :
    ∃ n, IsFirstFree (fun n => s.lettersFree (String.ofList (letters n))) s.numbers n ∧
      s.nextLetters = (String.ofList (letters n), { s with numbers := n + 1 }) := by
  refine ⟨_, ?_, rfl⟩
  obtain ⟨m, hle, hbound, hfree⟩ := exists_not_mem letters_injective
    (s.occupied.toList ++ reservedWords) s.numbers
  rw [List.length_append, Std.TreeSet.length_toList] at hbound
  refine firstFree_spec hle hbound ?_
  rw [List.mem_append, not_or, Std.TreeSet.mem_toList] at hfree
  exact lettersFree_iff.mpr ⟨hfree.1, by simp [isReserved, hfree.2]⟩

end NameSupply

end Unmask
