/-
# `Unmask.Proofs.LetterOrder` — letters come in dictionary order, and none is left out

Numbers are written with letters in base 26 without a zero: behind `z` comes `aa`,
behind `zz` comes `aaa`.  Read as an enumeration, this is the shortlex order of all
texts over `a` to `z`, shorter texts first and texts of one length as in a dictionary:

    `shortlex_letters_iff`    a smaller number has the earlier letters
    `exists_letters_eq`       every text over `a` to `z` but the empty one is some number's

Both follow the digits from the right (`letters_induction`): a number is a digit, or a
smaller number with a digit behind it.

Drawn from a supply, the letters are those that are open, in this order
(`drawnFrom_eq`).  So the name drawn after `k` others is the one in front of which
exactly `k` free names stand, and `letters_in_order` says so of every row of calls.
-/
import Mathlib.Data.List.Shortlex
import Mathlib.Data.Set.Card
import Unmask.Proofs.NameDraws

namespace Unmask

/-! ## Digits from the right -/

theorem letters_digit {d : Nat} (h : d < 26) : letters d = [Char.ofNat ('a'.toNat + d)] := by
  rw [letters, if_pos h, Nat.mod_eq_of_lt h]

theorem letters_carry (m : Nat) {d : Nat} (h : d < 26) :
    letters (26 * (m + 1) + d) = letters m ++ [Char.ofNat ('a'.toNat + d)] := by
  have hdiv : (26 * (m + 1) + d) / 26 - 1 = m := by omega
  have hmod : (26 * (m + 1) + d) % 26 = d := by omega
  rw [letters, if_neg (by omega), hdiv, hmod]

/-- A number is a digit, or a smaller number with a digit behind it. -/
theorem letters_induction {motive : Nat → Prop} (digit : ∀ d, d < 26 → motive d)
    (carry : ∀ m d, d < 26 → motive m → motive (26 * (m + 1) + d)) (n : Nat) : motive n := by
  induction n using Nat.strong_induction_on with
  | _ n ih =>
      by_cases hlt : n < 26
      · exact digit n hlt
      · have hn : 26 * (n / 26 - 1 + 1) + n % 26 = n := by omega
        rw [← hn]
        exact carry _ _ (Nat.mod_lt n (by omega)) (ih _ (by omega))

/-- One of the letters `a` to `z`. -/
def IsLowercase (c : Char) : Prop := 'a' ≤ c ∧ c ≤ 'z'

theorem isLowercase_digit {d : Nat} (h : d < 26) : IsLowercase (Char.ofNat ('a'.toNat + d)) := by
  have hd := toNat_letter h
  constructor
  · show 97 ≤ (Char.ofNat ('a'.toNat + d)).toNat
    omega
  · show (Char.ofNat ('a'.toNat + d)).toNat ≤ 122
    omega

theorem exists_digit {c : Char} (h : IsLowercase c) :
    ∃ d, d < 26 ∧ c = Char.ofNat ('a'.toNat + d) := by
  have hlow : 97 ≤ c.toNat := h.1
  have hhigh : c.toNat ≤ 122 := h.2
  refine ⟨c.toNat - 97, by omega, ?_⟩
  have hsum : 'a'.toNat + (c.toNat - 97) = c.toNat := by
    show 97 + (c.toNat - 97) = c.toNat
    omega
  rw [hsum, Char.ofNat_toNat]

theorem digit_lt {d e : Nat} (hlt : d < e) (he : e < 26) :
    Char.ofNat ('a'.toNat + d) < Char.ofNat ('a'.toNat + e) := by
  show (Char.ofNat ('a'.toNat + d)).toNat < (Char.ofNat ('a'.toNat + e)).toNat
  rw [toNat_letter he, toNat_letter (Nat.lt_trans hlt he)]
  omega

theorem isLowercase_of_mem_letters (n : Nat) : ∀ c ∈ letters n, IsLowercase c := by
  induction n using letters_induction with
  | digit d hd =>
      intro c hc
      rw [letters_digit hd, List.mem_singleton] at hc
      exact hc ▸ isLowercase_digit hd
  | carry m d hd ih =>
      intro c hc
      rw [letters_carry m hd, List.mem_append, List.mem_singleton] at hc
      rcases hc with hc | rfl
      · exact ih c hc
      · exact isLowercase_digit hd

theorem exists_letters_eq {w : List Char} (hne : w ≠ []) (hlower : ∀ c ∈ w, IsLowercase c) :
    ∃ n, letters n = w := by
  induction w using List.reverseRecOn with
  | nil => exact absurd rfl hne
  | append_singleton front c ih =>
      obtain ⟨d, hd, rfl⟩ := exists_digit (hlower c (List.mem_append_right _ List.mem_cons_self))
      cases front with
      | nil => exact ⟨d, letters_digit hd⟩
      | cons c₀ front =>
          obtain ⟨m, hm⟩ := ih (List.cons_ne_nil _ _) fun c hc =>
            hlower c (List.mem_append_left _ hc)
          exact ⟨26 * (m + 1) + d, by rw [letters_carry m hd, hm]⟩

/-! ## The order -/

theorem lex_append {r : Char → Char → Prop} {u v : List Char} (h : List.Lex r u v) :
    u.length = v.length → ∀ x y, List.Lex r (u ++ x) (v ++ y) := by
  induction h with
  | nil =>
      intro hlen
      exact absurd hlen (by simp)
  | cons _ ih =>
      intro hlen x y
      exact .cons (ih (Nat.succ_injective hlen) x y)
  | rel hr =>
      intro _ x y
      exact .rel hr

theorem shortlex_concat {u v : List Char} (h : List.Shortlex (· < ·) u v) (c d : Char) :
    List.Shortlex (· < ·) (u ++ [c]) (v ++ [d]) := by
  rcases List.shortlex_def.mp h with hlen | ⟨hlen, hlex⟩
  · exact .of_length_lt (by simpa using hlen)
  · exact .of_lex (by simpa using hlen) (lex_append hlex hlen _ _)

theorem shortlex_letters {b : Nat} :
    ∀ {a : Nat}, a < b → List.Shortlex (· < ·) (letters a) (letters b) := by
  induction b using letters_induction with
  | digit e he =>
      intro a hlt
      rw [letters_digit he, letters_digit (Nat.lt_trans hlt he), List.shortlex_singleton_iff]
      exact digit_lt hlt he
  | carry m e he ih =>
      intro a hlt
      rw [letters_carry m he]
      cases a using letters_induction with
      | digit d hd =>
          rw [letters_digit hd]
          refine .of_length_lt ?_
          have hpos := List.length_pos_of_ne_nil (isWord_letters m).1
          simpa using hpos
      | carry l d hd _ =>
          rw [letters_carry l hd]
          rcases Nat.lt_or_ge l m with hlm | hml
          · exact shortlex_concat (ih hlm) _ _
          · obtain rfl : l = m := by omega
            refine .append_left ?_ (letters l)
            rw [List.shortlex_singleton_iff]
            exact digit_lt (by omega) he

theorem shortlex_letters_iff {a b : Nat} :
    List.Shortlex (· < ·) (letters a) (letters b) ↔ a < b := by
  refine ⟨fun h => ?_, shortlex_letters⟩
  rcases Nat.lt_trichotomy a b with hlt | rfl | hgt
  · exact hlt
  · exact absurd h (Std.Asymm.asymm _ _ h)
  · exact absurd (shortlex_letters hgt) (Std.Asymm.asymm _ _ h)

/-! ## The names that are left -/

/-- The names made of letters that may be handed out when some are reserved. -/
def freeLetters (reserved : List String) : Set String :=
  {w | w ≠ "" ∧ (∀ c ∈ w.toList, IsLowercase c) ∧ w ∉ reserved ∧ w ∉ reservedWords}

/-- Shorter names first, names of one length as in a dictionary. -/
def Precedes (v w : String) : Prop := List.Shortlex (· < ·) v.toList w.toList

/-- The name of a set in front of which exactly `k` others stand. -/
def IsNth (names : Set String) (k : Nat) (w : String) : Prop :=
  w ∈ names ∧ {v | v ∈ names ∧ Precedes v w}.encard = k

theorem precedes_nameAt {a b : Nat} :
    Precedes (NameStream.letters.nameAt a) (NameStream.letters.nameAt b) ↔ a < b := by
  rw [Precedes, NameStream.nameAt, NameStream.nameAt, String.toList_ofList, String.toList_ofList,
    shortlex_letters_iff]

theorem mem_freeLetters_iff {reserved : List String} {w : String} :
    w ∈ freeLetters reserved ↔
      ∃ n, NameStream.letters.Open reserved n ∧ w = NameStream.letters.nameAt n := by
  constructor
  · rintro ⟨hne, hlower, hfree⟩
    have hlist : w.toList ≠ [] := fun hnil => hne (String.toList_eq_nil_iff.mp hnil)
    obtain ⟨n, hn⟩ := exists_letters_eq hlist hlower
    have hw : w = NameStream.letters.nameAt n := by
      rw [NameStream.nameAt, hn, String.ofList_toList]
    refine ⟨n, ?_, hw⟩
    rw [NameStream.Open, ← hw]
    exact hfree
  · rintro ⟨n, hopen, rfl⟩
    have hlist : (NameStream.letters.nameAt n).toList = letters n := String.toList_ofList
    refine ⟨?_, ?_, hopen⟩
    · intro hempty
      rw [hempty] at hlist
      exact (isWord_letters n).1 hlist.symm
    · rw [hlist]
      exact isLowercase_of_mem_letters n

/-- The names in front of an open one are those of the open numbers below its number. -/
theorem encard_precedes (reserved : List String) (n : Nat) :
    {v | v ∈ freeLetters reserved ∧ Precedes v (NameStream.letters.nameAt n)}.encard =
      Nat.count (NameStream.letters.Open reserved) n := by
  have himage : {v | v ∈ freeLetters reserved ∧ Precedes v (NameStream.letters.nameAt n)} =
      NameStream.letters.nameAt ''
        ((Finset.range n).filter (NameStream.letters.Open reserved) : Set Nat) := by
    ext v
    simp only [Set.mem_ofPred_eq, mem_freeLetters_iff, Set.mem_image, Finset.coe_filter,
      Finset.mem_range]
    constructor
    · rintro ⟨⟨m, hopen, rfl⟩, hbefore⟩
      exact ⟨m, ⟨precedes_nameAt.mp hbefore, hopen⟩, rfl⟩
    · rintro ⟨m, ⟨hlt, hopen⟩, rfl⟩
      exact ⟨⟨m, hopen, rfl⟩, precedes_nameAt.mpr hlt⟩
  rw [himage, NameStream.letters.nameAt_injective.encard_image, Set.encard_coe_eq_coe_finsetCard,
    Nat.count_eq_card_filter_range]

/-- No finite number of reserved names exhausts a stream. -/
theorem infinite_open (k : NameStream) (reserved : List String) :
    (Set.ofPred (k.Open reserved)).Infinite := by
  refine Set.infinite_of_forall_exists_gt fun n => ?_
  obtain ⟨m, hle, -, hfree⟩ := exists_not_mem k.nameAt_injective (reserved ++ reservedWords) (n + 1)
  rw [List.mem_append, not_or] at hfree
  exact ⟨m, hfree, hle⟩

theorem isNth_iff {reserved : List String} {i : Nat} {w : String} :
    IsNth (freeLetters reserved) i w ↔
      w = NameStream.letters.nameAt (Nat.nth (NameStream.letters.Open reserved) i) := by
  have hinf := infinite_open .letters reserved
  constructor
  · rintro ⟨hmem, hrank⟩
    obtain ⟨n, hopen, rfl⟩ := mem_freeLetters_iff.mp hmem
    rw [encard_precedes, Nat.cast_inj] at hrank
    rw [← hrank, Nat.nth_count hopen]
  · rintro rfl
    refine ⟨mem_freeLetters_iff.mpr ⟨_, Nat.nth_mem_of_infinite hinf i, rfl⟩, ?_⟩
    rw [encard_precedes, Nat.count_nth_of_infinite hinf]

/-! ## Letters drawn from a supply -/

/-- The list of the first `count` free names, in order and without a gap. -/
structure InOrder (reserved : List String) (count : Nat) (drawn : List String) : Prop where
  length : drawn.length = count
  nth : ∀ k w, drawn[k]? = some w ↔ k < count ∧ IsNth (freeLetters reserved) k w
  later : drawn.Pairwise Precedes
  noGap : ∀ v w, w ∈ drawn → v ∈ freeLetters reserved → Precedes v w → v ∈ drawn

theorem inOrder_open (reserved : List String) (count : Nat) :
    InOrder reserved count ((List.range count).map fun i =>
      NameStream.letters.nameAt (Nat.nth (NameStream.letters.Open reserved) i)) where
  length := by rw [List.length_map, List.length_range]
  nth k w := by
    rw [isNth_iff, List.getElem?_map, Option.map_eq_some_iff]
    constructor
    · rintro ⟨i, hi, rfl⟩
      obtain ⟨hlt, rfl⟩ := List.getElem?_eq_some_iff.mp hi
      rw [List.length_range] at hlt
      rw [List.getElem_range]
      exact ⟨hlt, rfl⟩
    · rintro ⟨hlt, rfl⟩
      exact ⟨k, List.getElem?_range hlt, rfl⟩
  later := by
    rw [List.pairwise_map]
    refine List.pairwise_lt_range.imp fun hlt => ?_
    exact precedes_nameAt.mpr (Nat.nth_strictMono (infinite_open .letters reserved) hlt)
  noGap := by
    intro v w hw hv hbefore
    obtain ⟨i, hi, rfl⟩ := List.mem_map.mp hw
    obtain ⟨n, hopen, rfl⟩ := mem_freeLetters_iff.mp hv
    refine List.mem_map.mpr ⟨Nat.count (NameStream.letters.Open reserved) n, ?_, ?_⟩
    · have hcount := Nat.count_strict_mono hopen (precedes_nameAt.mp hbefore)
      rw [Nat.count_nth_of_infinite (infinite_open .letters reserved)] at hcount
      exact List.mem_range.mpr (Nat.lt_trans hcount (List.mem_range.mp hi))
    · rw [Nat.nth_count hopen]

namespace NameSupply

/-- Letters are drawn in order and without a gap.  Every search for letters ends, and in
every row of calls the name that is drawn after `k` others made of letters is the `k`-th
of the free ones, counted from zero, whatever words are drawn in between.  So the names
get later and later, and no free name is left out before them. -/
theorem letters_in_order (reserved : List String) (calls : List NameStream) :
    (∀ s : NameSupply, ∃ rounds, Search .letters s rounds s.nextLetters.1 s.nextLetters.2) ∧
      InOrder reserved (calls.count .letters)
        ((({} : NameSupply).reserve reserved).drawnFrom .letters calls) := by
  constructor
  · intro s
    obtain ⟨n, hleast, -⟩ := s.draw_spec .letters
    exact ⟨_, (search_iff hleast).mpr ⟨rfl, rfl⟩⟩
  · rw [drawnFrom_eq]
    exact inOrder_open reserved _

/-- Behind `z`, which is reserved here like all letters but `a`, comes `aa`. -/
example :
    (({} : NameSupply).reserve ("bcdefghijklmnopqrstuvwxyz".toList.map fun c =>
      String.ofList [c])).drawnFrom .letters [.letters, .words .value, .letters] =
        ["a", "aa"] := by
  decide +kernel

end NameSupply

end Unmask
