/-
# `Unmask.Proofs.ByOffset.Access` — access to a text by byte offsets

The definitions of this library walk through a text from its start and never
name a place in it.  A program that keeps a text as its bytes in UTF-8 names
places all the time: it reads the byte in front of a run, cuts out the stretch
between two offsets, goes on behind a quote.  Each such access can go wrong, and
then the program stops.

This module holds the accesses, with their faults.  A byte or a stretch of bytes
may lie behind the end of the text (`outOfRange`); a cut may fall inside a
character (`insideCharacter`); a difference of offsets may be negative, and a
number may not fit its word (`overflow`).  The modules that follow write the whole
run down a second time with these accesses, and show that no fault is ever met
and that the result is that of the run.

Bytes are compared with characters of ASCII only, so a byte is read as the
character of its number (`octets`).  What makes this work is that a class of ASCII
characters has a byte in it exactly if it has the character that the byte belongs
to (`ByteClass`): searching the bytes for such a class is searching the text.
-/
import Unmask.Proofs.TokenGrammar

namespace Unmask.ByOffset

/-! ## Faults -/

/-- Why an access by offset, or a calculation, stops the program. -/
inductive Fault where
  | outOfRange
  | insideCharacter
  | overflow
deriving Repr, DecidableEq, Inhabited

/-- What may meet a fault. -/
abbrev Checked (α : Type) := Except Fault α

@[simp] theorem ok_bind {α β : Type} (a : α) (f : α → Checked β) : (Except.ok a >>= f) = f a := rfl

theorem bind_eq_ok {α β : Type} {x : Checked α} {f : α → Checked β} {b : β} :
    (x >>= f) = .ok b ↔ ∃ a, x = .ok a ∧ f a = .ok b := by
  cases x with
  | error e =>
      constructor
      · intro h
        exact nomatch h
      · rintro ⟨a, ha, -⟩
        exact nomatch ha
  | ok a =>
      constructor
      · intro h
        exact ⟨a, rfl, h⟩
      · rintro ⟨a', ha, h⟩
        rw [Except.ok.inj ha]
        exact h

section Lists

variable {α β : Type} {l : List α}

theorem filterMapM_ok {f : α → Checked (Option β)} {g : α → Option β}
    (h : ∀ a ∈ l, f a = .ok (g a)) : l.filterMapM f = .ok (l.filterMap g) := by
  induction l with
  | nil => rfl
  | cons a l ih =>
      have hlater := ih fun b hb => h b (List.mem_cons_of_mem a hb)
      rw [List.filterMapM_cons, h a List.mem_cons_self, ok_bind, hlater, List.filterMap_cons]
      cases g a with
      | none => rfl
      | some b => rfl

/-- What a search keeps, when it knows of each entry only that it does not fault. -/
theorem exists_filterMapM {f : α → Checked (Option β)} (h : ∀ a ∈ l, ∃ o, f a = .ok o) :
    ∃ bs, l.filterMapM f = .ok bs ∧ ∀ b, b ∈ bs ↔ ∃ a ∈ l, f a = .ok (some b) := by
  let g (a : α) : Option β := (f a).toOption.join
  have hg : ∀ a ∈ l, f a = .ok (g a) := by
    intro a ha
    obtain ⟨o, ho⟩ := h a ha
    rw [show g a = o by simp only [g, ho]; cases o <;> rfl, ho]
  refine ⟨l.filterMap g, filterMapM_ok hg, fun b => ?_⟩
  rw [List.mem_filterMap]
  constructor
  · rintro ⟨a, ha, hb⟩
    exact ⟨a, ha, by rw [hg a ha, hb]⟩
  · rintro ⟨a, ha, hb⟩
    rw [hg a ha] at hb
    exact ⟨a, ha, Except.ok.inj hb⟩

theorem findSomeM?_ok {f : α → Checked (Option β)} {g : α → Option β}
    (h : ∀ a ∈ l, f a = .ok (g a)) : l.findSomeM? f = .ok (l.findSome? g) := by
  induction l with
  | nil => rfl
  | cons a l ih =>
      have hlater := ih fun b hb => h b (List.mem_cons_of_mem a hb)
      rw [List.findSomeM?_cons, h a List.mem_cons_self, ok_bind, List.findSome?_cons]
      cases g a with
      | none => exact hlater
      | some b => rfl

theorem foldlM_ok {f : β → α → Checked β} {g : β → α → β} (h : ∀ b, ∀ a ∈ l, f b a = .ok (g b a))
    (b : β) : l.foldlM f b = .ok (l.foldl g b) := by
  induction l generalizing b with
  | nil => rfl
  | cons a l ih =>
      rw [List.foldlM_cons, h b a List.mem_cons_self, ok_bind]
      exact ih (fun b' a' ha' => h b' a' (List.mem_cons_of_mem a ha')) (g b a)

end Lists

/-! ## Bytes -/

/-- The bytes of a text, each as the character of its number. -/
def octets (text : List Char) : List Char := (encode text).map Char.ofUInt8

def octetAt (bytes : List Char) (i : Nat) : Checked Char :=
  match bytes[i]? with
  | some b => .ok b
  | none => .error .outOfRange

def octetsFrom (bytes : List Char) (i : Nat) : Checked (List Char) :=
  if i ≤ bytes.length then .ok (bytes.drop i) else .error .outOfRange

def minus (i j : Nat) : Checked Nat := if j ≤ i then .ok (i - j) else .error .overflow

@[simp] theorem octets_nil : octets [] = [] := rfl

@[simp] theorem octets_append (a b : List Char) : octets (a ++ b) = octets a ++ octets b := by
  rw [octets, encode_append, List.map_append]
  rfl

theorem octets_cons (c : Char) (cs : List Char) : octets (c :: cs) = octets [c] ++ octets cs :=
  octets_append [c] cs

@[simp] theorem length_octets (text : List Char) : (octets text).length = byteLength text := by
  rw [octets, List.length_map, length_encode]

theorem octets_ne_nil (c : Char) : octets [c] ≠ [] := by
  intro h
  rw [octets, List.map_eq_nil_iff] at h
  exact encode_ne_nil (List.cons_ne_nil c []) h

theorem octetAt_of_getElem? {bytes : List Char} {i : Nat} {b : Char} (h : bytes[i]? = some b) :
    octetAt bytes i = .ok b := by
  rw [octetAt, h]

theorem octetsFrom_of_le {bytes : List Char} {i : Nat} (h : i ≤ bytes.length) :
    octetsFrom bytes i = .ok (bytes.drop i) :=
  if_pos h

theorem octetsFrom_append (a b : List Char) :
    octetsFrom (octets (a ++ b)) (byteLength a) = .ok (octets b) := by
  rw [octetsFrom_of_le, octets_append, ← length_octets a, List.drop_left]
  rw [length_octets, byteLength_append]
  exact Nat.le_add_right _ _

/-- A byte of a character is the character, or neither of them is ASCII. -/
theorem mem_octets {b c : Char} (h : b ∈ octets [c]) :
    (octets [c] = [c] ∧ b = c) ∨ (128 ≤ b.toNat ∧ 128 ≤ c.toNat) := by
  obtain ⟨u, hu, rfl⟩ := List.mem_map.mp h
  rw [encode_singleton] at hu
  rcases mem_utf8EncodeChar hu with ⟨hsingle, hc⟩ | ⟨hbyte, hc⟩
  · refine Or.inl ⟨?_, hc⟩
    rw [octets, encode_singleton, hsingle, List.map_singleton, hc]
  · exact Or.inr ⟨by rw [toNat_ofUInt8]; exact hbyte, hc⟩

theorem octets_of_lt {c : Char} (h : c.toNat < 128) : octets [c] = [c] := by
  obtain ⟨b, hb⟩ := List.exists_mem_of_ne_nil _ (octets_ne_nil c)
  rcases mem_octets hb with ⟨hsingle, -⟩ | ⟨-, hc⟩
  · exact hsingle
  · omega

theorem octets_of_ascii {text : List Char} (h : ∀ c ∈ text, c.toNat < 128) :
    octets text = text := by
  induction text with
  | nil => rfl
  | cons c cs ih =>
      rw [octets_cons, octets_of_lt (h c List.mem_cons_self),
        ih fun d hd => h d (List.mem_cons_of_mem c hd)]
      rfl

theorem byteLength_of_lt {c : Char} (h : c.toNat < 128) : byteLength [c] = 1 := by
  rw [← length_octets, octets_of_lt h]
  rfl

/-- A class of characters that holds of a byte exactly if it holds of its character. -/
def ByteClass (P : Char → Bool) : Prop := ∀ ⦃b c : Char⦄, b ∈ octets [c] → P b = P c

theorem byteClass_of_ascii {P : Char → Bool} (k : Bool) (h : ∀ c : Char, 128 ≤ c.toNat → P c = k) :
    ByteClass P := by
  intro b c hb
  rcases mem_octets hb with ⟨-, rfl⟩ | ⟨hbyte, hc⟩
  · rfl
  · rw [h b hbyte, h c hc]

theorem byteClass_of_lt {P : Char → Bool} (h : ∀ c, P c = true → c.toNat < 128) : ByteClass P := by
  refine byteClass_of_ascii false fun c hc => ?_
  rw [← Bool.not_eq_true]
  intro hP
  have := h c hP
  omega

theorem byteClass_eq {d : Char} (hd : d.toNat < 128) : ByteClass (· == d) := by
  refine byteClass_of_lt fun c hc => ?_
  rw [beq_iff_eq.mp hc]
  exact hd

theorem ByteClass.not {P : Char → Bool} (h : ByteClass P) : ByteClass fun c => !P c := by
  intro b c hb
  exact congrArg Bool.not (h hb)

section ByteClass

variable {P : Char → Bool}

theorem exists_octets_cons (c : Char) : ∃ b bs, octets [c] = b :: bs :=
  List.exists_cons_of_ne_nil (octets_ne_nil c)

theorem takeWhile_octets (h : ByteClass P) (text : List Char) :
    (octets text).takeWhile P = octets (text.takeWhile P) := by
  induction text with
  | nil => rfl
  | cons c cs ih =>
      rw [octets_cons, List.takeWhile_cons]
      cases hc : P c with
      | true =>
          rw [List.takeWhile_append_of_pos fun b hb => (h hb).trans hc, ih, if_pos rfl,
            octets_cons c (cs.takeWhile P)]
      | false =>
          obtain ⟨b, bs, hbytes⟩ := exists_octets_cons c
          have hb : P b = false := (h (hbytes ▸ List.mem_cons_self)).trans hc
          simp [hbytes, hb]

theorem dropWhile_octets (h : ByteClass P) (text : List Char) :
    (octets text).dropWhile P = octets (text.dropWhile P) := by
  have hsplit : (octets text).takeWhile P ++ (octets text).dropWhile P =
      octets (text.takeWhile P) ++ octets (text.dropWhile P) := by
    rw [List.takeWhile_append_dropWhile, ← octets_append, List.takeWhile_append_dropWhile]
  rw [takeWhile_octets h] at hsplit
  exact List.append_cancel_left hsplit

theorem findIdx?_octets (h : ByteClass P) (text : List Char) :
    (octets text).findIdx? P = (text.findIdx? P).map fun k => byteLength (text.take k) := by
  induction text with
  | nil => rfl
  | cons c cs ih =>
      rw [octets_cons, List.findIdx?_cons]
      cases hc : P c with
      | true =>
          obtain ⟨b, bs, hbytes⟩ := exists_octets_cons c
          have hb : P b = true := (h (hbytes ▸ List.mem_cons_self)).trans hc
          simp [hbytes, List.findIdx?_cons, hb, byteLength]
      | false =>
          have hnone : (octets [c]).findIdx? P = none := by
            rw [List.findIdx?_eq_none_iff]
            exact fun b hb => (h hb).trans hc
          rw [List.findIdx?_append, hnone, ih, Option.none_or, length_octets, Option.map_map,
            if_neg Bool.false_ne_true, Option.map_map]
          congr 1
          funext k
          simp [byteLength, Nat.add_comm]

theorem head?_octets {text : List Char} {d : Char} (hd : d.toNat < 128) :
    (octets text).head? = some d ↔ text.head? = some d := by
  cases text with
  | nil => rfl
  | cons c cs =>
      obtain ⟨b, bs, hbytes⟩ := exists_octets_cons c
      rw [octets_cons, hbytes, List.cons_append, List.head?_cons, List.head?_cons,
        Option.some.injEq, Option.some.injEq]
      rcases mem_octets (hbytes ▸ List.mem_cons_self : b ∈ octets [c]) with ⟨-, rfl⟩ | ⟨hb, hc⟩
      · rfl
      · constructor
        · rintro rfl
          omega
        · rintro rfl
          omega

end ByteClass

/-! ## Cuts -/

/-- The text behind so many bytes. -/
def dropBytes : Nat → List Char → Checked (List Char)
  | 0, text => .ok text
  | _ + 1, [] => .error .outOfRange
  | n + 1, c :: cs =>
      if c.utf8Size ≤ n + 1 then dropBytes (n + 1 - c.utf8Size) cs else .error .insideCharacter

/-- The first so many bytes of a text, as a text. -/
def takeBytes : Nat → List Char → Checked (List Char)
  | 0, _ => .ok []
  | _ + 1, [] => .error .outOfRange
  | n + 1, c :: cs =>
      if c.utf8Size ≤ n + 1 then do
        let front ← takeBytes (n + 1 - c.utf8Size) cs
        .ok (c :: front)
      else .error .insideCharacter

def slice (text : List Char) (i j : Nat) : Checked (List Char) :=
  if i ≤ j then do
    let rest ← dropBytes i text
    takeBytes (j - i) rest
  else .error .outOfRange

theorem byteLength_cons (c : Char) (cs : List Char) :
    byteLength (c :: cs) = c.utf8Size + byteLength cs := by
  simp [byteLength]

/-- A cut behind some characters of a text falls inside none. -/
theorem dropBytes_append (front rest : List Char) :
    dropBytes (byteLength front) (front ++ rest) = .ok rest := by
  induction front with
  | nil => cases rest <;> rfl
  | cons c front ih =>
      have hsize : 0 < c.utf8Size := c.utf8Size_pos
      obtain ⟨n, hn⟩ : ∃ n, byteLength (c :: front) = n + 1 :=
        ⟨byteLength (c :: front) - 1, by rw [byteLength_cons]; omega⟩
      rw [hn, List.cons_append, dropBytes, ← hn, byteLength_cons, if_pos (Nat.le_add_right _ _),
        Nat.add_sub_cancel_left, ih]

theorem byteLength_of_dropBytes {i : Nat} {text rest : List Char}
    (h : dropBytes i text = .ok rest) : byteLength text = i + byteLength rest := by
  fun_induction dropBytes i text with
  | case1 text =>
      obtain rfl := Except.ok.inj h
      exact (Nat.zero_add _).symm
  | case2 => exact nomatch h
  | case3 n c cs hle ih =>
      rw [byteLength_cons, ih h]
      omega
  | case4 => exact nomatch h

theorem takeBytes_append (front rest : List Char) :
    takeBytes (byteLength front) (front ++ rest) = .ok front := by
  induction front with
  | nil => cases rest <;> rfl
  | cons c front ih =>
      have hsize : 0 < c.utf8Size := c.utf8Size_pos
      obtain ⟨n, hn⟩ : ∃ n, byteLength (c :: front) = n + 1 :=
        ⟨byteLength (c :: front) - 1, by rw [byteLength_cons]; omega⟩
      rw [hn, List.cons_append, takeBytes, ← hn, byteLength_cons, if_pos (Nat.le_add_right _ _),
        Nat.add_sub_cancel_left, ih, ok_bind]

theorem slice_append (front middle rest : List Char) :
    slice (front ++ (middle ++ rest)) (byteLength front) (byteLength (front ++ middle)) =
      .ok middle := by
  rw [slice, byteLength_append, if_pos (Nat.le_add_right _ _), dropBytes_append, ok_bind,
    Nat.add_sub_cancel_left, takeBytes_append]

/-- Cuts that fault: one inside a character of two bytes, and one behind the end. -/
example : slice ['é', 'x'] 1 3 = .error .insideCharacter ∧
    slice ['é', 'x'] 2 4 = .error .outOfRange ∧ slice ['é', 'x'] 2 3 = .ok ['x'] := by
  decide

end Unmask.ByOffset
