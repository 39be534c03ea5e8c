/-
# `Unmask.Proofs.Walk` — the finds of a leftmost walk

`scan` asks its recogniser at every place that it comes to, and passes over what
was found.  Three equations say so for a text that is split at the right place:
what is still to be passed is passed (`scan_passed`), a find is listed and
passed (`scan_found`), and where the recogniser is silent nothing happens
(`scan_silent`).  Conversely a find of `scan` is an answer of its recogniser at
some place of the text, with the right character behind it (`mem_scan`); and an
answer is found unless an earlier answer reaches over its place
(`mem_findAll_of_answer`).
-/
import Unmask.Text.Scan

namespace Unmask

/-- The character behind the place that a walk has come to. -/
def behind (before : Option Char) : List Char → Option Char
  | [] => before
  | c :: cs => behind (some c) cs

theorem behind_append (before : Option Char) (u v : List Char) :
    behind before (u ++ v) = behind (behind before u) v := by
  induction u generalizing before with
  | nil => rfl
  | cons c u ih => exact ih (some c)

theorem behind_of_ne_nil (before : Option Char) {u : List Char} (h : u ≠ []) :
    behind before u = u.getLast? := by
  rcases List.eq_nil_or_concat u with rfl | ⟨v, c, rfl⟩
  · exact absurd rfl h
  · rw [List.concat_eq_append, behind_append, List.getLast?_concat]
    rfl

theorem behind_none (u : List Char) : behind none u = u.getLast? := by
  cases u with
  | nil => rfl
  | cons c cs => exact behind_of_ne_nil none (List.cons_ne_nil c cs)

section Walk

variable {α : Type} {at? : Option Char → List Char → Option (α × Nat)}

/-- A find stands somewhere in the text, and the recogniser answers there. -/
theorem mem_scan {a : α} : ∀ {text : List Char} {k : Nat} {before : Option Char},
    a ∈ scan at? k before text →
      ∃ passed rest n, text = passed ++ rest ∧ at? (behind before passed) rest = some (a, n) := by
  intro text
  induction text with
  | nil =>
      intro k before h
      simp [scan] at h
  | cons c cs ih =>
      -- What is found behind `c` is found behind it in the whole text too.
      have later : ∀ {k : Nat} {before : Option Char}, a ∈ scan at? k (some c) cs →
          ∃ passed rest n, c :: cs = passed ++ rest ∧
            at? (behind before passed) rest = some (a, n) := by
        intro k before h
        obtain ⟨passed, rest, n, rfl, hat⟩ := ih h
        exact ⟨c :: passed, rest, n, rfl, hat⟩
      intro k before h
      cases k with
      | succ k => exact later h
      | zero =>
          rw [scan] at h
          cases hat : at? before (c :: cs) with
          | none =>
              rw [hat] at h
              exact later h
          | some found =>
              rw [hat] at h
              rcases List.mem_cons.mp h with rfl | h
              · exact ⟨[], c :: cs, found.2, rfl, hat⟩
              · exact later h

theorem mem_findAll {a : α} {text : List Char} (h : a ∈ findAll at? text) :
    ∃ passed rest n, text = passed ++ rest ∧ at? passed.getLast? rest = some (a, n) := by
  obtain ⟨passed, rest, n, htext, hat⟩ := mem_scan h
  rw [behind_none] at hat
  exact ⟨passed, rest, n, htext, hat⟩

/-- An answer over which no earlier one reaches is found. -/
theorem mem_scan_of_answer {a : α} {n : Nat} {rest : List Char} (hrest : rest ≠ []) :
    ∀ {passed : List Char} {k : Nat} {before : Option Char}, k ≤ passed.length →
      at? (behind before passed) rest = some (a, n) →
      (∀ p w found, passed = p ++ w → w ≠ [] → at? (behind before p) (w ++ rest) = some found →
        found.2 ≤ w.length) →
      a ∈ scan at? k before (passed ++ rest) := by
  intro passed
  induction passed with
  | nil =>
      intro k before hk hat _
      obtain rfl : k = 0 := Nat.le_zero.mp hk
      obtain ⟨c, cs, rfl⟩ := List.exists_cons_of_ne_nil hrest
      have hhere : at? before (c :: cs) = some (a, n) := hat
      rw [List.nil_append, scan, hhere]
      exact List.mem_cons_self
  | cons c passed ih =>
      intro k before hk hat hfree
      -- No answer behind `c` reaches over the place either.
      have hlater : ∀ p w found, passed = p ++ w → w ≠ [] →
          at? (behind (some c) p) (w ++ rest) = some found → found.2 ≤ w.length := by
        intro p w found hpassed hw hfound
        exact hfree (c :: p) w found (by rw [hpassed]; rfl) hw hfound
      cases k with
      | succ k => exact ih (Nat.le_of_succ_le_succ hk) hat hlater
      | zero =>
          rw [List.cons_append, scan]
          cases hfound : at? before (c :: (passed ++ rest)) with
          | none => exact ih (Nat.zero_le _) hat hlater
          | some found =>
              have hle : found.2 ≤ passed.length + 1 :=
                hfree [] (c :: passed) found rfl (List.cons_ne_nil c passed) hfound
              exact List.mem_cons_of_mem _ (ih (by omega) hat hlater)

theorem mem_findAll_of_answer {a : α} {n : Nat} {passed rest : List Char} (hrest : rest ≠ [])
    (hat : at? passed.getLast? rest = some (a, n))
    (hfree : ∀ p w found, passed = p ++ w → w ≠ [] →
      at? p.getLast? (w ++ rest) = some found → found.2 ≤ w.length) :
    a ∈ findAll at? (passed ++ rest) := by
  refine mem_scan_of_answer hrest (Nat.zero_le _) (by rw [behind_none]; exact hat) ?_
  intro p w found hpassed hw hfound
  rw [behind_none] at hfound
  exact hfree p w found hpassed hw hfound

theorem scan_passed (at? : Option Char → List Char → Option (α × Nat)) (w rest : List Char)
    (b : Option Char) : scan at? w.length b (w ++ rest) = scan at? 0 (behind b w) rest := by
  induction w generalizing b with
  | nil => rfl
  | cons c w ih => exact ih (some c)

theorem scan_found {a : α} {w rest : List Char} {b : Option Char} (hw : w ≠ [])
    (h : at? b (w ++ rest) = some (a, w.length)) :
    scan at? 0 b (w ++ rest) = a :: scan at? 0 (behind b w) rest := by
  obtain ⟨c, w, rfl⟩ := List.exists_cons_of_ne_nil hw
  rw [List.cons_append] at h
  rw [List.cons_append, scan, h]
  exact congrArg (a :: ·) (scan_passed at? w rest (some c))

theorem scan_taken {a : α} {n : Nat} {text : List Char} {b : Option Char} (hn : 0 < n)
    (hle : n ≤ text.length) (h : at? b text = some (a, n)) :
    scan at? 0 b text = a :: scan at? 0 (behind b (text.take n)) (text.drop n) := by
  have hlen : (text.take n).length = n := List.length_take_of_le hle
  have hne : text.take n ≠ [] := List.ne_nil_of_length_pos (hlen.symm ▸ hn)
  have hat : at? b (text.take n ++ text.drop n) = some (a, (text.take n).length) := by
    rw [List.take_append_drop, hlen]
    exact h
  have hfound := scan_found hne hat
  rwa [List.take_append_drop] at hfound

theorem scan_silent {w rest : List Char} {b : Option Char}
    (h : ∀ u v, w = u ++ v → v ≠ [] → at? (behind b u) (v ++ rest) = none) :
    scan at? 0 b (w ++ rest) = scan at? 0 (behind b w) rest := by
  induction w generalizing b with
  | nil => rfl
  | cons c w ih =>
      have hhere : at? b (c :: (w ++ rest)) = none := h [] (c :: w) rfl (List.cons_ne_nil c w)
      rw [List.cons_append, scan, hhere]
      exact ih fun u v huv hv => h (c :: u) v (by rw [huv]; rfl) hv

end Walk

end Unmask
