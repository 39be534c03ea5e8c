/-
# `Unmask.Proofs.ByOffset.Commands` — the search for commands, by offsets

The search is a loop over offsets.  It asks for the next head from an offset on, looks
through the bytes for the end of the head's arguments, for dashes among them, for the
ends of their lines, for quotes on those and for equal quotes behind them, and cuts the
command out of the text.  It remembers two offsets: up to one of them heads are known
to lead nowhere, and up to the other the dashes of a line have been tried.

Reading bytes for characters does no harm: what is looked for are characters of ASCII,
and a byte of any other character is none of them (`everyDashEnd?_octets`).  That the
remembered offsets lose nothing is the argument of `CommandSearch` once more: here it
says which dashes lie in front of the one offset (`matchFlags_eq`) and which heads in
front of the other (`Barren`).  `commandsFrom_eq` takes both to the plain search.
-/
import Mathlib.Data.List.DropRight
import Unmask.Proofs.ByOffset.Access
import Unmask.Proofs.CommandGrammar

namespace Unmask.ByOffset

open ShellCommand

/-! ## Looking through bytes -/

/-- The first place from `i` on where a byte of the class stands. -/
def nextOctet (P : Char → Bool) (bytes : List Char) (i : Nat) : Checked (Option Nat) := do
  let rest ← octetsFrom bytes i
  .ok ((rest.findIdx? P).map (i + ·))

def lineEnd (bytes : List Char) (i : Nat) : Checked Nat := do
  let found ← nextOctet (· == '\n') bytes i
  .ok (found.getD bytes.length)

/-- Where arguments end that start at `i`. -/
def argumentsStop (bytes : List Char) (i : Nat) : Checked Nat := do
  let found ← nextOctet endsArguments bytes i
  .ok (found.getD bytes.length)

/-- The quote that closes the one at `k`, if there is a quote. -/
def closerOf (bytes : List Char) (k : Nat) : Checked (Option Nat) := do
  let q ← octetAt bytes k
  if isQuote q then nextOctet (· == q) bytes (k + 1) else .ok none

/-- The quote that closes the first of the quotes from `i` to the end of the line
that can be closed. -/
def closingQuote (bytes : List Char) (i : Nat) : Checked (Option Nat) := do
  let stop ← lineEnd bytes i
  (List.range' i (stop - i)).findSomeM? (closerOf bytes)

/-- The quote that a command ends with, when these places are tried for a dash.  Up to
`tried` the dashes of a line have been tried before. -/
def matchFlags (bytes : List Char) (tried : Nat) : List Nat → Checked (Option Nat)
  | [] => .ok none
  | k :: ks => do
      let b ← octetAt bytes k
      if b == '-' && tried ≤ k then do
        let tried ← lineEnd bytes k
        match ← closingQuote bytes (k + 1) with
        | some close => .ok (some close)
        | none => matchFlags bytes tried ks
      else matchFlags bytes tried ks

/-- Where the arguments end that start at `i`, and the quote that their command ends
with. -/
def commandAt (bytes : List Char) (i : Nat) : Checked (Nat × Option Nat) := do
  let stop ← argumentsStop bytes i
  let close ← matchFlags bytes i (List.range' i (stop - i))
  .ok (stop, close)

section Bytes

variable {bytes : List Char} {i : Nat}

theorem nextOctet_eq (P : Char → Bool) (hi : i ≤ bytes.length) :
    nextOctet P bytes i = .ok (nextPlace? P bytes i) := by
  rw [nextOctet, octetsFrom_of_le hi]
  rfl

theorem lineEnd_eq (hi : i ≤ bytes.length) :
    lineEnd bytes i = .ok (ShellCommand.lineEnd bytes i) := by
  rw [lineEnd, nextOctet_eq _ hi]
  rfl

theorem argumentsStop_eq (hi : i ≤ bytes.length) :
    argumentsStop bytes i = .ok (ShellCommand.argumentsStop bytes i) := by
  rw [argumentsStop, nextOctet_eq _ hi]
  rfl

theorem getD_nextPlace?_le (P : Char → Bool) (text : List Char) (i : Nat) :
    (nextPlace? P text i).getD text.length ≤ text.length := by
  cases h : nextPlace? P text i with
  | none => exact Nat.le_refl _
  | some k => exact Nat.le_of_lt (nextPlace?_ge h).2

theorem findSome?_placesBetween {β : Type} (P : Char → Bool) (f : Nat → Option β) (text : List Char)
    (i j : Nat) :
    (placesBetween P text i j).findSome? f =
      (List.range' i (j - i)).findSome? fun k => if text[k]?.any P then f k else none := by
  rw [placesBetween]
  induction List.range' i (j - i) with
  | nil => rfl
  | cons k ks ih =>
      rw [List.filter_cons, List.findSome?_cons]
      split_ifs
      · rw [List.findSome?_cons, ih]
      · exact ih

theorem closerOf_eq {k : Nat} (hk : k < bytes.length) :
    closerOf bytes k = .ok (if bytes[k]?.any isQuote then equalQuote? bytes k else none) := by
  have hget : bytes[k]? = some bytes[k] := List.getElem?_eq_getElem hk
  rw [closerOf, octetAt_of_getElem? hget, ok_bind, nextOctet_eq _ hk, equalQuote?, hget]
  simp only [Option.any_some]
  split_ifs <;> rfl

theorem closingQuote_eq (hi : i ≤ bytes.length) :
    closingQuote bytes i = .ok (closerOnLine? bytes i) := by
  rw [closingQuote, lineEnd_eq hi, ok_bind, closerOnLine?, findSome?_placesBetween]
  refine findSomeM?_ok fun k hk => closerOf_eq ?_
  have hrange := List.mem_range'_1.mp hk
  have hle : ShellCommand.lineEnd bytes i ≤ bytes.length := getD_nextPlace?_le _ bytes i
  omega

/-! ## Dashes -/

theorem lineEnd_of_le {text : List Char} {i j : Nat} (hij : i ≤ j)
    (hj : j ≤ ShellCommand.lineEnd text i) :
    ShellCommand.lineEnd text j = ShellCommand.lineEnd text i := by
  obtain ⟨d, rfl⟩ := Nat.exists_eq_add_of_le hij
  induction d generalizing i with
  | zero => rfl
  | succ d ih =>
      have hle : ShellCommand.lineEnd text i ≤ text.length := getD_nextPlace?_le _ text i
      cases hdrop : text.drop i with
      | nil =>
          have := length_le_of_drop hdrop
          omega
      | cons c cs =>
          have hline := lineEnd_cons hdrop
          split_ifs at hline
          · omega
          · have hnext : i + 1 + d ≤ ShellCommand.lineEnd text (i + 1) := by omega
            rw [hline, ← ih (Nat.le_add_right _ d) hnext]
            congr 1
            omega

/-- A dash behind another one on its line leads nowhere when that one does. -/
theorem closerOnLine?_of_tried {text : List Char} {i k : Nat} (hik : i < k)
    (hk : k < ShellCommand.lineEnd text i) (hdead : closerOnLine? text (i + 1) = none) :
    closerOnLine? text (k + 1) = none := by
  have hi : ShellCommand.lineEnd text (i + 1) = ShellCommand.lineEnd text i :=
    lineEnd_of_le (Nat.le_succ i) (by omega)
  have hk' : ShellCommand.lineEnd text (k + 1) = ShellCommand.lineEnd text i :=
    lineEnd_of_le (by omega) hk
  rw [closerOnLine?, List.findSome?_eq_none_iff, hi] at hdead
  rw [closerOnLine?, List.findSome?_eq_none_iff, hk']
  intro p hp
  obtain ⟨hrange, hquote⟩ := List.mem_filter.mp hp
  refine hdead p (List.mem_filter.mpr ⟨?_, hquote⟩)
  rw [List.mem_range'_1] at hrange ⊢
  omega

/-- Leaving out the dashes in front of `tried` loses nothing, as long as these lead
nowhere. -/
theorem matchFlags_eq (bytes : List Char) : ∀ (ks : List Nat) (tried : Nat), ks.Pairwise (· < ·) →
    (∀ k ∈ ks, k < bytes.length) →
    (∀ k ∈ ks, k < tried → closerOnLine? bytes (k + 1) = none) →
      matchFlags bytes tried ks = .ok (ks.findSome? fun k =>
        if bytes[k]?.any (· == '-') then closerOnLine? bytes (k + 1) else none) := by
  intro ks
  induction ks with
  | nil =>
      intro tried _ _ _
      rfl
  | cons k ks ih =>
      intro tried hsorted hlen hdead
      obtain ⟨hk, hks⟩ := List.pairwise_cons.mp hsorted
      have hlt : k < bytes.length := hlen k List.mem_cons_self
      have hlen' : ∀ k ∈ ks, k < bytes.length := fun j hj => hlen j (List.mem_cons_of_mem k hj)
      have hget : bytes[k]? = some bytes[k] := List.getElem?_eq_getElem hlt
      have hlater := ih tried hks hlen' fun j hj => hdead j (List.mem_cons_of_mem k hj)
      rw [matchFlags, octetAt_of_getElem? hget, ok_bind, List.findSome?_cons, hget,
        Option.any_some]
      cases hdash : bytes[k] == '-' with
      | false => exact hlater
      | true =>
          by_cases htried : tried ≤ k
          · have hnext : closerOnLine? bytes (k + 1) = none →
                matchFlags bytes (ShellCommand.lineEnd bytes k) ks = _ := fun hnone =>
              ih (ShellCommand.lineEnd bytes k) hks hlen' fun j hj hline =>
                closerOnLine?_of_tried (hk j hj) hline hnone
            simp only [htried, decide_true, Bool.and_self, if_true,
              lineEnd_eq (Nat.le_of_lt hlt), closingQuote_eq (Nat.succ_le_of_lt hlt), ok_bind]
            cases hclose : closerOnLine? bytes (k + 1) with
            | some close => rfl
            | none => exact hnext hclose
          · have hnone := hdead k List.mem_cons_self (Nat.lt_of_not_le htried)
            simp only [htried, decide_false, Bool.and_false, Bool.false_eq_true, if_false, hnone,
              if_true]
            exact hlater

theorem commandAt_eq (hi : i ≤ bytes.length) :
    commandAt bytes i = .ok (ShellCommand.argumentsStop bytes i, commandEnd? bytes i) := by
  have hle : ShellCommand.argumentsStop bytes i ≤ bytes.length := getD_nextPlace?_le _ bytes i
  have hrange : ∀ k ∈ List.range' i (ShellCommand.argumentsStop bytes i - i),
      i ≤ k ∧ k < bytes.length := by
    intro k hk
    rw [List.mem_range'_1] at hk
    omega
  have hflags := matchFlags_eq bytes _ i List.pairwise_lt_range'
    (fun k hk => (hrange k hk).2) fun k hk hlt => absurd hlt (Nat.not_lt.mpr (hrange k hk).1)
  rw [commandAt, argumentsStop_eq hi, ok_bind, hflags, ok_bind, commandEnd?,
    findSome?_placesBetween]

end Bytes

/-! ## Places and offsets -/

def offsetOf (text : List Char) (k : Nat) : Nat := byteLength (text.take k)

theorem offsetOf_add (text : List Char) (i k : Nat) :
    offsetOf text (i + k) = offsetOf text i + offsetOf (text.drop i) k := by
  rw [offsetOf, List.take_add, byteLength_append]
  rfl

theorem offsetOf_cons (c : Char) (cs : List Char) (k : Nat) :
    offsetOf (c :: cs) (k + 1) = byteLength [c] + offsetOf cs k := by
  rw [Nat.add_comm, offsetOf_add]
  rfl

theorem offsetOf_succ {text : List Char} {c : Char} (hc : c.toNat < 128) {k : Nat}
    (hk : text[k]? = some c) : offsetOf text (k + 1) = offsetOf text k + 1 := by
  rw [offsetOf, List.take_add_one, hk, byteLength_append, Option.toList_some, byteLength_of_lt hc]
  rfl

theorem offsetOf_mono (text : List Char) {i j : Nat} (h : i ≤ j) :
    offsetOf text i ≤ offsetOf text j := by
  obtain ⟨k, rfl⟩ := Nat.exists_eq_add_of_le h
  rw [offsetOf_add]
  exact Nat.le_add_right _ _

theorem offsetOf_le (text : List Char) (k : Nat) : offsetOf text k ≤ byteLength text := by
  have h := byteLength_append (text.take k) (text.drop k)
  rw [List.take_append_drop] at h
  rw [h]
  exact Nat.le_add_right _ _

theorem offsetOf_le_length (text : List Char) (k : Nat) :
    offsetOf text k ≤ (octets text).length := by
  rw [length_octets]
  exact offsetOf_le text k

theorem dropBytes_offsetOf (text : List Char) (k : Nat) :
    dropBytes (offsetOf text k) text = .ok (text.drop k) := by
  have h := dropBytes_append (text.take k) (text.drop k)
  rw [List.take_append_drop] at h
  exact h

theorem drop_octets (text : List Char) (k : Nat) :
    (octets text).drop (offsetOf text k) = octets (text.drop k) := by
  have h : octets text = octets (text.take k) ++ octets (text.drop k) := by
    rw [← octets_append, List.take_append_drop]
  rw [h, offsetOf, ← length_octets, List.drop_left]

theorem slice_offsetOf (text : List Char) {i j : Nat} (h : i ≤ j) :
    slice text (offsetOf text i) (offsetOf text j) = .ok (text.extract i j) := by
  obtain ⟨k, rfl⟩ := Nat.exists_eq_add_of_le h
  have hslice := slice_append (text.take i) ((text.drop i).take k) ((text.drop i).drop k)
  rw [List.take_append_drop, List.take_append_drop, ← List.take_add] at hslice
  rw [List.extract, Nat.add_sub_cancel_left]
  exact hslice

/-! ## Bytes and characters -/

theorem lt_of_endsArguments {c : Char} (h : endsArguments c = true) : c.toNat < 128 := by
  simp only [endsArguments, isQuote, Bool.or_eq_true, beq_iff_eq] at h
  rcases h with (((((((rfl | rfl) | rfl) | rfl) | rfl) | rfl) | rfl) | rfl) <;> decide

theorem lt_of_isQuote {c : Char} (h : isQuote c = true) : c.toNat < 128 :=
  lt_of_endsArguments (by simp [endsArguments, h])

theorem byteClass_endsArguments : ByteClass endsArguments :=
  byteClass_of_lt fun _ => lt_of_endsArguments

theorem byteClass_isQuote : ByteClass isQuote := byteClass_of_lt fun _ => lt_of_isQuote

theorem octets_cons_of_lt {c : Char} (hc : c.toNat < 128) (cs : List Char) :
    octets (c :: cs) = c :: octets cs := by
  rw [octets_cons, octets_of_lt hc]
  rfl

theorem quotationEnd?_append {w : List Char} (hw : ∀ c ∈ w, c ≠ '\n' ∧ isQuote c = false)
    (rest : List Char) (n : Nat) :
    quotationEnd? n (w ++ rest) = quotationEnd? (n + w.length) rest := by
  induction w generalizing n with
  | nil => rfl
  | cons c w ih =>
      obtain ⟨hnl, hquote⟩ := hw c List.mem_cons_self
      have hlater := ih (fun d hd => hw d (List.mem_cons_of_mem c hd)) (n + 1)
      rw [List.cons_append, quotationEnd?, beq_false_of_ne hnl, hquote]
      rw [Nat.add_assoc, Nat.add_comm 1] at hlater
      exact hlater

theorem everyDashEnd?_append {w : List Char} (hw : ∀ c ∈ w, endsArguments c = false ∧ c ≠ '-')
    (rest : List Char) (n : Nat) :
    everyDashEnd? n (w ++ rest) = everyDashEnd? (n + w.length) rest := by
  induction w generalizing n with
  | nil => rfl
  | cons c w ih =>
      obtain ⟨hend, hdash⟩ := hw c List.mem_cons_self
      have hlater := ih (fun d hd => hw d (List.mem_cons_of_mem c hd)) (n + 1)
      rw [List.cons_append, everyDashEnd?, hend, beq_false_of_ne hdash]
      rw [Nat.add_assoc, Nat.add_comm 1] at hlater
      exact hlater

/-- An end that is counted in characters of `text`, counted in bytes. -/
def inBytes (n : Nat) (text : List Char) (stop : Option Nat) : Option Nat :=
  stop.map fun k => n + offsetOf text k

theorem inBytes_succ (n : Nat) (c : Char) (cs : List Char) (stop : Option Nat) :
    inBytes n (c :: cs) (stop.map (1 + ·)) = inBytes (n + byteLength [c]) cs stop := by
  cases stop with
  | none => rfl
  | some k =>
      simp only [inBytes, Option.map_some, Nat.add_comm 1 k, offsetOf_cons, Nat.add_assoc]

theorem offsetOf_quotation {quote : Char} (hc : quote.toNat < 128) {cs : List Char} {k : Nat}
    (h : cs.findIdx? (· == quote) = some k) : offsetOf (quote :: cs) (k + 2) = offsetOf cs k + 2 := by
  have hget : cs[k]? = some quote := by
    obtain ⟨hk, heq, -⟩ := List.findIdx?_eq_some_iff_getElem.mp h
    rw [List.getElem?_eq_getElem hk, beq_iff_eq.mp heq]
  rw [offsetOf_cons, byteLength_of_lt hc, offsetOf_succ hc hget]
  omega

theorem quotationEnd?_octets (text : List Char) (n : Nat) :
    quotationEnd? n (octets text) = inBytes n text (quotationEnd? 0 text) := by
  induction text generalizing n with
  | nil => rfl
  | cons c cs ih =>
      have hlater : inBytes n (c :: cs) (quotationEnd? 1 cs) =
          quotationEnd? (n + byteLength [c]) (octets cs) := by
        rw [quotationEnd?_add 1 cs 0, inBytes_succ, ih]
      by_cases hnl : c = '\n'
      · subst hnl
        rw [octets_cons_of_lt (by decide)]
        rfl
      · cases hquote : isQuote c with
        | true =>
            have hc := lt_of_isQuote hquote
            rw [byteLength_of_lt hc] at hlater
            rw [octets_cons_of_lt hc, quotationEnd?, quotationEnd?, beq_false_of_ne hnl, hquote,
              if_neg Bool.false_ne_true, if_neg Bool.false_ne_true, if_pos rfl, if_pos rfl,
              findIdx?_octets (byteClass_eq hc)]
            cases hfind : cs.findIdx? (· == c) with
            | none => exact hlater.symm
            | some k =>
                simp only [Option.map_some, inBytes, Nat.zero_add, offsetOf_quotation hc hfind,
                  Nat.add_assoc]
                rfl
        | false =>
            have hw : ∀ b ∈ octets [c], b ≠ '\n' ∧ isQuote b = false := by
              intro b hb
              refine ⟨ne_of_beq_false ?_, (byteClass_isQuote hb).trans hquote⟩
              exact (byteClass_eq (by decide) hb).trans (beq_false_of_ne hnl)
            rw [octets_cons, quotationEnd?_append hw, length_octets, ← hlater, quotationEnd?,
              beq_false_of_ne hnl, hquote]
            rfl

theorem everyDashEnd?_octets (text : List Char) (n : Nat) :
    everyDashEnd? n (octets text) = inBytes n text (everyDashEnd? 0 text) := by
  induction text generalizing n with
  | nil => rfl
  | cons c cs ih =>
      have hlater : inBytes n (c :: cs) (everyDashEnd? 1 cs) =
          everyDashEnd? (n + byteLength [c]) (octets cs) := by
        rw [everyDashEnd?_add 1 cs 0, inBytes_succ, ih]
      cases hend : endsArguments c with
      | true =>
          rw [octets_cons_of_lt (lt_of_endsArguments hend), everyDashEnd?, everyDashEnd?, hend]
          rfl
      | false =>
          by_cases hdash : c = '-'
          · subst hdash
            have hquote : inBytes n ('-' :: cs) (quotationEnd? 1 cs) =
                quotationEnd? (n + 1) (octets cs) := by
              rw [quotationEnd?_add 1 cs 0, inBytes_succ, quotationEnd?_octets]
              rfl
            rw [octets_cons_of_lt (by decide), everyDashEnd?, everyDashEnd?, hend]
            simp only [Bool.false_eq_true, if_false, beq_self_eq_true, if_true, ← hquote]
            cases quotationEnd? 1 cs with
            | some stop => rfl
            | none => exact hlater.symm
          · have hw : ∀ b ∈ octets [c], endsArguments b = false ∧ b ≠ '-' := by
              intro b hb
              refine ⟨(byteClass_endsArguments hb).trans hend, ne_of_beq_false ?_⟩
              exact (byteClass_eq (by decide) hb).trans (beq_false_of_ne hdash)
            rw [octets_cons, everyDashEnd?_append hw, length_octets, ← hlater, everyDashEnd?, hend,
              beq_false_of_ne hdash]
            rfl

/-- The two searches for the end of a command agree, one by offsets and the other by
places. -/
theorem commandEnd?_octets (text : List Char) (i : Nat) :
    (commandEnd? (octets text) (offsetOf text i)).map (· + 1) =
      (commandEnd? text i).map fun close => offsetOf text (close + 1) := by
  have hplaces : (commandEnd? text i).map (· + 1) =
      (everyDashEnd? 0 (text.drop i)).map (i + ·) := by
    rw [← everyDashEnd?_add, Nat.add_zero, everyDashEnd?_eq text _ i rfl]
  have hcount : (fun k => offsetOf text i + offsetOf (text.drop i) k) =
      offsetOf text ∘ (i + ·) := by
    funext k
    exact (offsetOf_add text i k).symm
  calc (commandEnd? (octets text) (offsetOf text i)).map (· + 1)
      = everyDashEnd? (offsetOf text i) (octets (text.drop i)) :=
        (everyDashEnd?_eq _ _ _ (drop_octets text i)).symm
    _ = (everyDashEnd? 0 (text.drop i)).map (offsetOf text ∘ (i + ·)) := by
        rw [everyDashEnd?_octets, inBytes, hcount]
    _ = ((commandEnd? text i).map (· + 1)).map (offsetOf text) := by
        rw [hplaces, Option.map_map]
    _ = (commandEnd? text i).map fun close => offsetOf text (close + 1) := by
        rw [Option.map_map]
        rfl

theorem argumentsStop_octets (text : List Char) (i : Nat) :
    ShellCommand.argumentsStop (octets text) (offsetOf text i) =
      offsetOf text (i + ((text.drop i).takeWhile fun c => !endsArguments c).length) := by
  have hargs : offsetOf (text.drop i) ((text.drop i).takeWhile fun c => !endsArguments c).length =
      byteLength ((text.drop i).takeWhile fun c => !endsArguments c) :=
    congrArg byteLength (List.prefix_iff_eq_take.mp (List.takeWhile_prefix _)).symm
  rw [ShellCommand.argumentsStop, getD_nextPlace? _ _ _ (drop_octets text i) (offsetOf_le_length text i),
    takeWhile_octets byteClass_endsArguments.not, length_octets, offsetOf_add, hargs]

/-! ## The loop -/

def trimmed (text : List Char) : List Char := (text.dropWhile isBlank).rdropWhile isBlank

/-- The first head from an offset on: where it starts, and where its arguments start. -/
def headFrom (text : List Char) (i : Nat) : Checked (Option (Nat × Nat)) := do
  let rest ← dropBytes i text
  .ok ((nextHead? rest 0).map fun h => (i + offsetOf rest h.1, i + offsetOf rest h.2))

/-- What a round of the loop comes to: there is no head any more, or the search goes on
with both its offsets, or it goes on behind a command. -/
inductive Round where
  | finished
  | goOn (i dead : Nat)
  | found (command : List Char) (i : Nat)
deriving Repr, DecidableEq

/-- One round of the loop.  Heads in front of `dead` lead nowhere. -/
def round (text : List Char) (i dead : Nat) : Checked Round := do
  match ← headFrom text i with
  | none => .ok .finished
  | some (start, stop) =>
      if start < dead then .ok (.goOn (start + 1) dead)
      else do
        match ← commandAt (octets text) stop with
        | (_, some close) => do
            let command ← slice text start (close + 1)
            .ok (.found (trimmed command) (close + 1))
        | (argumentsEnd, none) => .ok (.goOn (start + 1) argumentsEnd)

theorem headFrom_bounds {text : List Char} {i start stop : Nat}
    (h : headFrom text i = .ok (some (start, stop))) :
    i ≤ start ∧ start ≤ stop ∧ stop ≤ byteLength text := by
  obtain ⟨rest, hrest, h⟩ := bind_eq_ok.mp h
  obtain ⟨⟨start', stop'⟩, hhead, heq⟩ := Option.map_eq_some_iff.mp (Except.ok.inj h)
  obtain ⟨rfl, rfl⟩ := Prod.mk.inj heq
  have hbytes := byteLength_of_dropBytes hrest
  have hmono := offsetOf_mono rest (nextHead?_bounds hhead).2.2
  have hle := offsetOf_le rest stop'
  dsimp only at hmono hle ⊢
  omega

def Round.next? : Round → Option Nat
  | .finished => none
  | .goOn i _ => some i
  | .found _ i => some i

theorem round_bounds {text : List Char} {i dead j : Nat} {r : Round}
    (h : round text i dead = .ok r) (hj : r.next? = some j) : i < j ∧ i ≤ byteLength text := by
  obtain ⟨head, hhead, h⟩ := bind_eq_ok.mp h
  cases head with
  | none =>
      obtain rfl := Except.ok.inj h
      exact nomatch hj
  | some head =>
      obtain ⟨start, stop⟩ := head
      have hbounds := headFrom_bounds hhead
      have hstop : stop ≤ (octets text).length := by
        rw [length_octets]
        exact hbounds.2.2
      simp only [commandAt_eq hstop, ok_bind] at h
      split_ifs at h
      · obtain rfl := Except.ok.inj h
        obtain rfl := Option.some.inj hj
        omega
      · cases hclose : commandEnd? (octets text) stop with
        | none =>
            rw [hclose] at h
            obtain rfl := Except.ok.inj h
            obtain rfl := Option.some.inj hj
            omega
        | some close =>
            rw [hclose] at h
            obtain ⟨command, -, h⟩ := bind_eq_ok.mp h
            obtain rfl := Except.ok.inj h
            obtain rfl := Option.some.inj hj
            have hle := (commandEnd?_bounds hclose).1
            omega

def commandsFrom (text : List Char) (i dead : Nat) : Checked (List (List Char)) :=
  match _ : round text i dead with
  | .error e => .error e
  | .ok .finished => .ok []
  | .ok (.goOn j dead) => commandsFrom text j dead
  | .ok (.found command j) => do
      let later ← commandsFrom text j dead
      .ok (command :: later)
termination_by byteLength text + 1 - i
decreasing_by
  · have hbounds := round_bounds ‹_› rfl
    omega
  · have hbounds := round_bounds ‹_› rfl
    omega

def Round.goesOn (text : List Char) (dead : Nat) : Round → Checked (List (List Char))
  | .finished => .ok []
  | .goOn j dead => commandsFrom text j dead
  | .found command j => do
      let later ← commandsFrom text j dead
      .ok (command :: later)

theorem commandsFrom_of_round {text : List Char} {i dead : Nat} {r : Round}
    (h : round text i dead = .ok r) : commandsFrom text i dead = r.goesOn text dead := by
  rw [commandsFrom]
  split
  · next heq => exact absurd (heq.symm.trans h) (fun hno => nomatch hno)
  · next heq =>
      obtain rfl := Except.ok.inj (heq.symm.trans h)
      rfl
  · next heq =>
      obtain rfl := Except.ok.inj (heq.symm.trans h)
      rfl
  · next heq =>
      obtain rfl := Except.ok.inj (heq.symm.trans h)
      rfl

/-! ## One round

The plain search stands at a place, the loop at its offset. -/

/-- A head that starts here leads nowhere. -/
def Barren (text : List Char) (k : Nat) : Prop :=
  ∀ n, headLength? (text.drop k) = some n → commandEnd? text (k + n) = none

/-- From a place on, the heads in front of an offset lead nowhere. -/
def DeadUntil (text : List Char) (i dead : Nat) : Prop :=
  ∀ k, i ≤ k → offsetOf text k < dead → Barren text k

/-- A round agrees with the plain search: the place that it goes on from is further on,
and from there the plain search finds what it still had to find. -/
inductive Follows (text : List Char) (i dead : Nat) : Round → Prop
  | finished : searchFrom text i = [] → Follows text i dead .finished
  | goOn {j dead' : Nat} : i < j → j ≤ text.length → DeadUntil text j dead' →
      searchFrom text i = searchFrom text j → Follows text i dead (.goOn (offsetOf text j) dead')
  | found {command : List Char} {j : Nat} : i < j → j ≤ text.length →
      searchFrom text i = command :: searchFrom text j →
      Follows text i dead (.found command (offsetOf text j))

theorem DeadUntil.mono {text : List Char} {i j dead : Nat} (h : DeadUntil text i dead)
    (hij : i ≤ j) : DeadUntil text j dead :=
  fun k hk => h k (Nat.le_trans hij hk)

theorem nextHead?_drop (text : List Char) (i : Nat) :
    nextHead? text i = (nextHead? (text.drop i) 0).map fun h => (i + h.1, i + h.2) := by
  have hhead : ∀ k, headEnd? text (i + k) = (headEnd? (text.drop i) k).map (i + ·) := by
    intro k
    rw [headEnd?_eq, headEnd?_eq, List.drop_drop, Option.map_map]
    congr 1
    funext n
    exact Nat.add_assoc i k n
  have hrange : List.range' i (text.length - i) = (List.range' 0 (text.length - i)).map (i + ·) := by
    rw [List.map_add_range', Nat.add_zero]
  rw [nextHead?, nextHead?, hrange, List.findSome?_map, List.map_findSome?, List.length_drop,
    Nat.sub_zero]
  congr 1
  funext k
  simp only [Function.comp_apply, hhead, Option.map_map]
  rfl

theorem headFrom_offsetOf (text : List Char) (i : Nat) :
    headFrom text (offsetOf text i) =
      .ok ((nextHead? text i).map fun h => (offsetOf text h.1, offsetOf text h.2)) := by
  rw [headFrom, dropBytes_offsetOf, ok_bind, nextHead?_drop text i, Option.map_map]
  congr 2
  funext h
  simp only [Function.comp_apply, offsetOf_add]

theorem foldCase_eq_p {c : Char} (h : foldCase c = 'p') : c = 'p' ∨ c = 'P' := by
  rw [foldCase] at h
  split_ifs at h
  · exact absurd h (by decide)
  · rcases toUpper_toLower c with hc | hc
    · exact Or.inl (hc.symm.trans h)
    · rw [h] at hc
      exact Or.inr hc.symm

theorem word_eq_cons {word : List Char} (h : word.map foldCase = headWord) :
    ∃ c w, word = c :: w ∧ (c = 'p' ∨ c = 'P') := by
  cases word with
  | nil => exact nomatch h
  | cons c w => exact ⟨c, w, rfl, foldCase_eq_p (List.cons.inj h).1⟩

/-- A head starts with a letter of ASCII, so behind that letter there is a place. -/
theorem offsetOf_head {text : List Char} {k n : Nat} (h : headLength? (text.drop k) = some n) :
    offsetOf text (k + 1) = offsetOf text k + 1 := by
  obtain ⟨word, blanks, rest, htext, hspells, -⟩ := headLength?_eq_some h
  obtain ⟨c, w, rfl, hc⟩ := word_eq_cons (hspells.map_foldCase fun _ => id)
  refine offsetOf_succ ?_ (getElem?_of_drop htext)
  rcases hc with rfl | rfl <;> decide

theorem trimmed_of_isCommand {command : List Char} (h : IsCommand command) :
    trimmed command = command := by
  cases h with
  | @intro word blanks args line payload quote hword _ _ _ hquotation =>
      obtain ⟨c, w, rfl, hc⟩ := word_eq_cons hword
      have hblank : isBlank c = false := by
        rcases hc with rfl | rfl <;> decide
      have hquote : ¬ isBlank quote = true := by
        intro hq
        have hend := endsArguments_of_isBlank hq
        have hmem := isQuote_iff.mpr hquotation.isQuote
        simp [endsArguments, hmem] at hend
      rw [trimmed, List.cons_append, List.dropWhile_cons_of_neg (by simp [hblank])]
      have hconcat : c :: (w ++ (blanks ++ (args ++ '-' :: (line ++ quote :: (payload ++ [quote]))))) =
          c :: (w ++ (blanks ++ (args ++ '-' :: (line ++ quote :: payload)))) ++ [quote] := by
        simp
      rw [hconcat, List.rdropWhile_concat_neg _ _ _ hquote]

/-- A round of the loop faults nowhere, and it agrees with the plain search. -/
theorem round_follows {text : List Char} {i dead : Nat} (hdead : DeadUntil text i dead) :
    ∃ r, round text (offsetOf text i) dead = .ok r ∧ Follows text i dead r := by
  have hsearch := searchFrom_eq text i
  rw [round, headFrom_offsetOf, ok_bind]
  cases hhead : nextHead? text i with
  | none =>
      rw [hhead] at hsearch
      exact ⟨.finished, rfl, .finished hsearch⟩
  | some head =>
      obtain ⟨start, stop⟩ := head
      obtain ⟨hfirst, hlt, -⟩ := nextHead?_bounds hhead
      obtain ⟨n, hn, rfl⟩ := headEnd?_eq_some_iff.mp (nextHead?_eq_some hhead).1
      simp only [hhead] at hsearch
      -- Where the head leads nowhere, the plain search goes on behind its first letter.
      have hgoOn : ∀ dead', commandEnd? text (start + n) = none →
          DeadUntil text (start + 1) dead' →
          Follows text i dead (.goOn (offsetOf text start + 1) dead') := by
        intro dead' hnone hdead'
        rw [hnone] at hsearch
        rw [← offsetOf_head hn]
        exact .goOn (Nat.lt_succ_of_le hfirst) hlt hdead' hsearch
      simp only [Option.map_some, commandAt_eq (offsetOf_le_length text _), ok_bind,
        argumentsStop_octets]
      split_ifs with hskip
      · exact ⟨_, rfl, hgoOn dead (hdead start hfirst hskip n hn)
          (hdead.mono (Nat.le_succ_of_le hfirst))⟩
      · have hend := commandEnd?_octets text (start + n)
        cases hclose : commandEnd? text (start + n) with
        | none =>
            rw [hclose, Option.map_none, Option.map_eq_none_iff] at hend
            rw [hend]
            refine ⟨_, rfl, hgoOn _ hclose ?_⟩
            intro k hk hoffset m hm
            refine commandEnd?_of_dead hn hclose (by omega) ?_ hm
            by_contra hge
            have hmono := offsetOf_mono text (Nat.le_of_not_lt hge)
            rw [← Nat.add_assoc] at hmono
            omega
        | some close =>
            rw [hclose, Option.map_some, Option.map_eq_some_iff] at hend
            obtain ⟨close', hclose', hnext⟩ := hend
            have hbounds := commandEnd?_bounds hclose
            have hcut := slice_offsetOf text (show start ≤ close + 1 by omega)
            simp only [hclose] at hsearch
            simp only [hclose', hnext, hcut, ok_bind,
              trimmed_of_isCommand (isCommand_of_head hn hclose)]
            exact ⟨_, rfl, .found (by omega) hbounds.2 hsearch⟩

/-! ## All rounds -/

/-- From every place on the loop faults nowhere and finds what the plain search finds. -/
theorem commandsFrom_eq (text : List Char) (i dead : Nat) (hdead : DeadUntil text i dead) :
    commandsFrom text (offsetOf text i) dead = .ok (searchFrom text i) := by
  induction hm : text.length - i using Nat.strong_induction_on generalizing i dead with
  | _ m ih =>
      obtain ⟨r, hround, hfollows⟩ := round_follows hdead
      rw [commandsFrom_of_round hround]
      cases hfollows with
      | finished hsearch =>
          rw [hsearch]
          rfl
      | goOn hlt hle hdead' hsearch =>
          rw [hsearch]
          exact ih _ (by omega) _ _ hdead' rfl
      | @found command j hlt hle hsearch =>
          have hlater := ih _ (by omega) j dead (hdead.mono (Nat.le_of_lt hlt)) rfl
          rw [hsearch, Round.goesOn, hlater, ok_bind]

def inText (text : String) : Checked (List String) := do
  let commands ← commandsFrom (unescapeChars text.toList) 0 0
  .ok (commands.map String.ofList)

theorem inText_eq (text : String) : inText text = .ok (ShellCommand.inText text) := by
  have hcommands := commandsFrom_eq (unescapeChars text.toList) 0 0
    fun k _ hk => absurd hk (Nat.not_lt_zero _)
  rw [inText_eq_search, unescape, String.toList_ofList, inText]
  rw [show offsetOf (unescapeChars text.toList) 0 = 0 from rfl] at hcommands
  rw [hcommands]
  rfl

end Unmask.ByOffset
