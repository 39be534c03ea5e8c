/-
# `Unmask.Proofs.Cut` — how a text falls into pieces

`pieces` is defined through two passes, blocks first and marks second.  The
proofs about tokens want it the other way round: a text is a sequence of
*beats*, each a gap and the run behind it, and a last gap.

    text  =  g₁ r₁  g₂ r₂  …  gₙ rₙ  g

A gap has no name character in it, a run has nothing else, and only `g₁` and
the last gap may be empty.  The marks of a beat depend on the beat and on
whether it stands at the start of the text, and on nothing else:

    cut start (g ++ r ++ rest)  =  beat start g r ++ cut false rest     (`cut_beat`)

This equation and the induction over beats (`beat_induction`) are all that
later modules use; none of them looks at `blocks` or `markTokens` again.

The first consequences stand at the end: the pieces of a text are the text
(`flatMap_text_cut`), and a run that no sign can reach may be cut out of the
middle (`cut_at_run`), so every maximal run that does not start with a digit
is a name (`name_mem_pieces`).
-/
import Mathlib.Data.Bool.Basic
import Mathlib.Data.List.SplitBy
import Mathlib.Data.List.TakeWhile
import Unmask.Token

namespace Unmask

/-! ## Gaps and runs -/

theorem toNat_of_isPart {c : Char} (h : Name.isPart c = true) :
    (48 ≤ c.toNat ∧ c.toNat ≤ 57) ∨ (65 ≤ c.toNat ∧ c.toNat ≤ 90) ∨ c.toNat = 95 ∨
      (97 ≤ c.toNat ∧ c.toNat ≤ 122) ∨ c.toNat = 36 := by
  unfold Name.isPart Char.isAlphanum Char.isAlpha Char.isUpper Char.isLower Char.isDigit at h
  simp only [Bool.or_eq_true, Bool.and_eq_true, decide_eq_true_eq, beq_iff_eq,
    UInt32.le_iff_toNat_le, ge_iff_le] at h
  rcases h with (((h | h) | h) | rfl) | rfl
  · exact Or.inr (Or.inl h)
  · exact Or.inr (Or.inr (Or.inr (Or.inl h)))
  · exact Or.inl h
  · exact Or.inr (Or.inr (Or.inl rfl))
  · exact Or.inr (Or.inr (Or.inr (Or.inr rfl)))

/-- No name character in it. -/
def IsGap (g : List Char) : Prop := ∀ c ∈ g, Name.isPart c = false

/-- Name characters only, at least one. -/
structure IsRun (r : List Char) : Prop where
  ne_nil : r ≠ []
  isPart : ∀ c ∈ r, Name.isPart c = true

/-- A run that stands in front of this text ends there. -/
def EndsRun (rest : List Char) : Prop := ∀ c ∈ rest.head?, Name.isPart c = false

/-- A run that follows this text starts there. -/
def BeginsRun (before : List Char) : Prop := ∀ c ∈ before.getLast?, Name.isPart c = false

theorem IsGap.endsRun {g : List Char} (h : IsGap g) : EndsRun g :=
  fun c hc => h c (List.mem_of_mem_head? hc)

theorem IsGap.append {a b : List Char} (ha : IsGap a) (hb : IsGap b) : IsGap (a ++ b) := by
  intro c hc
  rcases List.mem_append.mp hc with hc | hc
  · exact ha c hc
  · exact hb c hc

theorem EndsRun.append {a : List Char} (ha : a ≠ []) (h : EndsRun a) (b : List Char) :
    EndsRun (a ++ b) := by
  intro c hc
  rw [List.head?_append_of_ne_nil _ ha] at hc
  exact h c hc

theorem EndsRun.gap_ne_nil {g r rest : List Char} (h : EndsRun (g ++ r ++ rest))
    (hr : IsRun r) : g ≠ [] := by
  rintro rfl
  obtain ⟨c, cs, rfl⟩ := List.exists_cons_of_ne_nil hr.ne_nil
  have hc : Name.isPart c = false := h c (by simp)
  rw [hr.isPart c List.mem_cons_self] at hc
  exact Bool.noConfusion hc

theorem head?_dropWhile_eq_false (P : Char → Bool) (text : List Char) :
    ∀ c ∈ (text.dropWhile P).head?, P c = false := by
  intro c hc
  have h := List.head?_dropWhile_not P text
  rw [Option.mem_def.mp hc] at h
  exact h

theorem endsRun_dropWhile (text : List Char) : EndsRun (text.dropWhile Name.isPart) :=
  head?_dropWhile_eq_false Name.isPart text

/-- A stretch of one class of characters and what stands behind it are what
`takeWhile` and `dropWhile` give. -/
theorem takeWhile_dropWhile_append {P : Char → Bool} {w rest : List Char}
    (hw : ∀ c ∈ w, P c = true) (hrest : ∀ c ∈ rest.head?, P c = false) :
    (w ++ rest).takeWhile P = w ∧ (w ++ rest).dropWhile P = rest := by
  have hstop : rest.takeWhile P = [] ∧ rest.dropWhile P = rest := by
    cases rest with
    | nil => exact ⟨rfl, rfl⟩
    | cons c cs => simp [hrest c rfl]
  rw [List.takeWhile_append_of_pos hw, List.dropWhile_append_of_pos hw, hstop.1, hstop.2,
    List.append_nil]
  exact ⟨rfl, rfl⟩

/-- A text is one gap, or it starts with a beat. -/
theorem gap_or_beat (text : List Char) :
    IsGap text ∨ ∃ g r rest, text = g ++ r ++ rest ∧ IsGap g ∧ IsRun r ∧ EndsRun rest := by
  let g := text.takeWhile fun c => !Name.isPart c
  let after := text.dropWhile fun c => !Name.isPart c
  have hg : IsGap g := by
    intro c hc
    simpa using List.mem_takeWhile_imp hc
  have hsplit : g ++ after = text := List.takeWhile_append_dropWhile
  cases hafter : after with
  | nil =>
      refine Or.inl ?_
      rw [← hsplit, hafter, List.append_nil]
      exact hg
  | cons c cs =>
      refine Or.inr ⟨g, (c :: cs).takeWhile Name.isPart, (c :: cs).dropWhile Name.isPart,
        ?_, hg, ⟨?_, fun d hd => List.mem_takeWhile_imp hd⟩, endsRun_dropWhile _⟩
      · rw [List.append_assoc, List.takeWhile_append_dropWhile, ← hafter, hsplit]
      · have hc : Name.isPart c = true := by
          have h := List.head?_dropWhile_not (fun c => !Name.isPart c) text
          rw [show text.dropWhile (fun c => !Name.isPart c) = c :: cs from hafter] at h
          simpa using h
        simp [hc]

/-- Induction over the beats of a text. -/
theorem beat_induction {motive : List Char → Prop} (gap : ∀ g, IsGap g → motive g)
    (beat : ∀ g r rest, IsGap g → IsRun r → EndsRun rest → motive rest →
      motive (g ++ r ++ rest)) :
    ∀ text, motive text := by
  intro text
  induction hn : text.length using Nat.strong_induction_on generalizing text with
  | _ n ih =>
      rcases gap_or_beat text with hgap | ⟨g, r, rest, rfl, hg, hr, hrest⟩
      · exact gap text hgap
      · refine beat g r rest hg hr hrest (ih rest.length ?_ rest rfl)
        have hlen : 0 < r.length := List.length_pos_of_ne_nil hr.ne_nil
        simp only [List.length_append] at hn
        omega

/-! ## Blocks of a beat -/

theorem blocks_of_uniform {b : List Char} {k : Bool} (hb : b ≠ [])
    (h : ∀ c ∈ b, Name.isPart c = k) : blocks b = [b] := by
  refine List.splitBy_of_isChain hb (List.Pairwise.isChain ?_)
  exact List.pairwise_of_forall_mem_list fun x hx y hy => by simp [h x hx, h y hy]

theorem blocks_append {a b : List Char} (h : ∀ x ∈ a.getLast?, ∀ y ∈ b.head?,
    Name.isPart x ≠ Name.isPart y) : blocks (a ++ b) = blocks a ++ blocks b :=
  List.splitBy_append fun x hx y hy => beq_false_of_ne (h x hx y hy)

theorem blocks_run_append {r rest : List Char} (hr : IsRun r) (hrest : EndsRun rest) :
    blocks (r ++ rest) = r :: blocks rest := by
  rw [blocks_append, blocks_of_uniform hr.ne_nil hr.isPart]
  · rfl
  · intro x hx y hy
    rw [hr.isPart x (List.mem_of_mem_getLast? hx), hrest y hy]
    exact Bool.noConfusion

theorem blocks_gap_append {g r rest : List Char} (hg : IsGap g) (hne : g ≠ []) (hr : IsRun r)
    (hrest : EndsRun rest) : blocks (g ++ r ++ rest) = g :: r :: blocks rest := by
  rw [List.append_assoc, blocks_append, blocks_of_uniform hne hg, blocks_run_append hr hrest]
  · rfl
  · intro x hx y hy
    rw [List.head?_append_of_ne_nil _ hr.ne_nil] at hy
    rw [hg x (List.mem_of_mem_getLast? hx), hr.isPart y (List.mem_of_mem_head? hy)]
    exact Bool.noConfusion

/-! ## What a block is

A gap is itself.  A run is a name, a number or neither, by its first character
and its shape. -/

theorem ofBlock_gap {g : List Char} (hg : IsGap g) : Piece.ofBlock g = .gap g := by
  cases g with
  | nil => rfl
  | cons c cs => simp [Piece.ofBlock, hg c List.mem_cons_self]

@[simp] theorem Piece.text_ofBlock (b : List Char) : (Piece.ofBlock b).text = b := by
  cases b with
  | nil => rfl
  | cons c cs => simp only [Piece.ofBlock]; split_ifs <;> rfl

@[simp] theorem Piece.flatMap_text_ofGap (g : List Char) :
    (Piece.ofGap g).flatMap Piece.text = g := by
  cases g with
  | nil => rfl
  | cons c cs => simp [Piece.ofGap, Piece.text]

theorem Piece.ofGap_of_ne_nil {g : List Char} (h : g ≠ []) : Piece.ofGap g = [.gap g] := by
  cases g with
  | nil => exact absurd rfl h
  | cons c cs => rfl

theorem isHexRun_eq_false {c : Char} {cs : List Char} (h : c.isDigit = false) :
    Literal.isHexRun (c :: cs) = false := by
  unfold Literal.isHexRun
  split
  · next heq =>
      cases heq
      exact absurd h (by decide)
  · rfl

theorem isHexRun_gap {g : List Char} (hg : IsGap g) : Literal.isHexRun g = false := by
  cases g with
  | nil => rfl
  | cons c cs =>
      refine isHexRun_eq_false ?_
      have h := hg c List.mem_cons_self
      simp only [Name.isPart, Char.isAlphanum, Bool.or_eq_false_iff] at h
      exact h.1.1.2

theorem unarySign?_concat (atStart : Bool) (b : List Char) (s : Char) :
    unarySign? atStart (b ++ [s]) =
      if isSign s && b.getLast?.elim atStart (fun c => c != ')' && c != ']') then some s
      else none := by
  rcases List.eq_nil_or_concat b with rfl | ⟨a, c, rfl⟩
  · simp [unarySign?]
  · simp [unarySign?, Bool.and_assoc]

/-- The sign at the end of a gap is unary when nothing stands before it but the
start of the text, or a character that is no closing bracket. -/
theorem unarySign?_eq_some_iff {atStart : Bool} {g : List Char} {s : Char} :
    unarySign? atStart g = some s ↔
      ∃ b, g = b ++ [s] ∧ isSign s = true ∧ (b = [] → atStart = true) ∧
        ∀ c ∈ b.getLast?, c ≠ ')' ∧ c ≠ ']' := by
  rcases List.eq_nil_or_concat g with rfl | ⟨b, t, rfl⟩
  · simp [unarySign?]
  · rw [List.concat_eq_append, unarySign?_concat]
    constructor
    · intro h
      simp only [Option.ite_none_right_eq_some, Bool.and_eq_true, Option.some.injEq] at h
      obtain ⟨⟨hsign, hb⟩, rfl⟩ := h
      refine ⟨b, rfl, hsign, ?_, ?_⟩
      · rintro rfl
        exact hb
      · intro c hc
        rw [Option.mem_def.mp hc] at hb
        simpa using hb
    · rintro ⟨b', hb', hsign, hstart, hlast⟩
      obtain ⟨rfl, h⟩ := List.append_inj' hb' rfl
      cases h
      cases hc : b.getLast? with
      | none => simp [hsign, hstart (List.getLast?_eq_none_iff.mp hc)]
      | some c => simp [hsign, hlast c hc]

/-! ## The marks of a beat -/

/-- The pieces of a text, given whether it stands at the start. -/
def cut (atStart : Bool) (text : List Char) : List Piece := markTokens atStart (blocks text)

theorem pieces_eq_cut (text : List Char) : pieces text = cut true text := rfl

/-- The sign that a run takes from the gap in front of it. -/
def takenSign? (atStart : Bool) (g r : List Char) : Option Char :=
  if Literal.isHexRun r then unarySign? atStart g else none

theorem takenSign?_eq_some_iff {atStart : Bool} {g r : List Char} {s : Char} :
    takenSign? atStart g r = some s ↔
      Literal.isHexRun r = true ∧ unarySign? atStart g = some s := by
  rw [takenSign?, Option.ite_none_right_eq_some]

/-- The pieces of a gap and the run behind it. -/
def beat (atStart : Bool) (g r : List Char) : List Piece :=
  match takenSign? atStart g r with
  | some s => Piece.ofGap g.dropLast ++ [.token .number (s :: r)]
  | none => Piece.ofGap g ++ [Piece.ofBlock r]

theorem markTokens_run (atStart : Bool) {r rest : List Char} (hrest : EndsRun rest) :
    markTokens atStart (r :: blocks rest) = Piece.ofBlock r :: cut false rest := by
  rcases gap_or_beat rest with hgap | ⟨g, r', rest', rfl, hg, hr', hrest'⟩
  · by_cases hne : rest = []
    · subst hne; rfl
    · rw [cut, blocks_of_uniform hne hgap]
      simp [markTokens, isHexRun_gap hgap]
  · have hne : g ≠ [] := hrest.gap_ne_nil hr'
    rw [cut, blocks_gap_append hg hne hr' hrest']
    simp [markTokens, isHexRun_gap hg]

theorem cut_gap (atStart : Bool) {g : List Char} (hg : IsGap g) :
    cut atStart g = Piece.ofGap g := by
  by_cases hne : g = []
  · subst hne; rfl
  · rw [cut, blocks_of_uniform hne hg, Piece.ofGap_of_ne_nil hne]
    simp [markTokens, ofBlock_gap hg]

theorem cut_beat (atStart : Bool) {g r rest : List Char} (hg : IsGap g) (hr : IsRun r)
    (hrest : EndsRun rest) :
    cut atStart (g ++ r ++ rest) = beat atStart g r ++ cut false rest := by
  by_cases hne : g = []
  · subst hne
    have hnone : takenSign? atStart [] r = none := by
      simp [takenSign?, unarySign?]
    rw [cut, List.nil_append, blocks_run_append hr hrest, markTokens_run atStart hrest]
    simp [beat, hnone, Piece.ofGap]
  · rw [cut, blocks_gap_append hg hne hr hrest, markTokens, ← takenSign?, beat]
    cases takenSign? atStart g r with
    | some s => simp [cut]
    | none => simp [markTokens_run false hrest, ofBlock_gap hg, Piece.ofGap_of_ne_nil hne]

/-! ## The pieces of a text are the text -/

@[simp] theorem flatMap_text_beat (atStart : Bool) (g r : List Char) :
    (beat atStart g r).flatMap Piece.text = g ++ r := by
  rw [beat]
  cases hs : takenSign? atStart g r with
  | none => simp
  | some s =>
      obtain ⟨b, rfl, -⟩ := unarySign?_eq_some_iff.mp (takenSign?_eq_some_iff.mp hs).2
      simp [Piece.text]

theorem flatMap_text_cut (atStart : Bool) (text : List Char) :
    (cut atStart text).flatMap Piece.text = text := by
  induction text using beat_induction generalizing atStart with
  | gap g hg => simp [cut_gap atStart hg]
  | beat g r rest hg hr hrest ih =>
      rw [cut_beat atStart hg hr hrest, List.flatMap_append, flatMap_text_beat, ih]

/-! ## Cutting out a run

A run that is no hexadecimal number takes no sign, so what stands before it is
cut as if it stood alone, and what stands behind it as if it stood after
anything at all. -/

theorem takenSign?_of_not_hex {atStart : Bool} {g r : List Char}
    (hr : Literal.isHexRun r = false) : takenSign? atStart g r = none := by
  simp [takenSign?, hr]

theorem cut_at_run (atStart : Bool) {before r rest : List Char} (hbefore : BeginsRun before)
    (hr : IsRun r) (hhex : Literal.isHexRun r = false) (hrest : EndsRun rest) :
    cut atStart (before ++ r ++ rest) =
      cut atStart before ++ Piece.ofBlock r :: cut false rest := by
  induction before using beat_induction generalizing atStart with
  | gap g hg =>
      rw [cut_beat atStart hg hr hrest, cut_gap atStart hg, beat, takenSign?_of_not_hex hhex]
      simp
  | beat g r' between hg hr' hbetween ih =>
      -- `between` cannot be empty: `r'` would then touch `r`.
      have hne : between ≠ [] := by
        rintro rfl
        obtain ⟨c, hc⟩ := Option.isSome_iff_exists.mp
          (List.getLast?_isSome.mpr hr'.ne_nil)
        have hlast : Name.isPart c = false :=
          hbefore c (by rw [List.append_nil, List.getLast?_append, hc]; rfl)
        rw [hr'.isPart c (List.mem_of_mem_getLast? hc)] at hlast
        exact Bool.noConfusion hlast
      have hbegins : BeginsRun between := by
        intro c hc
        refine hbefore c ?_
        rw [List.getLast?_append, Option.mem_def.mp hc]
        rfl
      have hends : EndsRun (between ++ r ++ rest) := by
        rw [List.append_assoc]
        exact hbetween.append hne _
      have hassoc : g ++ r' ++ between ++ r ++ rest = g ++ r' ++ (between ++ r ++ rest) := by
        simp only [List.append_assoc]
      rw [hassoc, cut_beat atStart hg hr' hends, cut_beat atStart hg hr' hbetween,
        ih false hbegins, List.append_assoc]

theorem ofBlock_name {c : Char} {cs : List Char} (hc : Name.isPart c = true)
    (hd : c.isDigit = false) : Piece.ofBlock (c :: cs) = .token .name (c :: cs) := by
  simp [Piece.ofBlock, hc, hd]

theorem name_mem_pieces {before rest : List Char} {c : Char} {cs : List Char}
    (hbefore : BeginsRun before) (hr : IsRun (c :: cs)) (hd : c.isDigit = false)
    (hrest : EndsRun rest) :
    .token .name (c :: cs) ∈ pieces (before ++ (c :: cs) ++ rest) := by
  rw [pieces_eq_cut, cut_at_run true hbefore hr (isHexRun_eq_false hd) hrest,
    ofBlock_name (hr.isPart c List.mem_cons_self) hd]
  exact List.mem_append_right _ List.mem_cons_self

end Unmask
