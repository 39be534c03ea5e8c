/-
# `Unmask.Proofs.Separation` — texts that a separator keeps apart are read apart

When two texts are written one behind the other with a separator in between, the
tokens of the whole are those of the first text and then those of the second, moved by
what stands in front of them; and replacing tokens in the whole is replacing them in
each of the two.  A separator is any text that is not empty, has no name byte and does
not end in `+`, `-`, `)` or `]` (`IsSeparator`).

The pieces of the whole are not the pieces of the parts in a row: the last gap of the
first text, the separator and the first gap of the second text become one gap.  With
that gap set apart, the rest is in common (`cut_separated`):

    s₁        =  front g₁
    s₂        =            g₂ back
    s₁ p s₂   =  front (g₁ p g₂) back

In front, this holds because a separator ends every run (`cut_front`).  Behind, it
matters which sign a number takes: at the start of a text any sign counts, and behind
other text it counts unless an operand ends before it.  No operand ends with a
separator, and no separator offers a sign of its own, so the second text is read as if it
stood at the start (`unarySign?_behind`, `cut_behind`).
-/
import Unmask.Proofs.Respelling
import Unmask.Proofs.TokenGrammar

namespace Unmask

/-! ## Separators -/

/-- A text that keeps its neighbours apart: there is something in it, none of its bytes
is a name byte, and the last is neither a sign nor a closing bracket. -/
structure IsSeparator (p : String) : Prop where
  ne_empty : p ≠ ""
  isPart : ∀ b ∈ utf8 p, isPartByte b = false
  last : ∀ b ∈ (utf8 p).getLast?, Char.ofUInt8 b ∉ ['+', '-', ')', ']']

/-- Ends in a character that is neither a sign nor a closing bracket. -/
def EndsPlain (q : List Char) : Prop :=
  ∃ b c, q = b ++ [c] ∧ isSign c = false ∧ c ≠ ')' ∧ c ≠ ']'

theorem EndsPlain.append {q : List Char} (h : EndsPlain q) (a : List Char) :
    EndsPlain (a ++ q) := by
  obtain ⟨b, c, rfl, hc⟩ := h
  exact ⟨a ++ b, c, (List.append_assoc a b [c]).symm, hc⟩

theorem EndsPlain.ne_nil {q : List Char} (h : EndsPlain q) : q ≠ [] := by
  obtain ⟨b, c, rfl, -⟩ := h
  exact List.append_ne_nil_of_right_ne_nil b (List.cons_ne_nil c [])

theorem IsSeparator.isGap {p : String} (h : IsSeparator p) : IsGap p.toList := by
  intro c hc
  obtain ⟨b, hb⟩ := List.exists_mem_of_ne_nil _ (String.utf8EncodeChar_ne_nil (c := c))
  rw [← isPartByte_of_mem hb]
  refine h.isPart b ?_
  rw [utf8_eq_encode]
  exact List.mem_flatMap.mpr ⟨c, hc, hb⟩

theorem IsSeparator.endsPlain {p : String} (h : IsSeparator p) : EndsPlain p.toList := by
  rcases List.eq_nil_or_concat p.toList with hnil | ⟨v, c, hp⟩
  · exact absurd (String.toList_eq_nil_iff.mp hnil) h.ne_empty
  · rw [List.concat_eq_append] at hp
    obtain ⟨b, hb⟩ := Option.isSome_iff_exists.mp
      (List.getLast?_isSome.mpr (String.utf8EncodeChar_ne_nil (c := c)))
    have hlast : b ∈ (utf8 p).getLast? := by
      rw [utf8_eq_encode, hp, ← List.nil_append (encode _), getLast?_append_encode]
      exact hb
    have hmem : b ∈ String.utf8EncodeChar c := List.mem_of_getLast? hb
    have hascii : ∀ d ∈ ['+', '-', ')', ']'], d.toNat < 128 := by
      intro d hd
      simp only [List.mem_cons, List.not_mem_nil, or_false] at hd
      rcases hd with rfl | rfl | rfl | rfl <;> decide
    have hplain : c ∉ ['+', '-', ')', ']'] := by
      intro hc
      have hbyte : Char.ofUInt8 b = c := (ofUInt8_eq_iff (hascii c hc) hmem).mpr rfl
      exact h.last b hlast (hbyte ▸ hc)
    simp only [List.mem_cons, List.not_mem_nil, or_false, not_or] at hplain
    obtain ⟨hplus, hminus, hround, hsquare⟩ := hplain
    exact ⟨v, c, hp, by simp [isSign, hplus, hminus], hround, hsquare⟩

/-! ## Signs behind a separator -/

/-- Behind such a text a sign counts as at the start. -/
theorem unarySign?_behind (atStart : Bool) {q : List Char} (hq : EndsPlain q) (g : List Char) :
    unarySign? atStart (q ++ g) = unarySign? true g := by
  obtain ⟨b, c, rfl, hsign, hround, hsquare⟩ := hq
  rcases List.eq_nil_or_concat g with rfl | ⟨a, s, rfl⟩
  · rw [List.append_nil, unarySign?_concat, hsign]
    rfl
  · have hbefore : (b ++ [c] ++ a).getLast?.elim atStart (fun x => x != ')' && x != ']') =
        a.getLast?.elim true fun x => x != ')' && x != ']' := by
      rcases List.eq_nil_or_concat a with rfl | ⟨v, d, rfl⟩
      · simp [hround, hsquare]
      · rw [List.concat_eq_append, ← List.append_assoc, List.getLast?_concat, List.getLast?_concat]
        rfl
    rw [List.concat_eq_append, ← List.append_assoc, unarySign?_concat, unarySign?_concat, hbefore]

theorem takenSign?_behind (atStart : Bool) {q : List Char} (hq : EndsPlain q) (g r : List Char) :
    takenSign? atStart (q ++ g) r = takenSign? true g r := by
  rw [takenSign?, takenSign?, unarySign?_behind atStart hq]

/-! ## The pieces in front and behind -/

/-- A text is cut the same whatever follows, up to its last gap, as long as what follows
does not prolong its last run. -/
theorem cut_front (s : List Char) : ∀ atStart : Bool, ∃ front g, IsGap g ∧
    cut atStart s = front ++ Piece.ofGap g ∧
    ∀ t, EndsRun t → ∃ start, cut atStart (s ++ t) = front ++ cut start (g ++ t) := by
  induction s using beat_induction with
  | gap g hg =>
      intro atStart
      exact ⟨[], g, hg, cut_gap atStart hg, fun t _ => ⟨atStart, rfl⟩⟩
  | beat g r rest hg hr hrest ih =>
      intro atStart
      obtain ⟨front, last, hlast, hcut, hmore⟩ := ih false
      refine ⟨beat atStart g r ++ front, last, hlast, ?_, ?_⟩
      · rw [cut_beat atStart hg hr hrest, hcut, List.append_assoc]
      · intro t ht
        -- Only if nothing is left behind the run does `t` touch it.
        have hends : EndsRun (rest ++ t) := by
          by_cases hne : rest = []
          · rw [hne, List.nil_append]
            exact ht
          · exact hrest.append hne t
        obtain ⟨start, hstart⟩ := hmore t ht
        refine ⟨start, ?_⟩
        rw [List.append_assoc (g ++ r), cut_beat atStart hg hr hends, hstart, List.append_assoc]

/-- A text behind a gap that ends plainly is cut as at the start, but for its first gap. -/
theorem cut_behind (s : List Char) : ∃ g back, cut true s = Piece.ofGap g ++ back ∧
    ∀ (atStart : Bool) {q : List Char}, IsGap q → EndsPlain q →
      cut atStart (q ++ s) = Piece.ofGap (q ++ g) ++ back := by
  rcases gap_or_beat s with hgap | ⟨g, r, rest, rfl, hg, hr, hrest⟩
  · refine ⟨s, [], by rw [cut_gap true hgap, List.append_nil], ?_⟩
    intro atStart q hq _
    rw [cut_gap atStart (hq.append hgap), List.append_nil]
  · have hwhole : ∀ (atStart : Bool) {q : List Char}, IsGap q →
        cut atStart (q ++ (g ++ r ++ rest)) = beat atStart (q ++ g) r ++ cut false rest := by
      intro atStart q hq
      rw [← cut_beat atStart (hq.append hg) hr hrest]
      simp only [List.append_assoc]
    cases hs : takenSign? true g r with
    | none =>
        refine ⟨g, Piece.ofBlock r :: cut false rest, ?_, ?_⟩
        · rw [cut_beat true hg hr hrest, beat, hs]
          simp
        · intro atStart q hq hplain
          rw [hwhole atStart hq, beat, takenSign?_behind atStart hplain, hs]
          simp
    | some sign =>
        -- The sign is the last character of `g` and of `q ++ g`; both gaps lose it.
        obtain ⟨b, rfl, -⟩ := takenSign?_eq_some hs
        refine ⟨b, .token .number (sign :: r) :: cut false rest, ?_, ?_⟩
        · rw [cut_beat true hg hr hrest, beat, hs]
          simp
        · intro atStart q hq hplain
          have hlast : (q ++ (b ++ [sign])).dropLast = q ++ b := by
            rw [← List.append_assoc, List.dropLast_concat]
          rw [hwhole atStart hq, beat, takenSign?_behind atStart hplain, hs]
          simp [hlast]

theorem cut_separated (s₁ s₂ : List Char) {p : List Char} (hgap : IsGap p) (hp : EndsPlain p) :
    ∃ front g₁ g₂ back, cut true s₁ = front ++ Piece.ofGap g₁ ∧
      cut true s₂ = Piece.ofGap g₂ ++ back ∧
      cut true (s₁ ++ p ++ s₂) = front ++ (Piece.ofGap (g₁ ++ p ++ g₂) ++ back) := by
  obtain ⟨front, g₁, hg₁, hfront, hmore⟩ := cut_front s₁ true
  obtain ⟨g₂, back, hback, hbehind⟩ := cut_behind s₂
  refine ⟨front, g₁, g₂, back, hfront, hback, ?_⟩
  obtain ⟨start, hstart⟩ := hmore (p ++ s₂) (hgap.endsRun.append hp.ne_nil s₂)
  rw [List.append_assoc, hstart, ← List.append_assoc,
    hbehind start (hg₁.append hgap) (hp.append g₁)]

/-! ## Tokens and replacement -/

def Token.shift (n : Nat) (t : Token) : Token :=
  { t with start := t.start + n, stop := t.stop + n }

theorem locate_shift (n : Nat) (ps : List Piece) :
    ∀ start, locate (start + n) ps = (locate start ps).map (Token.shift n) := by
  induction ps with
  | nil =>
      intro start
      rfl
  | cons p ps ih =>
      intro start
      cases p with
      | gap t => rw [locate, locate, ← ih, Nat.add_right_comm]
      | token k t => rw [locate, locate, List.map_cons, ← ih, Token.shift, Nat.add_right_comm]

theorem byteLength_toList (text : String) : byteLength text.toList = text.utf8ByteSize := by
  rw [← length_encode, ← utf8_eq_encode]
  rfl

theorem flatMap_replaced_ofGap (kind : TokenKind) (m : Mapping) (g : List Char) :
    (Piece.ofGap g).flatMap (Piece.replaced kind m) = g := by
  cases g with
  | nil => rfl
  | cons c cs => simp [Piece.ofGap, Piece.replaced]

/-- Reading and replacing tokens goes through a separator: the tokens of the whole are
those of the first text and those of the second, moved behind the first text and the
separator, and what replaces tokens in the whole replaces them in each of the two. -/
theorem tokens_separated (s₁ s₂ : String) {p : String} (hp : IsSeparator p) :
    tokens (s₁ ++ p ++ s₂) =
      tokens s₁ ++ (tokens s₂).map (Token.shift (s₁ ++ p).utf8ByteSize) ∧
    ∀ (kind : TokenKind) (m : Mapping), replaceTokens kind m (s₁ ++ p ++ s₂) =
      replaceTokens kind m s₁ ++ p ++ replaceTokens kind m s₂ := by
  obtain ⟨front, g₁, g₂, back, h₁, h₂, hwhole⟩ :=
    cut_separated s₁.toList s₂.toList hp.isGap hp.endsPlain
  have htext : (s₁ ++ p ++ s₂).toList = s₁.toList ++ p.toList ++ s₂.toList := by
    simp only [String.toList_append]
  constructor
  · have hfirst : s₁.toList = front.flatMap Piece.text ++ g₁ := by
      rw [← flatMap_text_cut true s₁.toList, h₁, List.flatMap_append, Piece.flatMap_text_ofGap]
    have hplace : 0 + byteLength (front.flatMap Piece.text) + byteLength (g₁ ++ p.toList ++ g₂) =
        0 + byteLength g₂ + (s₁ ++ p).utf8ByteSize := by
      rw [← byteLength_toList, String.toList_append, hfirst]
      simp only [byteLength_append]
      omega
    simp only [tokens, pieces_eq_cut, htext, h₁, h₂, hwhole, locate_append, locate_ofGap,
      Piece.flatMap_text_ofGap, List.nil_append, List.append_nil]
    rw [hplace, locate_shift]
  · intro kind m
    refine String.toList_inj.mp ?_
    simp only [replaceTokens, pieces_eq_cut, htext, h₁, h₂, hwhole, String.toList_append,
      String.toList_ofList, List.flatMap_append, flatMap_replaced_ofGap]
    simp only [List.append_assoc]

/-- A sign that the second text starts with, behind an operand, a character of two bytes
and a blank; a value that is no name is put in. -/
theorem tokens_separated_signs :
    IsSeparator "é " ∧
      tokens ("q[7]" ++ "é " ++ "-0x1f") =
        tokens "q[7]" ++ (tokens "-0x1f").map (Token.shift ("q[7]" ++ "é ").utf8ByteSize) ∧
      let m : Mapping := .ofList [("7", "8 9"), ("-0x1f", "")]
      replaceTokens .number m ("q[7]" ++ "é " ++ "-0x1f") =
        replaceTokens .number m "q[7]" ++ "é " ++ replaceTokens .number m "-0x1f" := by
  have hbytes : utf8 "é " = [0xc3, 0xa9, 0x20] := by
    rw [utf8_eq_encode]
    decide +kernel
  have hp : IsSeparator "é " := by
    constructor
    · decide
    · rw [hbytes]
      decide +kernel
    · rw [hbytes]
      rintro b ⟨⟩
      decide
  exact ⟨hp, (tokens_separated _ _ hp).1, (tokens_separated _ _ hp).2 _ _⟩

end Unmask
