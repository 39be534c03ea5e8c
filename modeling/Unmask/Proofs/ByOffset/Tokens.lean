/-
# `Unmask.Proofs.ByOffset.Tokens` — tokens and their replacement, by offsets

The runs of a text come with the offsets where they start.  A run looks at its
own first byte, a hexadecimal run also at the one or two bytes in front of it, and
then its text is cut out of the whole (`tokenOfRun`).  Replacing tokens copies
the text between one replaced token and the next, and at last the text behind
them (`spliced`).

Both follow the text from its start.  The invariant of the first is that what lies
behind is nothing or ends in a run (`Passed`), so that the bytes in front of a run
are there whenever they are looked at.  The invariant of the second is that the
text is what has been copied, what has not been copied yet, and the rest of the
pieces: every cut falls between two of these.
-/
import Unmask.Proofs.ByOffset.Access
import Unmask.Renaming

namespace Unmask.ByOffset

/-! ## Definitions -/

/-- The runs among the blocks of a text, with the offsets where they start. -/
def runsFrom (start : Nat) : List (List Char) → List (Nat × List Char)
  | [] => []
  | b :: bs =>
      let later := runsFrom (start + byteLength b) bs
      if b.head?.any Name.isPart then (start, b) :: later else later

/-- Where the token of a hexadecimal run starts: at the sign in front of the run, if
there is one in unary position. -/
def signedStart (bytes : List Char) (start : Nat) : Checked Nat :=
  if start = 0 then .ok start
  else do
    let i ← minus start 1
    let s ← octetAt bytes i
    if isSign s then
      if start < 2 then .ok i
      else do
        let j ← minus start 2
        let b ← octetAt bytes j
        .ok (if Name.isPart b || b == ')' || b == ']' then start else i)
    else .ok start

def tokenOfRun (text : List Char) (start : Nat) (run : List Char) : Checked (Option Token) := do
  let first ← octetAt (octets run) 0
  let stop := start + byteLength run
  if !first.isDigit then .ok (some ⟨.name, String.ofList run, start, stop⟩)
  else if Literal.isHexRun run then do
    let start ← signedStart (octets text) start
    let signed ← slice text start stop
    .ok (some ⟨.number, String.ofList signed, start, stop⟩)
  else if Literal.isDecimalRun run then .ok (some ⟨.number, String.ofList run, start, stop⟩)
  else .ok none

def tokens (source : String) : Checked (List Token) :=
  (runsFrom 0 (blocks source.toList)).filterMapM fun r => tokenOfRun source.toList r.1 r.2

/-- The text from an offset on, with the tokens of one kind replaced. -/
def spliced (kind : TokenKind) (m : Mapping) (text : List Char) (last : Nat) :
    List Token → Checked (List Char)
  | [] => dropBytes last text
  | t :: ts =>
      match if t.kind = kind then m[t.text]? else none with
      | some new => do
          let between ← slice text last t.start
          let rest ← spliced kind m text t.stop ts
          .ok (between ++ (new.toList ++ rest))
      | none => spliced kind m text last ts

def replaceTokens (kind : TokenKind) (m : Mapping) (text : String) : Checked String :=
  if m.isEmpty then .ok text
  else do
    let ts ← tokens text
    let new ← spliced kind m text.toList 0 ts
    .ok (String.ofList new)

/-! ## The runs of a beat -/

theorem runsFrom_run {r : List Char} (hr : IsRun r) (start : Nat) (bs : List (List Char)) :
    runsFrom start (r :: bs) = (start, r) :: runsFrom (start + byteLength r) bs := by
  obtain ⟨c, cs, rfl⟩ := List.exists_cons_of_ne_nil hr.ne_nil
  have hc : Name.isPart c = true := hr.isPart c List.mem_cons_self
  simp [runsFrom, hc]

theorem runsFrom_gap {g : List Char} (hg : IsGap g) (start : Nat) (bs : List (List Char)) :
    runsFrom start (g :: bs) = runsFrom (start + byteLength g) bs := by
  cases g with
  | nil => rfl
  | cons c cs => simp [runsFrom, hg c List.mem_cons_self]

theorem runsFrom_blocks_gap {g : List Char} (hg : IsGap g) (start : Nat) :
    runsFrom start (blocks g) = [] := by
  by_cases hne : g = []
  · subst hne
    rfl
  · rw [blocks_of_uniform hne hg, runsFrom_gap hg]
    rfl

theorem runsFrom_blocks_beat {g r rest : List Char} (hg : IsGap g) (hr : IsRun r)
    (hrest : EndsRun rest) (start : Nat) :
    runsFrom start (blocks (g ++ r ++ rest)) =
      (start + byteLength g, r) ::
        runsFrom (start + byteLength g + byteLength r) (blocks rest) := by
  by_cases hne : g = []
  · subst hne
    rw [List.nil_append, blocks_run_append hr hrest, runsFrom_run hr]
    rfl
  · rw [blocks_gap_append hg hne hr hrest, runsFrom_gap hg, runsFrom_run hr]

/-! ## The token of a run -/

theorem not_unarySign_nil : ¬ UnarySign [] := by
  rintro ⟨b, s, heq, -⟩
  exact absurd heq.symm (List.append_ne_nil_of_right_ne_nil b (List.cons_ne_nil s []))

theorem unarySign_concat {b : List UInt8} {s : UInt8} :
    UnarySign (b ++ [s]) ↔ isSign (Char.ofUInt8 s) = true ∧
      ∀ c ∈ b.getLast?, isPartByte c = false ∧ Char.ofUInt8 c ≠ ')' ∧ Char.ofUInt8 c ≠ ']' := by
  have hsign : isSign (Char.ofUInt8 s) = true ↔
      Char.ofUInt8 s = '+' ∨ Char.ofUInt8 s = '-' := by
    rw [isSign, Bool.or_eq_true, beq_iff_eq, beq_iff_eq]
  rw [hsign]
  constructor
  · rintro ⟨b', s', heq, hs, hlast⟩
    obtain ⟨rfl, hs'⟩ := List.append_inj' heq rfl
    cases hs'
    exact ⟨hs, hlast⟩
  · rintro ⟨hs, hlast⟩
    exact ⟨b, s, rfl, hs, hlast⟩

/-- The bytes in front of a run are there when they are looked at, and they are looked
at for a sign in unary position. -/
theorem signedStart_eq (before rest : List UInt8) :
    ∃ start, signedStart ((before ++ rest).map Char.ofUInt8) before.length = .ok start ∧
      ((UnarySign before ∧ start = before.length - 1) ∨
        (¬ UnarySign before ∧ start = before.length)) := by
  rcases List.eq_nil_or_concat before with rfl | ⟨b, s, rfl⟩
  · exact ⟨0, rfl, Or.inr ⟨not_unarySign_nil, rfl⟩⟩
  · rw [List.concat_eq_append, unarySign_concat]
    have hs : octetAt ((b ++ [s] ++ rest).map Char.ofUInt8) b.length = .ok (Char.ofUInt8 s) :=
      octetAt_of_getElem? (by simp)
    simp only [signedStart, List.length_append, List.length_singleton, Nat.add_one_ne_zero,
      if_false, minus, Nat.le_add_left, if_true, Nat.add_sub_cancel, ok_bind, hs]
    cases hsign : isSign (Char.ofUInt8 s) with
    | false => exact ⟨b.length + 1, rfl, Or.inr ⟨by simp, rfl⟩⟩
    | true =>
        rcases List.eq_nil_or_concat b with rfl | ⟨a, c, rfl⟩
        · exact ⟨0, rfl, Or.inl ⟨by simp, rfl⟩⟩
        · have hc : octetAt ((a ++ [c] ++ [s] ++ rest).map Char.ofUInt8) a.length =
              .ok (Char.ofUInt8 c) := octetAt_of_getElem? (by simp)
          have hlast : (∀ d ∈ (a ++ [c]).getLast?, isPartByte d = false ∧
              Char.ofUInt8 d ≠ ')' ∧ Char.ofUInt8 d ≠ ']') ↔
              (Name.isPart (Char.ofUInt8 c) || Char.ofUInt8 c == ')' || Char.ofUInt8 c == ']') =
                false := by
            simp [isPartByte, and_assoc]
          simp only [List.concat_eq_append, hlast, List.length_append, List.length_singleton,
            if_true, hc, ok_bind, true_and,
            show ¬ a.length + 1 + 1 < 2 by omega, if_false, show 2 ≤ a.length + 1 + 1 by omega,
            show a.length + 1 + 1 - 2 = a.length by omega]
          cases Name.isPart (Char.ofUInt8 c) || Char.ofUInt8 c == ')' || Char.ofUInt8 c == ']' with
          | false => exact ⟨_, rfl, Or.inl ⟨rfl, rfl⟩⟩
          | true => exact ⟨_, rfl, Or.inr ⟨by simp, rfl⟩⟩

theorem octetAt_run {c : Char} {cs : List Char} (hr : IsRun (c :: cs)) :
    octetAt (octets (c :: cs)) 0 = .ok c := by
  rw [octets, map_ofUInt8_encode hr.isPart]
  rfl

theorem tokenOfRun_of_not_hex {r : List Char} (hr : IsRun r) (hhex : Literal.isHexRun r = false)
    (text : List Char) (start : Nat) :
    ∃ t, tokenOfRun text start r = .ok t ∧ t.toList = locate start [Piece.ofBlock r] := by
  obtain ⟨c, cs, rfl⟩ := List.exists_cons_of_ne_nil hr.ne_nil
  have hpart : Name.isPart c = true := hr.isPart c List.mem_cons_self
  rw [tokenOfRun, octetAt_run hr, ok_bind, hhex]
  simp only [Piece.ofBlock, hpart, hhex, Bool.not_true, Bool.false_eq_true, if_false,
    Bool.false_or]
  split_ifs
  · exact ⟨_, rfl, rfl⟩
  · exact ⟨_, rfl, rfl⟩
  · exact ⟨_, rfl, rfl⟩

theorem tokenOfRun_of_hex {r : List Char} (hr : IsRun r) (hhex : Literal.isHexRun r = true)
    (text : List Char) (start : Nat) :
    tokenOfRun text start r = (do
      let first ← signedStart (octets text) start
      let signed ← slice text first (start + byteLength r)
      .ok (some ⟨.number, String.ofList signed, first, start + byteLength r⟩)) := by
  obtain ⟨digits, rfl, -, -⟩ := isHexRun_iff.mp hhex
  rw [tokenOfRun, octetAt_run hr, ok_bind, hhex]
  rfl

section Beat

variable {atStart : Bool} {front g r : List Char}

theorem tokenOfRun_beat (hp : Passed atStart (encode front)) (hg : IsGap g) (hr : IsRun r)
    (rest : List Char) :
    ∃ t, tokenOfRun (front ++ g ++ r ++ rest) (byteLength (front ++ g)) r = .ok t ∧
      t.toList = locate (byteLength front) (beat atStart g r) := by
  have hunsigned : takenSign? atStart g r = none →
      locate (byteLength front) (beat atStart g r) =
        locate (byteLength (front ++ g)) [Piece.ofBlock r] := by
    intro hs
    rw [← length_encode, locate_beat_unsigned (encode front) hs, ← encode_append, length_encode]
  cases hhex : Literal.isHexRun r with
  | false =>
      rw [hunsigned (takenSign?_of_not_hex hhex)]
      exact tokenOfRun_of_not_hex hr hhex _ _
  | true =>
      obtain ⟨start, hstart, hcase⟩ := signedStart_eq (encode (front ++ g)) (encode (r ++ rest))
      rw [← encode_append, ← List.append_assoc] at hstart
      have hstop : byteLength (front ++ g) + byteLength r = byteLength (front ++ g ++ r) :=
        (byteLength_append _ _).symm
      rw [tokenOfRun_of_hex hr hhex, octets, hstop, ← length_encode (front ++ g), hstart, ok_bind]
      rw [encode_append] at hcase
      cases hs : takenSign? atStart g r with
      | some s =>
          have hsign := ((exists_takenSign?_iff hp hg).mp ⟨s, hs⟩).2
          obtain ⟨-, rfl⟩ : _ ∧ start = _ := hcase.resolve_right fun h => h.1 hsign
          obtain ⟨v, rfl, hlen, hlocate⟩ := locate_beat_signed (encode front) hs
          have htext : front ++ (v ++ [s]) ++ r = front ++ v ++ s :: r := by simp
          rw [length_encode] at hlocate
          rw [← hlen, hlocate, htext, ← encode_append, ← encode_append, length_encode,
            length_encode, List.append_assoc, slice_append]
          exact ⟨_, rfl, rfl⟩
      | none =>
          have hsign : ¬ UnarySign (encode front ++ encode g) := by
            intro h
            obtain ⟨s, hsome⟩ := (exists_takenSign?_iff hp hg).mpr ⟨hhex, h⟩
            exact Option.some_ne_none s (hsome.symm.trans hs)
          obtain ⟨-, rfl⟩ : _ ∧ start = _ := hcase.resolve_left fun h => hsign h.1
          rw [hunsigned hs, ← encode_append, length_encode, List.append_assoc, slice_append,
            (ofBlock_eq_token_iff hr).mpr (Or.inr ⟨rfl, Or.inl hhex⟩), ← hstop]
          exact ⟨_, rfl, rfl⟩

end Beat

/-! ## The tokens of a text -/

/-- From the start of a beat on, the runs of a text are its tokens. -/
theorem filterMapM_runsFrom (text : List Char) : ∀ (atStart : Bool) (front : List Char),
    Passed atStart (encode front) →
      (runsFrom (byteLength front) (blocks text)).filterMapM
          (fun r => tokenOfRun (front ++ text) r.1 r.2) =
        .ok (locate (byteLength front) (cut atStart text)) := by
  induction text using beat_induction with
  | gap g hg =>
      intro atStart front hp
      rw [runsFrom_blocks_gap hg, cut_gap atStart hg, locate_ofGap]
      rfl
  | beat g r rest hg hr hrest ih =>
      intro atStart front hp
      have hpassed : Passed false (encode (front ++ g ++ r)) := by
        rw [encode_append, encode_append]
        exact .beat hr
      have hlater := ih false (front ++ g ++ r) hpassed
      obtain ⟨t, hrun, ht⟩ := tokenOfRun_beat hp hg hr rest
      have htext : front ++ (g ++ r ++ rest) = front ++ g ++ r ++ rest := by
        simp only [List.append_assoc]
      have hlocate : locate (encode front).length (cut atStart (g ++ r ++ rest)) = _ :=
        locate_cut_beat (encode front) hg hr hrest
      rw [← encode_append, ← encode_append, length_encode, length_encode, ← ht] at hlocate
      rw [runsFrom_blocks_beat hg hr hrest, ← byteLength_append, ← byteLength_append, htext,
        List.filterMapM_cons, hrun, ok_bind, hlater, hlocate]
      cases t with
      | none => rfl
      | some t => rfl

theorem tokens_eq (source : String) : tokens source = .ok (Unmask.tokens source) := by
  have h := filterMapM_runsFrom source.toList true [] .start
  rw [List.nil_append] at h
  rw [tokens, Unmask.tokens, pieces_eq_cut]
  exact h

/-! ## Replacement -/

theorem replaced_token (kind : TokenKind) (m : Mapping) (k : TokenKind) (t : List Char) :
    (Piece.token k t).replaced kind m =
      match if k = kind then m[String.ofList t]? else none with
      | some new => new.toList
      | none => t := by
  rw [Piece.replaced]
  split_ifs <;> rfl

/-- The text is what has been copied, what is still to be copied, and the pieces that
follow; the tokens among these are replaced. -/
theorem spliced_locate (kind : TokenKind) (m : Mapping) (ps : List Piece) :
    ∀ (copied waiting : List Char),
      spliced kind m (copied ++ (waiting ++ ps.flatMap Piece.text)) (byteLength copied)
          (locate (byteLength (copied ++ waiting)) ps) =
        .ok (waiting ++ ps.flatMap (Piece.replaced kind m)) := by
  induction ps with
  | nil =>
      intro copied waiting
      exact dropBytes_append copied (waiting ++ [])
  | cons p ps ih =>
      intro copied waiting
      -- A piece that stays as it is waits with the rest.
      have hstay : p.replaced kind m = p.text →
          spliced kind m (copied ++ (waiting ++ (p :: ps).flatMap Piece.text)) (byteLength copied)
              (locate (byteLength (copied ++ waiting) + byteLength p.text) ps) =
            .ok (waiting ++ (p :: ps).flatMap (Piece.replaced kind m)) := by
        intro hp
        have h := ih copied (waiting ++ p.text)
        rw [← List.append_assoc copied waiting p.text, byteLength_append _ p.text] at h
        simp only [List.flatMap_cons, hp]
        simpa only [List.append_assoc] using h
      cases p with
      | gap t => exact hstay rfl
      | token k t =>
          have hreplaced := replaced_token kind m k t
          rw [locate, spliced]
          cases hnew : if k = kind then m[String.ofList t]? else none with
          | none =>
              rw [hnew] at hreplaced
              exact hstay hreplaced
          | some new =>
              rw [hnew] at hreplaced
              have hlater := ih (copied ++ waiting ++ t) []
              rw [List.append_nil, List.nil_append, byteLength_append _ t] at hlater
              simp only [List.flatMap_cons, hreplaced, Piece.text]
              rw [slice_append, ok_bind]
              simp only [List.append_assoc] at hlater ⊢
              rw [hlater]
              rfl

theorem replaceTokens_of_isEmpty {m : Mapping} (hm : m.isEmpty = true) (kind : TokenKind)
    (text : String) : Unmask.replaceTokens kind m text = text := by
  have hstay : Piece.replaced kind m = Piece.text := by
    funext p
    cases p with
    | gap t => rfl
    | token k t =>
        rw [replaced_token, Std.TreeMap.getElem?_of_isEmpty hm]
        split_ifs <;> rfl
  rw [Unmask.replaceTokens, hstay, pieces_eq_cut, flatMap_text_cut, String.ofList_toList]

theorem replaceTokens_eq (kind : TokenKind) (m : Mapping) (text : String) :
    replaceTokens kind m text = .ok (Unmask.replaceTokens kind m text) := by
  rw [replaceTokens]
  split_ifs with hm
  · rw [replaceTokens_of_isEmpty hm]
  · have h := spliced_locate kind m (pieces text.toList) [] []
    rw [List.nil_append, List.nil_append, List.nil_append, pieces_eq_cut, flatMap_text_cut,
      ← pieces_eq_cut] at h
    rw [tokens_eq, ok_bind, Unmask.tokens, Unmask.replaceTokens]
    exact congrArg (· >>= fun new => Except.ok (String.ofList new)) h

end Unmask.ByOffset
