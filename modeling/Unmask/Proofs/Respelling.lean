/-
# `Unmask.Proofs.Respelling` — replacing tokens keeps the cut

A respelling of a text leaves the gaps alone and turns each token into itself
or into a valid name.  The text that results is cut exactly where the old one
was (`cut_respelled`):

    cut start ⟦(cut start text).map f⟧  =  (cut start text).map f

where `⟦ps⟧` is the text of the pieces `ps`.  There are three ways in which
this could fail, and each is excluded by one fact about beats:

* two runs could merge — but a valid name is a run, it stands where a run
  stood, and the gap in front of it is not used up: a sign is taken only from a
  gap with something left in it, or at the start of the text;
* a run could change its kind — but a run that is not replaced is the same;
* a sign could change sides — but the sign that a run takes depends on its own
  gap alone.

Replacement by a mapping whose values are valid names is the case in point
(`pieces_replaceTokens`), and using two mappings one after the other is then
the same as using them at once (`replaceTokens_replaceTokens`).
-/
import Unmask.Proofs.Cut
import Unmask.Renaming

namespace Unmask

/-! ## Valid names as runs -/

theorem isPart_of_isStart {c : Char} (h : Name.isStart c = true) : Name.isPart c = true := by
  simp only [Name.isStart, Name.isPart, Char.isAlphanum, Bool.or_eq_true] at h ⊢
  rcases h with (h | h) | h
  · exact Or.inl (Or.inl (Or.inl h))
  · exact Or.inl (Or.inr h)
  · exact Or.inr h

theorem isDigit_eq_false_of_isAlpha {c : Char} (h : c.isAlpha = true) : c.isDigit = false := by
  unfold Char.isAlpha Char.isUpper Char.isLower at h
  unfold Char.isDigit
  grind

theorem isDigit_eq_false_of_isStart {c : Char} (h : Name.isStart c = true) :
    c.isDigit = false := by
  simp only [Name.isStart, Bool.or_eq_true, beq_iff_eq] at h
  rcases h with (h | rfl) | rfl
  · exact isDigit_eq_false_of_isAlpha h
  · rfl
  · rfl

theorem isValid_cons {c : Char} {cs : List Char} :
    Name.isValid (c :: cs) = true ↔ Name.isStart c = true ∧ ∀ d ∈ cs, Name.isPart d = true := by
  simp [Name.isValid, List.all_eq_true]

theorem isRun_of_isValid {v : List Char} (h : Name.isValid v = true) : IsRun v := by
  cases v with
  | nil => exact Bool.noConfusion h
  | cons c cs =>
      obtain ⟨hc, hcs⟩ := isValid_cons.mp h
      refine ⟨List.cons_ne_nil _ _, fun d hd => ?_⟩
      rcases List.mem_cons.mp hd with rfl | hd
      · exact isPart_of_isStart hc
      · exact hcs d hd

theorem ofBlock_of_isValid {v : List Char} (h : Name.isValid v = true) :
    Piece.ofBlock v = .token .name v := by
  cases v with
  | nil => exact Bool.noConfusion h
  | cons c cs =>
      have hc : Name.isStart c = true := (isValid_cons.mp h).1
      exact ofBlock_name (isPart_of_isStart hc) (isDigit_eq_false_of_isStart hc)

theorem isHexRun_of_isValid {v : List Char} (h : Name.isValid v = true) :
    Literal.isHexRun v = false := by
  cases v with
  | nil => rfl
  | cons c cs => exact isHexRun_eq_false (isDigit_eq_false_of_isStart (isValid_cons.mp h).1)

/-! ## Respelling a beat -/

/-- A piece and what it may become: itself, or a valid name in place of a token. -/
inductive Respelling : Piece → Piece → Prop
  | same (p : Piece) : Respelling p p
  | name (k : TokenKind) (t v : List Char) :
      Name.isValid v = true → Respelling (.token k t) (.token .name v)

theorem Respelling.gap {t : List Char} {q : Piece} (h : Respelling (.gap t) q) : q = .gap t := by
  cases h with
  | same => rfl

theorem map_ofGap {f : Piece → Piece} {g : List Char}
    (hf : ∀ p ∈ Piece.ofGap g, Respelling p (f p)) : (Piece.ofGap g).map f = Piece.ofGap g := by
  cases g with
  | nil => rfl
  | cons c cs =>
      have h : f (.gap (c :: cs)) = .gap (c :: cs) := (hf _ List.mem_cons_self).gap
      simp [Piece.ofGap, h]

theorem beat_of_isValid (atStart : Bool) (g : List Char) {v : List Char}
    (h : Name.isValid v = true) : beat atStart g v = Piece.ofGap g ++ [.token .name v] := by
  rw [beat, takenSign?_of_not_hex (isHexRun_of_isValid h), ofBlock_of_isValid h]

theorem takenSign?_eq_some {atStart : Bool} {g r : List Char} {s : Char}
    (h : takenSign? atStart g r = some s) :
    ∃ b, g = b ++ [s] ∧ (b = [] → atStart = true) := by
  obtain ⟨b, hb, -, hstart, -⟩ := unarySign?_eq_some_iff.mp (takenSign?_eq_some_iff.mp h).2
  exact ⟨b, hb, hstart⟩

/-- The respelled pieces of a beat are the pieces of another beat, whose gap is
empty only if the first one's was or the text starts here. -/
theorem beat_respelled {atStart : Bool} {g r : List Char} {f : Piece → Piece} (hg : IsGap g)
    (hr : IsRun r) (hf : ∀ p ∈ beat atStart g r, Respelling p (f p)) :
    ∃ g' r', IsGap g' ∧ IsRun r' ∧
      ((beat atStart g r).map f).flatMap Piece.text = g' ++ r' ∧
      beat atStart g' r' = (beat atStart g r).map f ∧
      (atStart = false → g ≠ [] → g' ≠ []) := by
  cases hs : takenSign? atStart g r with
  | none =>
      have hbeat : beat atStart g r = Piece.ofGap g ++ [Piece.ofBlock r] := by rw [beat, hs]
      have hmap : (Piece.ofGap g).map f = Piece.ofGap g :=
        map_ofGap fun p hp => hf p (hbeat ▸ List.mem_append_left _ hp)
      have hlast : Respelling (Piece.ofBlock r) (f (Piece.ofBlock r)) :=
        hf _ (hbeat ▸ List.mem_append_right _ List.mem_cons_self)
      generalize hq : f (Piece.ofBlock r) = q at hlast
      generalize hp : Piece.ofBlock r = p at hlast
      cases hlast with
      | same =>
          refine ⟨g, r, hg, hr, ?_, ?_, fun _ h => h⟩
          · rw [hbeat, List.map_append, hmap, List.map_singleton, hq, ← hp]
            simp
          · rw [hbeat, List.map_append, hmap, List.map_singleton, hq, hp]
      | name k t v hv =>
          refine ⟨g, v, hg, isRun_of_isValid hv, ?_, ?_, fun _ h => h⟩
          · rw [hbeat, List.map_append, hmap, List.map_singleton, hq]
            simp [Piece.text]
          · rw [hbeat, List.map_append, hmap, List.map_singleton, hq,
              beat_of_isValid atStart g hv]
  | some s =>
      obtain ⟨b, rfl, hstart⟩ := takenSign?_eq_some hs
      have hbeat : beat atStart (b ++ [s]) r = Piece.ofGap b ++ [.token .number (s :: r)] := by
        rw [beat, hs, List.dropLast_concat]
      have hmap : (Piece.ofGap b).map f = Piece.ofGap b :=
        map_ofGap fun p hp => hf p (hbeat ▸ List.mem_append_left _ hp)
      have hlast : Respelling (.token .number (s :: r)) (f (.token .number (s :: r))) :=
        hf _ (hbeat ▸ List.mem_append_right _ List.mem_cons_self)
      generalize hq : f (.token .number (s :: r)) = q at hlast
      cases hlast with
      | same =>
          refine ⟨b ++ [s], r, hg, hr, ?_, ?_, fun _ h => h⟩
          · rw [hbeat, List.map_append, hmap, List.map_singleton, hq]
            simp [Piece.text]
          · rw [hbeat, List.map_append, hmap, List.map_singleton, hq]
      | name k t v hv =>
          have hb : IsGap b := fun c hc => hg c (List.mem_append_left _ hc)
          refine ⟨b, v, hb, isRun_of_isValid hv, ?_, ?_, ?_⟩
          · rw [hbeat, List.map_append, hmap, List.map_singleton, hq]
            simp [Piece.text]
          · rw [hbeat, List.map_append, hmap, List.map_singleton, hq,
              beat_of_isValid atStart b hv]
          · intro hfalse _ hnil
            rw [hstart hnil] at hfalse
            exact Bool.noConfusion hfalse

/-! ## Respelling a text -/

theorem endsRun_respelled {rest : List Char} {f : Piece → Piece} (hrest : EndsRun rest)
    (hf : ∀ p ∈ cut false rest, Respelling p (f p)) :
    EndsRun (((cut false rest).map f).flatMap Piece.text) := by
  rcases gap_or_beat rest with hgap | ⟨g, r, rest', rfl, hg, hr, hrest'⟩
  · rw [cut_gap false hgap] at hf ⊢
    rw [map_ofGap hf, Piece.flatMap_text_ofGap]
    exact hrest
  · rw [cut_beat false hg hr hrest'] at hf ⊢
    obtain ⟨g', r', hg', -, htext, -, hne⟩ :=
      beat_respelled hg hr fun p hp => hf p (List.mem_append_left _ hp)
    rw [List.map_append, List.flatMap_append, htext, List.append_assoc]
    exact hg'.endsRun.append (hne rfl (hrest.gap_ne_nil hr)) _

/-- A respelled text is cut where the text was. -/
theorem cut_respelled {f : Piece → Piece} : ∀ (text : List Char) (atStart : Bool),
    (∀ p ∈ cut atStart text, Respelling p (f p)) →
      cut atStart (((cut atStart text).map f).flatMap Piece.text) = (cut atStart text).map f := by
  intro text
  induction text using beat_induction with
  | gap g hg =>
      intro atStart hf
      rw [cut_gap atStart hg] at hf ⊢
      rw [map_ofGap hf, Piece.flatMap_text_ofGap, cut_gap atStart hg]
  | beat g r rest hg hr hrest ih =>
      intro atStart hf
      rw [cut_beat atStart hg hr hrest] at hf ⊢
      have hf' : ∀ p ∈ cut false rest, Respelling p (f p) :=
        fun p hp => hf p (List.mem_append_right _ hp)
      obtain ⟨g', r', hg', hr', htext, hbeat, -⟩ :=
        beat_respelled hg hr fun p hp => hf p (List.mem_append_left _ hp)
      rw [List.map_append, List.flatMap_append, htext,
        cut_beat atStart hg' hr' (endsRun_respelled hrest hf'), hbeat, ih false hf']

/-! ## Replacement by a mapping -/

/-- The values of the mapping are valid names. -/
def Mapping.Valid (m : Mapping) : Prop :=
  ∀ k v : String, m[k]? = some v → Name.isValid v.toList = true

/-- The piece that a piece becomes when its kind of token is replaced by names. -/
def Piece.respelled (kind : TokenKind) (m : Mapping) : Piece → Piece
  | .gap t => .gap t
  | .token k t =>
      if k = kind then
        match m[String.ofList t]? with
        | some new => .token .name new.toList
        | none => .token k t
      else .token k t

theorem Piece.text_respelled (kind : TokenKind) (m : Mapping) (p : Piece) :
    (p.respelled kind m).text = p.replaced kind m := by
  cases p with
  | gap t => rfl
  | token k t =>
      simp only [Piece.respelled, Piece.replaced]
      split_ifs
      · cases m[String.ofList t]? <;> rfl
      · rfl

theorem Mapping.Valid.respelling {m : Mapping} (hm : m.Valid) (kind : TokenKind) (p : Piece) :
    Respelling p (p.respelled kind m) := by
  cases p with
  | gap t => exact .same _
  | token k t =>
      simp only [Piece.respelled]
      split_ifs
      · cases hv : m[String.ofList t]? with
        | none => exact .same _
        | some new => exact .name k t _ (hm _ _ hv)
      · exact .same _

/-- The pieces of a text after replacement are its pieces, replaced. -/
theorem pieces_replaceTokens {m : Mapping} (hm : m.Valid) (kind : TokenKind) (text : String) :
    pieces (replaceTokens kind m text).toList =
      (pieces text.toList).map (Piece.respelled kind m) := by
  have hflat : (pieces text.toList).flatMap (Piece.replaced kind m) =
      ((pieces text.toList).map (Piece.respelled kind m)).flatMap Piece.text := by
    rw [List.flatMap_map]
    simp only [Piece.text_respelled]
  rw [replaceTokens, String.toList_ofList, hflat]
  exact cut_respelled text.toList true fun p _ => hm.respelling kind p

/-! ## Two passes and one

The first pass leaves every number token and every gap as it is, and it makes
no new number token; so the second pass finds what it would have found in the
first text. -/

/-- What a piece becomes when both mappings are used at once: gaps are copied,
and a token that its mapping does not know stays. -/
def Piece.rewritten (names numbers : Mapping) : Piece → List Char
  | .gap t => t
  | .token .name t => (names[String.ofList t]?.getD (String.ofList t)).toList
  | .token .number t => (numbers[String.ofList t]?.getD (String.ofList t)).toList

/-- One pass over the tokens of a text that replaces names and numbers. -/
def rewriteOnce (names numbers : Mapping) (text : String) : String :=
  String.ofList ((pieces text.toList).flatMap (Piece.rewritten names numbers))

theorem Piece.replaced_respelled (names numbers : Mapping) (p : Piece) :
    (p.respelled .name names).replaced .number numbers = p.rewritten names numbers := by
  cases p with
  | gap t => rfl
  | token k t =>
      cases k with
      | name =>
          simp only [Piece.respelled, Piece.rewritten, if_pos]
          cases names[String.ofList t]? with
          | none => simp [Piece.replaced]
          | some new => simp [Piece.replaced]
      | number =>
          simp only [Piece.respelled, Piece.rewritten, Piece.replaced, if_pos,
            reduceCtorEq, if_false]
          cases numbers[String.ofList t]? with
          | none => simp
          | some new => rfl

theorem replaceTokens_replaceTokens {names : Mapping} (hnames : names.Valid) (numbers : Mapping)
    (text : String) :
    replaceTokens .number numbers (replaceTokens .name names text) =
      rewriteOnce names numbers text := by
  rw [replaceTokens, pieces_replaceTokens hnames, List.flatMap_map, rewriteOnce]
  simp only [Piece.replaced_respelled]

end Unmask
