/-
# `Unmask.Proofs.Correspondence` — the same sites in a text with other numbered names

A scrambler numbers its variables, `_0x1a2b` and the like, and another run of
it numbers them otherwise.  The two texts differ in their numbered names and
nowhere else; but the names may differ in length, so no offset is the same in
both.

`Corresponds` relates places instead of offsets: what is behind the two places
looks the same to a recogniser, and what is ahead is the same character by
character, but for numbered names that are whole runs, where the renamed one
stands in the second text.  Places inside a numbered name correspond to
nothing, and no recogniser answers there (`Respects.inert`).

One lemma for each thing that a recogniser does carries it along two texts at
once: `span` for a stretch of one class of characters, `literal` for a fixed
text, `leadingName` for a name.  From them every recogniser of `Unmask.Site`
gives corresponding answers at corresponding places, and the walk, by
induction over the places, corresponding lists of finds (`scan_corresponds`).
-/
import Unmask.Proofs.SiteNames

namespace Unmask

/-! ## Numbered names -/

theorem isNumbered_iff {t : List Char} :
    Name.isNumbered t = true ↔
      ∃ ds, t = '_' :: '0' :: 'x' :: ds ∧ 4 ≤ ds.length ∧ ∀ d ∈ ds, Name.isHexDigit d = true := by
  unfold Name.isNumbered
  split
  · next ds =>
      simp only [Bool.and_eq_true, decide_eq_true_eq, List.all_eq_true, List.cons.injEq,
        true_and, exists_eq_left']
  · next hno =>
      refine ⟨fun h => Bool.noConfusion h, ?_⟩
      rintro ⟨ds, rfl, -⟩
      exact absurd rfl (hno ds)

theorem isAlphanum_of_isHexDigit {c : Char} (h : Name.isHexDigit c = true) :
    c.isAlphanum = true := by
  unfold Name.isHexDigit Char.isDigit at h
  unfold Char.isAlphanum Char.isAlpha Char.isUpper Char.isLower Char.isDigit
  simp only [Char.le_def] at h
  grind

theorem isWordChar_of_isAlphanum {c : Char} (h : c.isAlphanum = true) : isWordChar c = true := by
  have hpart : Name.isPart c = true := by simp [Name.isPart, h]
  have hnat := toNat_of_isPart hpart
  rw [isWordChar, if_pos (by omega)]
  simp [h]

theorem isNumbered_chars {t : List Char} (h : Name.isNumbered t = true) {c : Char} (hc : c ∈ t) :
    Name.isPart c = true ∧ isWordChar c = true := by
  obtain ⟨ds, rfl, -, hds⟩ := isNumbered_iff.mp h
  simp only [List.mem_cons] at hc
  rcases hc with rfl | rfl | rfl | hc
  · decide
  · decide
  · decide
  · have halnum := isAlphanum_of_isHexDigit (hds c hc)
    exact ⟨by simp [Name.isPart, halnum], isWordChar_of_isAlphanum halnum⟩

theorem isNumbered_head {t : List Char} (h : Name.isNumbered t = true) : ∃ us, t = '_' :: us := by
  obtain ⟨ds, rfl, -⟩ := isNumbered_iff.mp h
  exact ⟨_, rfl⟩

theorem isValid_of_isNumbered {t : List Char} (h : Name.isNumbered t = true) :
    Name.isValid t = true := by
  obtain ⟨us, rfl⟩ := isNumbered_head h
  exact isValid_cons.mpr ⟨by decide, fun d hd =>
    (isNumbered_chars h (List.mem_cons_of_mem _ hd)).1⟩

theorem looksScrambled_of_isNumbered {t : List Char} (h : Name.isNumbered t = true) :
    Name.looksScrambled t = true := by
  obtain ⟨ds, rfl, hlength, hds⟩ := isNumbered_iff.mp h
  obtain ⟨d, ds, rfl⟩ := List.exists_cons_of_length_pos (Nat.lt_of_lt_of_le (by omega) hlength)
  simp [Name.looksScrambled, Name.isHexTagged, hds d List.mem_cons_self]

/-- Applies a renaming of numbered names to a spelling. -/
def renumberChars (q : List Char → List Char) (t : List Char) : List Char :=
  if Name.isNumbered t then q t else t

/-! ## Corresponding places -/

/-- A recogniser cannot tell the two characters behind it apart. -/
structure SameEdge (b b' : Option Char) : Prop where
  run : Site.startsRun b = Site.startsRun b'
  word : Site.startsWord b = Site.startsWord b'

theorem SameEdge.refl (b : Option Char) : SameEdge b b := ⟨rfl, rfl⟩

theorem startsRun_getLast? {w : List Char} {k : Bool} (hne : w ≠ [])
    (hw : ∀ c ∈ w, Name.isPart c = k) : Site.startsRun w.getLast? = !k := by
  rw [List.getLast?_eq_some_getLast hne, Site.startsRun, hw _ (List.getLast_mem hne)]

theorem startsWord_getLast? {w : List Char} (hne : w ≠ [])
    (hw : ∀ c ∈ w, isWordChar c = true) : Site.startsWord w.getLast? = false := by
  rw [List.getLast?_eq_some_getLast hne, Site.startsWord, hw _ (List.getLast_mem hne)]
  rfl

theorem SameEdge.ofNumbered {t t' : List Char} (h : Name.isNumbered t = true)
    (h' : Name.isNumbered t' = true) : SameEdge t.getLast? t'.getLast? := by
  have hne := (isRun_of_isValid (isValid_of_isNumbered h)).ne_nil
  have hne' := (isRun_of_isValid (isValid_of_isNumbered h')).ne_nil
  constructor
  · rw [startsRun_getLast? hne fun _ hc => (isNumbered_chars h hc).1,
      startsRun_getLast? hne' fun _ hc => (isNumbered_chars h' hc).1]
  · rw [startsWord_getLast? hne fun _ hc => (isNumbered_chars h hc).2,
      startsWord_getLast? hne' fun _ hc => (isNumbered_chars h' hc).2]

/-- `Corresponds q b b' t t'`: with `b` and `b'` behind, the texts `t` and `t'`
are equal up to numbered names, which `q` renames. -/
inductive Corresponds (q : List Char → List Char) :
    Option Char → Option Char → List Char → List Char → Prop
  | nil {b b' : Option Char} : SameEdge b b' → Corresponds q b b' [] []
  | char {b b' : Option Char} {c : Char} {cs cs' : List Char} : SameEdge b b' →
      (Site.startsRun b = true → Name.isNumbered (c :: cs.takeWhile Name.isPart) = false) →
      Corresponds q (some c) (some c) cs cs' → Corresponds q b b' (c :: cs) (c :: cs')
  | name {b b' : Option Char} {t cs cs' : List Char} : SameEdge b b' →
      Site.startsRun b = true → Name.isNumbered t = true → Name.isNumbered (q t) = true →
      EndsRun cs → Corresponds q t.getLast? (q t).getLast? cs cs' →
      Corresponds q b b' (t ++ cs) (q t ++ cs')

variable {q : List Char → List Char}

theorem Corresponds.edge {b b' : Option Char} {t t' : List Char}
    (h : Corresponds q b b' t t') : SameEdge b b' := by
  cases h with
  | nil hb => exact hb
  | char hb => exact hb
  | name hb => exact hb

theorem Corresponds.head? {b b' : Option Char} {t t' : List Char}
    (h : Corresponds q b b' t t') : t.head? = t'.head? := by
  cases h with
  | nil => rfl
  | char => rfl
  | name _ _ ht ht' =>
      obtain ⟨us, hus⟩ := isNumbered_head ht
      obtain ⟨us', hus'⟩ := isNumbered_head ht'
      rw [hus', hus]
      rfl

theorem Corresponds.endsRun {b b' : Option Char} {t t' : List Char}
    (h : Corresponds q b b' t t') (ht : EndsRun t) : EndsRun t' := by
  rw [EndsRun, ← h.head?]
  exact ht

theorem Corresponds.endsWord {b b' : Option Char} {t t' : List Char}
    (h : Corresponds q b b' t t') : Site.endsWord t = Site.endsWord t' := by
  have hhead := h.head?
  cases t with
  | nil =>
      cases t' with
      | nil => rfl
      | cons c cs => simp at hhead
  | cons c cs =>
      cases t' with
      | nil => simp at hhead
      | cons c' cs' =>
          obtain rfl : c = c' := by simpa using hhead
          rfl

theorem Corresponds.all_isBlank {b b' : Option Char} {t t' : List Char}
    (h : Corresponds q b b' t t') : t'.all isBlank = t.all isBlank := by
  induction h with
  | nil => rfl
  | char _ _ _ ih => rw [List.all_cons, List.all_cons, ih]
  | name _ _ ht ht' _ _ ih =>
      obtain ⟨us, hus⟩ := isNumbered_head ht
      obtain ⟨us', hus'⟩ := isNumbered_head ht'
      have hunderscore : isBlank '_' = false := by decide
      rw [hus', hus, List.cons_append, List.cons_append, List.all_cons, List.all_cons,
        hunderscore, Bool.false_and, Bool.false_and]

/-! ## Moving along both texts -/

/-- Past the characters of one class.  A numbered name is no obstacle where the
class leaves out its first character, and there is none inside a run. -/
theorem Corresponds.span {P : Char → Bool} {b b' : Option Char} {t t' : List Char}
    (h : Corresponds q b b' t t') :
    (P '_' = false ∨ (Site.startsRun b = false ∧ ∀ c, P c = true → Name.isPart c = true)) →
    ∃ w rest rest', t = w ++ rest ∧ t' = w ++ rest' ∧ (∀ c ∈ w, P c = true) ∧
      (∀ c ∈ rest.head?, P c = false) ∧ Corresponds q (behind b w) (behind b' w) rest rest' := by
  induction h with
  | nil hb =>
      intro _
      exact ⟨[], [], [], rfl, rfl, by simp, by simp, .nil hb⟩
  | @char b b' c cs cs' hb hnum hrest ih =>
      intro hP
      by_cases hc : P c = true
      · have hP' : P '_' = false ∨
            (Site.startsRun (some c) = false ∧ ∀ c, P c = true → Name.isPart c = true) := by
          rcases hP with hP | ⟨-, hP⟩
          · exact Or.inl hP
          · exact Or.inr ⟨by simp [Site.startsRun, hP c hc], hP⟩
        obtain ⟨w, rest, rest', rfl, rfl, hw, hstop, hcorr⟩ := ih hP'
        refine ⟨c :: w, rest, rest', rfl, rfl, fun d hd => ?_, hstop, hcorr⟩
        rcases List.mem_cons.mp hd with rfl | hd
        · exact hc
        · exact hw d hd
      · refine ⟨[], c :: cs, c :: cs', rfl, rfl, by simp, ?_, .char hb hnum hrest⟩
        intro d hd
        obtain rfl : c = d := by simpa using hd
        simpa using hc
  | @name b b' t cs cs' hb hrun ht ht' hcs hrest ih =>
      intro hP
      have hP' : P '_' = false := by
        rcases hP with hP | ⟨hP, -⟩
        · exact hP
        · rw [hrun] at hP
          exact Bool.noConfusion hP
      refine ⟨[], t ++ cs, q t ++ cs', rfl, rfl, by simp, ?_,
        .name hb hrun ht ht' hcs hrest⟩
      intro d hd
      obtain ⟨us, rfl⟩ := isNumbered_head ht
      obtain rfl : '_' = d := by simpa using hd
      exact hP'

/-- Past a fixed text that has no underscore in it, or past none of it. -/
theorem Corresponds.literal : ∀ (w : List Char), '_' ∉ w → ∀ {b b' : Option Char}
    {t t' : List Char}, Corresponds q b b' t t' →
    (w.isPrefixOf? t = none ∧ w.isPrefixOf? t' = none) ∨
      ∃ rest rest', t = w ++ rest ∧ t' = w ++ rest' ∧
        Corresponds q (behind b w) (behind b' w) rest rest' := by
  intro w
  induction w with
  | nil =>
      intro _ b b' t t' h
      exact Or.inr ⟨t, t', rfl, rfl, h⟩
  | cons c w ih =>
      intro hw b b' t t' h
      simp only [List.mem_cons, not_or] at hw
      cases h with
      | nil => exact Or.inl ⟨rfl, rfl⟩
      | @char _ _ d cs cs' hb hnum hrest =>
          by_cases hcd : c = d
          · subst hcd
            rcases ih hw.2 hrest with ⟨h₁, h₂⟩ | ⟨rest, rest', rfl, rfl, hcorr⟩
            · exact Or.inl ⟨by simp [List.isPrefixOf?, h₁], by simp [List.isPrefixOf?, h₂]⟩
            · exact Or.inr ⟨rest, rest', rfl, rfl, hcorr⟩
          · exact Or.inl ⟨by simp [List.isPrefixOf?, hcd], by simp [List.isPrefixOf?, hcd]⟩
      | name hb hrun ht ht' hcs hrest =>
          obtain ⟨us, hus⟩ := isNumbered_head ht
          obtain ⟨us', hus'⟩ := isNumbered_head ht'
          have hne : c ≠ '_' := fun heq => hw.1 heq.symm
          rw [hus', hus]
          exact Or.inl ⟨by simp [List.isPrefixOf?, hne], by simp [List.isPrefixOf?, hne]⟩

/-- Past a name.  Where a run starts the second name is the first, renumbered. -/
theorem Corresponds.leadingName {b b' : Option Char} {t t' : List Char}
    (h : Corresponds q b b' t t') :
    (Site.leadingName? t = none ∧ Site.leadingName? t' = none) ∨
      ∃ name name' rest rest', t = name ++ rest ∧ t' = name' ++ rest' ∧
        Name.isValid name = true ∧ Name.isValid name' = true ∧ EndsRun rest ∧
        (Site.startsRun b = true → name' = renumberChars q name) ∧
        Corresponds q (behind b name) (behind b' name') rest rest' := by
  cases h with
  | nil => exact Or.inl ⟨rfl, rfl⟩
  | @char _ _ c cs cs' hb hnum hrest =>
      by_cases hc : Name.isStart c = true
      · -- Inside the run nothing starts, so the rest of the name is copied.
        have hinside : Site.startsRun (some c) = false := by
          simp [Site.startsRun, isPart_of_isStart hc]
        obtain ⟨w, rest, rest', rfl, rfl, hw, hstop, hcorr⟩ :=
          hrest.span (P := Name.isPart) (Or.inr ⟨hinside, fun _ h => h⟩)
        have hvalid : Name.isValid (c :: w) = true := isValid_cons.mpr ⟨hc, hw⟩
        refine Or.inr ⟨c :: w, c :: w, rest, rest', rfl, rfl, hvalid, hvalid, hstop, ?_, hcorr⟩
        intro hrun
        have hno := hnum hrun
        rw [(takeWhile_dropWhile_append hw hstop).1] at hno
        simp [renumberChars, hno]
      · exact Or.inl ⟨by simp [Site.leadingName?, hc], by simp [Site.leadingName?, hc]⟩
  | @name _ _ t cs cs' hb hrun ht ht' hcs hrest =>
      have hvalid := isValid_of_isNumbered ht
      have hvalid' := isValid_of_isNumbered ht'
      refine Or.inr ⟨t, q t, cs, cs', rfl, rfl, hvalid, hvalid', hcs, ?_, ?_⟩
      · intro _
        simp [renumberChars, ht]
      · rwa [behind_of_ne_nil b (isRun_of_isValid hvalid).ne_nil,
          behind_of_ne_nil b' (isRun_of_isValid hvalid').ne_nil]

/-! ## Corresponding answers -/

/-- Two recognisers find nothing, or corresponding things behind which
corresponding places lie. -/
inductive Answers {α : Type} (q : List Char → List Char) (F : α → α) (b b' : Option Char)
    (t t' : List Char) : Option (α × Nat) → Option (α × Nat) → Prop
  | none : Answers q F b b' t t' none none
  | some {a : α} {w w' rest rest' : List Char} : t = w ++ rest → t' = w' ++ rest' → w ≠ [] →
      w' ≠ [] → Corresponds q (behind b w) (behind b' w') rest rest' →
      Answers q F b b' t t' (some (a, w.length)) (some (F a, w'.length))

/-- A recogniser that gives corresponding answers at corresponding places, and
none inside a numbered name unless it gave one at its start. -/
structure Respects {α : Type} (q : List Char → List Char) (F : α → α)
    (at? : Option Char → List Char → Option (α × Nat)) : Prop where
  answers : ∀ {b b' : Option Char} {t t' : List Char}, Corresponds q b b' t t' →
    Answers q F b b' t t' (at? b t) (at? b' t')
  inert : ∀ {b : Option Char} {u v rest : List Char}, Name.isNumbered (u ++ v) = true →
    EndsRun rest → u ≠ [] → v ≠ [] → at? b (u ++ v ++ rest) = none →
    at? u.getLast? (v ++ rest) = none

theorem Answers.findSome? {α : Type} {F : α → α} {b b' : Option Char} {t t' : List Char}
    {f f' : String → Option (α × Nat)} {ks : List String}
    (h : ∀ k ∈ ks, Answers q F b b' t t' (f k) (f' k)) :
    Answers q F b b' t t' (ks.findSome? f) (ks.findSome? f') := by
  induction ks with
  | nil => exact .none
  | cons k ks ih =>
      have hk := h k List.mem_cons_self
      have hks := ih fun k' hk' => h k' (List.mem_cons_of_mem _ hk')
      rw [List.findSome?_cons, List.findSome?_cons]
      generalize f k = r at hk
      generalize f' k = r' at hk
      cases hk with
      | none => exact hks
      | some ht ht' hw hw' hrest => exact .some ht ht' hw hw' hrest

theorem isPrefixOf?_append (w rest : List Char) : w.isPrefixOf? (w ++ rest) = some rest :=
  List.isPrefixOf?_eq_some_iff_append_eq.mpr rfl

theorem Corresponds.keywordThenName {keyword : List Char} (hkeyword : '_' ∉ keyword)
    {b b' : Option Char} {t t' : List Char} (h : Corresponds q b b' t t') :
    Answers q (renumberChars q) b b' t t' (Site.keywordThenName? keyword t)
      (Site.keywordThenName? keyword t') := by
  rcases Corresponds.literal keyword hkeyword h with ⟨h₁, h₂⟩ | ⟨s, s', rfl, rfl, hs⟩
  · simp only [Site.keywordThenName?, h₁, h₂]
    exact .none
  obtain ⟨w, r, r', rfl, rfl, hw, hstop, hr⟩ := hs.span (P := isBlank) (Or.inl (by decide))
  have hstop' : ∀ c ∈ r'.head?, isBlank c = false := hr.head? ▸ hstop
  obtain ⟨htake, hdrop⟩ := takeWhile_dropWhile_append hw hstop
  obtain ⟨htake', hdrop'⟩ := takeWhile_dropWhile_append hw hstop'
  simp only [Site.keywordThenName?, isPrefixOf?_append, htake, htake', hdrop, hdrop']
  by_cases hne : w = []
  · subst hne
    exact .none
  have hsome : w.isEmpty = false := by simpa using hne
  simp only [hsome, Bool.false_eq_true, if_false]
  rcases hr.leadingName with ⟨h₁, h₂⟩ |
    ⟨name, name', rest, rest', rfl, rfl, hvalid, hvalid', hends, hname, hrest⟩
  · simp only [h₁, h₂]
    exact .none
  have hrun : Site.startsRun (behind (behind b keyword) w) = true := by
    rw [behind_of_ne_nil _ hne]
    exact startsRun_getLast? hne fun c hc => isPart_of_isBlank (hw c hc)
  obtain rfl := hname hrun
  rw [Site.leadingName?_append hvalid hends, Site.leadingName?_append hvalid' (hrest.endsRun hends)]
  have hlength : ∀ n : List Char,
      keyword.length + w.length + n.length = (keyword ++ w ++ n).length := by simp [Nat.add_assoc]
  have hsplit : ∀ n s : List Char, keyword ++ (w ++ (n ++ s)) = keyword ++ w ++ n ++ s := by simp
  simp only [hlength]
  refine .some (hsplit name rest) (hsplit _ rest') (by simp [hne]) (by simp [hne]) ?_
  simpa only [behind_append] using hrest

theorem Site.introduced_respects {keywords : List String}
    (hkeywords : ∀ k ∈ keywords, '_' ∉ k.toList) :
    Respects q (renumberChars q) (Site.introduced? keywords) where
  answers {b b' t t'} h := by
    have hfind : Answers q (renumberChars q) b b' t t'
        (keywords.findSome? fun k => Site.keywordThenName? k.toList t)
        (keywords.findSome? fun k => Site.keywordThenName? k.toList t') :=
      Answers.findSome? fun k hk => h.keywordThenName (hkeywords k hk)
    rw [Site.introduced?, Site.introduced?, ← h.edge.word]
    generalize keywords.findSome? (fun k => Site.keywordThenName? k.toList t) = r at hfind ⊢
    generalize keywords.findSome? (fun k => Site.keywordThenName? k.toList t') = r' at hfind ⊢
    cases hfind with
    | none => exact .none
    | some ht ht' hw hw' hrest =>
        cases Site.startsWord b with
        | true => exact .some ht ht' hw hw' hrest
        | false => exact .none
  inert {b u v rest} hnum _ hu _ _ := by
    have hword : Site.startsWord u.getLast? = false :=
      startsWord_getLast? hu fun c hc => (isNumbered_chars hnum (List.mem_append_left v hc)).2
    rw [Site.introduced?, hword]
    cases keywords.findSome? fun k => Site.keywordThenName? k.toList (v ++ rest) with
    | none => rfl
    | some found => rfl

theorem Site.dotted?_of_ne {before : Option Char} {c : Char} {cs : List Char} (h : c ≠ '.') :
    Site.dotted? before (c :: cs) = none := by
  unfold Site.dotted?
  split
  · next heq => exact absurd (List.cons.inj heq).1 h
  · rfl

theorem Site.dotted_respects : Respects q (renumberChars q) Site.dotted? where
  answers {b b' t t'} h := by
    cases h with
    | nil => exact .none
    | @char _ _ c cs cs' hb hnum hrest =>
        by_cases hc : c = '.'
        · subst hc
          rcases hrest.leadingName with ⟨h₁, h₂⟩ |
            ⟨name, name', rest, rest', rfl, rfl, hvalid, hvalid', hends, hname, hrest⟩
          · simp only [Site.dotted?, h₁, h₂]
            exact .none
          · obtain rfl := hname (by decide)
            have hlength : ∀ n : List Char, 1 + n.length = ('.' :: n).length := by
              simp [Nat.add_comm]
            simp only [Site.dotted?, Site.leadingName?_append hvalid hends,
              Site.leadingName?_append hvalid' (hrest.endsRun hends), Option.map_some, hlength]
            exact .some rfl rfl (List.cons_ne_nil _ _) (List.cons_ne_nil _ _) hrest
        · rw [Site.dotted?_of_ne hc, Site.dotted?_of_ne hc]
          exact .none
    | name _ _ ht ht' =>
        obtain ⟨us, hus⟩ := isNumbered_head ht
        obtain ⟨us', hus'⟩ := isNumbered_head ht'
        rw [hus', hus, List.cons_append, List.cons_append, Site.dotted?_of_ne (by decide),
          Site.dotted?_of_ne (by decide)]
        exact .none
  inert {b u v rest} hnum _ _ hv _ := by
    obtain ⟨c, cs, rfl⟩ := List.exists_cons_of_ne_nil hv
    have hpart := (isNumbered_chars hnum (c := c) (by simp)).1
    refine Site.dotted?_of_ne ?_
    rintro rfl
    exact Bool.noConfusion hpart

/-! ## Names in front of `= function`

What follows the name decides; the name itself, even the tail of one, does not
(`assigned?_append`). -/

/-- The length of an equals sign and `function`, with blanks before each, at
the start of a text. -/
def Site.functionAhead? (text : List Char) : Option Nat :=
  match ['='].isPrefixOf? (text.dropWhile isBlank) with
  | none => none
  | some after =>
      match "function".toList.isPrefixOf? (after.dropWhile isBlank) with
      | some rest =>
          if Site.endsWord rest then
            some ((text.takeWhile isBlank).length + 1 + (after.takeWhile isBlank).length +
              "function".length)
          else none
      | none => none

theorem Site.assigned?_append {before : Option Char} {name rest : List Char}
    (hvalid : Name.isValid name = true) (hrest : EndsRun rest) :
    Site.assigned? before (name ++ rest) = (Site.functionAhead? rest).map fun n =>
      (if Site.startsRun before then some name else none, name.length + n) := by
  simp only [Site.assigned?, Site.leadingName?_append hvalid hrest, List.drop_left]
  rw [Site.functionAhead?]
  generalize rest.dropWhile isBlank = ahead
  cases ahead with
  | nil => rfl
  | cons c after =>
      split
      · next after' heq =>
          obtain ⟨rfl, rfl⟩ := List.cons.inj heq
          rw [show ['='].isPrefixOf? ('=' :: after) = some after from rfl]
          dsimp only
          cases "function".toList.isPrefixOf? (after.dropWhile isBlank) with
          | none => rfl
          | some behind =>
              dsimp only
              cases Site.endsWord behind with
              | false => rfl
              | true => simp [Nat.add_assoc]
      · next hno =>
          have hc : c ≠ '=' := by
            rintro rfl
            exact hno after rfl
          rw [show ['='].isPrefixOf? (c :: after) = none by simp [List.isPrefixOf?, hc.symm]]
          rfl

theorem Corresponds.functionAhead {b b' : Option Char} {t t' : List Char}
    (h : Corresponds q b b' t t') :
    (Site.functionAhead? t = none ∧ Site.functionAhead? t' = none) ∨
      ∃ w rest rest', t = w ++ rest ∧ t' = w ++ rest' ∧
        Site.functionAhead? t = some w.length ∧ Site.functionAhead? t' = some w.length ∧
        Corresponds q (behind b w) (behind b' w) rest rest' := by
  obtain ⟨w, r, r', rfl, rfl, hw, hstop, hr⟩ := h.span (P := isBlank) (Or.inl (by decide))
  obtain ⟨htake, hdrop⟩ := takeWhile_dropWhile_append hw hstop
  obtain ⟨htake', hdrop'⟩ := takeWhile_dropWhile_append hw (hr.head? ▸ hstop)
  simp only [Site.functionAhead?, htake, htake', hdrop, hdrop']
  rcases Corresponds.literal ['='] (by decide) hr with ⟨h₁, h₂⟩ | ⟨s, s', rfl, rfl, hs⟩
  · exact Or.inl ⟨by rw [h₁], by rw [h₂]⟩
  obtain ⟨v, r, r', rfl, rfl, hv, hstop, hr⟩ := hs.span (P := isBlank) (Or.inl (by decide))
  obtain ⟨htake, hdrop⟩ := takeWhile_dropWhile_append hv hstop
  obtain ⟨htake', hdrop'⟩ := takeWhile_dropWhile_append hv (hr.head? ▸ hstop)
  simp only [isPrefixOf?_append, htake, htake', hdrop, hdrop']
  rcases Corresponds.literal "function".toList (by decide) hr with
    ⟨h₁, h₂⟩ | ⟨rest, rest', rfl, rfl, hrest⟩
  · exact Or.inl ⟨by rw [h₁], by rw [h₂]⟩
  rw [isPrefixOf?_append, isPrefixOf?_append]
  dsimp only
  rw [← hrest.endsWord]
  cases Site.endsWord rest with
  | false => exact Or.inl ⟨rfl, rfl⟩
  | true =>
      have hlength : w.length + 1 + v.length + "function".length =
          (w ++ ['='] ++ v ++ "function".toList).length := by
        simp only [List.length_append, List.length_singleton, String.length_toList]
      rw [hlength]
      refine Or.inr ⟨_, rest, rest', ?_, ?_, rfl, rfl, ?_⟩
      · simp only [List.append_assoc]
      · simp only [List.append_assoc]
      · simpa only [behind_append] using hrest

theorem Site.assigned_respects :
    Respects q (Option.map (renumberChars q)) Site.assigned? where
  answers {b b' t t'} h := by
    rcases h.leadingName with ⟨h₁, h₂⟩ |
      ⟨name, name', rest, rest', rfl, rfl, hvalid, hvalid', hends, hname, hrest⟩
    · simp only [Site.assigned?, h₁, h₂]
      exact .none
    rw [Site.assigned?_append hvalid hends, Site.assigned?_append hvalid' (hrest.endsRun hends),
      ← h.edge.run]
    rcases hrest.functionAhead with ⟨h₁, h₂⟩ | ⟨w, s, s', rfl, rfl, h₁, h₂, hs⟩
    · rw [h₁, h₂]
      exact .none
    have hfound : (if Site.startsRun b then some name' else none) =
        (if Site.startsRun b then some name else none).map (renumberChars q) := by
      cases hrun : Site.startsRun b with
      | true => rw [hname hrun]; rfl
      | false => rfl
    rw [h₁, h₂, Option.map_some, Option.map_some, hfound, ← List.length_append,
      ← List.length_append]
    refine .some (List.append_assoc name w s).symm (List.append_assoc name' w s').symm ?_ ?_ ?_
    · simp [(isRun_of_isValid hvalid).ne_nil]
    · simp [(isRun_of_isValid hvalid').ne_nil]
    · simpa only [behind_append] using hs
  inert {b u v rest} hnum hrest hu hv hnone := by
    have hahead : Site.functionAhead? rest = none := by
      rw [Site.assigned?_append (isValid_of_isNumbered hnum) hrest] at hnone
      exact Option.map_eq_none_iff.mp hnone
    have hparts : ∀ c ∈ v, Name.isPart c = true := fun c hc =>
      (isNumbered_chars hnum (List.mem_append_right _ hc)).1
    obtain ⟨c, cs, rfl⟩ := List.exists_cons_of_ne_nil hv
    by_cases hc : Name.isStart c = true
    · have hvalid : Name.isValid (c :: cs) = true :=
        isValid_cons.mpr ⟨hc, fun d hd => hparts d (List.mem_cons_of_mem _ hd)⟩
      rw [Site.assigned?_append hvalid hrest, hahead]
      rfl
    · simp [Site.assigned?, Site.leadingName?, hc]

/-! ## Walks -/

section Walk

variable {α : Type} {at? : Option Char → List Char → Option (α × Nat)}

/-- A numbered name at whose start nothing is found is passed without a find. -/
theorem Respects.scan_numbered {F : α → α} (hat : Respects q F at?) {b : Option Char}
    {t rest : List Char} (ht : Name.isNumbered t = true) (hrest : EndsRun rest)
    (hnone : at? b (t ++ rest) = none) :
    scan at? 0 b (t ++ rest) = scan at? 0 t.getLast? rest := by
  rw [scan_silent, behind_of_ne_nil b (isRun_of_isValid (isValid_of_isNumbered ht)).ne_nil]
  intro u v huv hv
  subst huv
  by_cases hu : u = []
  · subst hu
    exact hnone
  · rw [behind_of_ne_nil b hu]
    exact hat.inert ht hrest hu hv hnone

/-- The finds in the second text are those in the first, as `F` takes them.
The induction is on the length of the first text, since a find takes several
characters at once. -/
theorem Respects.scan_corresponds {F : α → α} (hat : Respects q F at?) :
    ∀ (n : Nat) {b b' : Option Char} {t t' : List Char}, t.length ≤ n →
      Corresponds q b b' t t' → scan at? 0 b' t' = (scan at? 0 b t).map F := by
  intro n
  induction n with
  | zero =>
      intro b b' t t' hn h
      obtain rfl : t = [] := List.eq_nil_of_length_eq_zero (Nat.le_zero.mp hn)
      have hhead := h.head?
      obtain rfl : t' = [] := List.head?_eq_none_iff.mp hhead.symm
      rfl
  | succ n ih =>
      intro b b' t t' hn h
      have hanswers := hat.answers h
      generalize hr : at? b t = r at hanswers
      generalize hr' : at? b' t' = r' at hanswers
      cases hanswers with
      | @some a w w' rest rest' ht ht' hw hw' hrest =>
          subst ht ht'
          have hlength : rest.length ≤ n := by
            have := List.length_pos_iff.mpr hw
            rw [List.length_append] at hn
            omega
          rw [scan_found hw hr, scan_found hw' hr', List.map_cons, ih hlength hrest]
      | none =>
          cases h with
          | nil => rfl
          | @char _ _ c cs cs' hb hnum hrest =>
              rw [scan, scan, hr, hr']
              exact ih (Nat.le_of_succ_le_succ hn) hrest
          | @name _ _ t cs cs' hb hrun ht ht' hcs hrest =>
              have hlength : cs.length ≤ n := by
                have := List.length_pos_iff.mpr (isRun_of_isValid (isValid_of_isNumbered ht)).ne_nil
                rw [List.length_append] at hn
                omega
              rw [hat.scan_numbered ht hcs hr, hat.scan_numbered ht' (hrest.endsRun hcs) hr',
                ih hlength hrest]

theorem Respects.findAll_corresponds {F : α → α} (hat : Respects q F at?) {t t' : List Char}
    (h : Corresponds q none none t t') : findAll at? t' = (findAll at? t).map F :=
  hat.scan_corresponds t.length (Nat.le_refl _) h

end Walk

/-! ## Whole texts -/

def Piece.renumbered (q : List Char → List Char) : Piece → Piece
  | .token .name t => .token .name (renumberChars q t)
  | .token .number t => .token .number t
  | .gap t => .gap t

theorem Corresponds.copy {w rest rest' : List Char} {b b' : Option Char} (hb : SameEdge b b')
    (hw : ∀ u c v, w = u ++ c :: v → Site.startsRun (behind b u) = true →
      Name.isNumbered (c :: (v ++ rest).takeWhile Name.isPart) = false)
    (hrest : Corresponds q (behind b w) (behind b' w) rest rest') :
    Corresponds q b b' (w ++ rest) (w ++ rest') := by
  induction w generalizing b b' with
  | nil => exact hrest
  | cons c w ih =>
      refine .char hb (hw [] c w rfl) (ih (SameEdge.refl _) (fun u d v huv => ?_) hrest)
      exact hw (c :: u) d v (by rw [huv]; rfl)

theorem Corresponds.copyGap {g rest rest' : List Char} {b b' : Option Char} (hb : SameEdge b b')
    (hg : IsGap g) (hrest : Corresponds q (behind b g) (behind b' g) rest rest') :
    Corresponds q b b' (g ++ rest) (g ++ rest') := by
  refine Corresponds.copy hb (fun u c v huv _ => ?_) hrest
  rw [← Bool.not_eq_true]
  intro hnum
  have hpart := (isNumbered_chars hnum List.mem_cons_self).1
  rw [hg c (huv ▸ List.mem_append_right u List.mem_cons_self)] at hpart
  exact Bool.noConfusion hpart

theorem Corresponds.copyRun {r rest rest' : List Char} {b b' : Option Char} (hb : SameEdge b b')
    (hr : IsRun r) (hnum : Name.isNumbered r = false) (hends : EndsRun rest)
    (hrest : Corresponds q (behind b r) (behind b' r) rest rest') :
    Corresponds q b b' (r ++ rest) (r ++ rest') := by
  refine Corresponds.copy hb (fun u c v huv hrun => ?_) hrest
  have hv : ∀ d ∈ v, Name.isPart d = true := fun d hd =>
    hr.isPart d (huv ▸ List.mem_append_right u (List.mem_cons_of_mem c hd))
  rw [(takeWhile_dropWhile_append hv hends).1]
  by_cases hu : u = []
  · subst hu
    rwa [huv] at hnum
  · -- Behind the first character of the run nothing starts.
    have hno : Site.startsRun u.getLast? = false :=
      startsRun_getLast? hu fun d hd => hr.isPart d (huv ▸ List.mem_append_left _ hd)
    rw [behind_of_ne_nil b hu, hno] at hrun
    exact Bool.noConfusion hrun

theorem SameEdge.past {b b' : Option Char} (h : SameEdge b b') (w : List Char) :
    SameEdge (behind b w) (behind b' w) := by
  cases w with
  | nil => exact h
  | cons c w => exact SameEdge.refl _

theorem map_renumbered_ofGap (g : List Char) :
    (Piece.ofGap g).map (Piece.renumbered q) = Piece.ofGap g := by
  cases g with
  | nil => rfl
  | cons c cs => rfl

theorem flatMap_renumbered_beat (atStart : Bool) (g r : List Char) :
    ((beat atStart g r).map (Piece.renumbered q)).flatMap Piece.text =
      g ++ renumberChars q r := by
  by_cases hnum : Name.isNumbered r = true
  · rw [beat_of_isValid atStart g (isValid_of_isNumbered hnum), List.map_append,
      map_renumbered_ofGap]
    simp [Piece.renumbered, Piece.text]
  · have hblock : (Piece.ofBlock r).renumbered q = Piece.ofBlock r := by
      cases hp : Piece.ofBlock r with
      | gap t => rfl
      | token k t =>
          obtain rfl : t = r := by
            have := Piece.text_ofBlock r
            rwa [hp] at this
          cases k with
          | name => simp [Piece.renumbered, renumberChars, hnum]
          | number => rfl
    have hsame : (beat atStart g r).map (Piece.renumbered q) = beat atStart g r := by
      rw [beat]
      cases takenSign? atStart g r with
      | none => simp [map_renumbered_ofGap, hblock]
      | some s => simp [map_renumbered_ofGap, Piece.renumbered]
    rw [hsame, flatMap_text_beat]
    simp [renumberChars, hnum]

/-- A text corresponds to itself with its numbered names renamed. -/
theorem corresponds_cut (text : List Char) : ∀ {atStart : Bool} {b b' : Option Char},
    SameEdge b b' → (∀ c ∈ text.head?, Name.isPart c = true → Site.startsRun b = true) →
    (∀ t, .token .name t ∈ cut atStart text → Name.isNumbered t = true →
      Name.isNumbered (q t) = true) →
    Corresponds q b b' text
      (((cut atStart text).map (Piece.renumbered q)).flatMap Piece.text) := by
  induction text using beat_induction with
  | gap g hg =>
      intro atStart b b' hb _ _
      rw [cut_gap atStart hg, map_renumbered_ofGap, Piece.flatMap_text_ofGap]
      simpa using Corresponds.copyGap hb hg (.nil (hb.past g))
  | beat g r rest hg hr hrest ih =>
      intro atStart b b' hb hstart hq
      rw [cut_beat atStart hg hr hrest] at hq ⊢
      rw [List.map_append, List.flatMap_append, flatMap_renumbered_beat, List.append_assoc,
        List.append_assoc]
      refine Corresponds.copyGap hb hg ?_
      have hq' : ∀ t, .token .name t ∈ cut false rest → Name.isNumbered t = true →
          Name.isNumbered (q t) = true := fun t ht => hq t (List.mem_append_right _ ht)
      -- A run ends where `rest` starts, so `rest` starts no run of its own.
      have hstart' : ∀ {d : Option Char}, ∀ c ∈ rest.head?, Name.isPart c = true →
          Site.startsRun d = true := by
        intro d c hc hpart
        rw [hrest c hc] at hpart
        exact Bool.noConfusion hpart
      by_cases hnum : Name.isNumbered r = true
      · have hnum' : Name.isNumbered (q r) = true := by
          refine hq r (List.mem_append_left _ ?_) hnum
          rw [beat_of_isValid atStart g (isValid_of_isNumbered hnum)]
          exact List.mem_append_right _ List.mem_cons_self
        have hrun : Site.startsRun (behind b g) = true := by
          by_cases hne : g = []
          · subst hne
            obtain ⟨c, cs, rfl⟩ := List.exists_cons_of_ne_nil hr.ne_nil
            exact hstart c rfl (hr.isPart c List.mem_cons_self)
          · rw [behind_of_ne_nil b hne]
            exact startsRun_getLast? hne hg
        rw [renumberChars, if_pos hnum]
        exact .name (hb.past g) hrun hnum hnum' hrest
          (ih (SameEdge.ofNumbered hnum hnum') hstart' hq')
      · rw [renumberChars, if_neg hnum]
        exact Corresponds.copyRun (hb.past g) hr (by simpa using hnum) hrest
          (ih ((hb.past g).past r) hstart' hq')

theorem corresponds_pieces {text : List Char}
    (hq : ∀ t, .token .name t ∈ pieces text → Name.isNumbered t = true →
      Name.isNumbered (q t) = true) :
    Corresponds q none none text
      (((pieces text).map (Piece.renumbered q)).flatMap Piece.text) :=
  corresponds_cut text (SameEdge.refl none) (fun _ _ _ => rfl) hq

end Unmask
