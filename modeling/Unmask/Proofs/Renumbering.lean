/-
# `Unmask.Proofs.Renumbering` — which numbers a scrambler used does not matter

Two runs are compared: one over a script, one over the same script with its
numbered names renamed to other numbered names, different ones to different
ones.  Both give the same text, the same numbers and the same commands, and the
mappings of names differ in the renaming of their keys only.

The comparison goes stage by stage, and each stage says what the second run has
in terms of the first:

* the tokens are the renamed tokens (`pieces_text`), and the sites introduce
  the renamed names, in the same order (`introducedNames_text`, from
  `Unmask.Proofs.Correspondence`);
* so the suspects are the renamed suspects (`suspects_text`), and a name is
  called in the one script when its renamed form is called in the other
  (`mem_callableNames_text`);
* the two supplies never differ on a name that could be handed out, since none
  of those is numbered (`NameSupply.Alike`), so name after name gets the same
  word (`alike_addNames`) and number after number the same letters;
* every numbered name is given a new name, so none of them is left in the text
  of either report (`rewritten_renumbered`).
-/
import Unmask.Proofs.FunctionRoles
import Unmask.Proofs.Report

namespace Unmask

/-! ## The other script -/

/-- Other numbered names for the numbered names of a script, no two alike. -/
structure Renumbering (source : String) where
  spelling : String → String
  numbered : ∀ t ∈ Suspects.numberedNames source, Name.isNumbered (spelling t).toList = true
  injective : ∀ t ∈ Suspects.numberedNames source, ∀ u ∈ Suspects.numberedNames source,
    spelling t = spelling u → t = u

theorem mem_numberedNames {source t : String} : t ∈ Suspects.numberedNames source ↔
    t ∈ tokenTexts .name source ∧ Name.isNumbered t.toList = true :=
  List.mem_filter

namespace Renumbering

variable {source : String} (p : Renumbering source)

/-- The new name of a numbered name; every other name keeps its spelling. -/
def rename (t : String) : String := if Name.isNumbered t.toList then p.spelling t else t

def chars (t : List Char) : List Char := (p.spelling (String.ofList t)).toList

def text : String :=
  String.ofList (((pieces source.toList).map (Piece.renumbered p.chars)).flatMap Piece.text)

theorem renumberChars_chars (t : List Char) :
    renumberChars p.chars t = (p.rename (String.ofList t)).toList := by
  simp only [renumberChars, rename, chars, String.toList_ofList]
  split_ifs
  · rfl
  · rw [String.toList_ofList]

theorem numbered_chars {t : List Char} (ht : .token .name t ∈ pieces source.toList)
    (hnum : Name.isNumbered t = true) : Name.isNumbered (p.chars t) = true := by
  refine p.numbered _ (mem_numberedNames.mpr ⟨mem_tokenTexts.mpr ?_, ?_⟩)
  · rwa [String.toList_ofList]
  · rwa [String.toList_ofList]

theorem isNumbered_rename {t : String} (ht : t ∈ tokenTexts .name source) :
    Name.isNumbered (p.rename t).toList = Name.isNumbered t.toList := by
  rw [rename]
  split_ifs with hnum
  · rw [hnum, p.numbered _ (mem_numberedNames.mpr ⟨ht, hnum⟩)]
  · rfl

theorem rename_injective {t u : String} (ht : t ∈ tokenTexts .name source)
    (hu : u ∈ tokenTexts .name source) (h : p.rename t = p.rename u) : t = u := by
  have hsame : Name.isNumbered t.toList = Name.isNumbered u.toList := by
    rw [← p.isNumbered_rename ht, ← p.isNumbered_rename hu, h]
  by_cases hnum : Name.isNumbered t.toList = true
  · have hnum' : Name.isNumbered u.toList = true := hsame ▸ hnum
    rw [rename, rename, if_pos hnum, if_pos hnum'] at h
    exact p.injective t (mem_numberedNames.mpr ⟨ht, hnum⟩) u (mem_numberedNames.mpr ⟨hu, hnum'⟩) h
  · rw [rename, rename, if_neg hnum, if_neg (hsame ▸ hnum)] at h
    exact h

/-! ## Tokens and sites -/

theorem pieces_text :
    pieces p.text.toList = (pieces source.toList).map (Piece.renumbered p.chars) := by
  rw [text, String.toList_ofList]
  refine cut_respelled source.toList true fun piece hpiece => ?_
  cases piece with
  | gap g => exact .same _
  | token k t =>
      cases k with
      | number => exact .same _
      | name =>
          by_cases hnum : Name.isNumbered t = true
          · rw [Piece.renumbered, renumberChars, if_pos hnum]
            exact .name _ t _ (isValid_of_isNumbered (p.numbered_chars hpiece hnum))
          · rw [Piece.renumbered, renumberChars, if_neg hnum]
            exact .same _

theorem corresponds_text : Corresponds p.chars none none source.toList p.text.toList := by
  rw [text, String.toList_ofList]
  exact corresponds_pieces fun _ => p.numbered_chars

theorem tokenTexts_name_text :
    tokenTexts .name p.text = (tokenTexts .name source).map p.rename := by
  rw [tokenTexts, tokenTexts, pieces_text, List.filterMap_map, List.map_filterMap]
  refine List.filterMap_congr fun piece _ => ?_
  cases piece with
  | gap g => rfl
  | token k t =>
      cases k with
      | number => rfl
      | name => simp [Piece.renumbered, Piece.tokenText?, renumberChars_chars]

theorem tokenTexts_number_text : tokenTexts .number p.text = tokenTexts .number source := by
  rw [tokenTexts, tokenTexts, pieces_text, List.filterMap_map]
  refine List.filterMap_congr fun piece _ => ?_
  cases piece with
  | gap g => rfl
  | token k t =>
      cases k with
      | number => rfl
      | name => rfl

theorem numberedNames_text :
    Suspects.numberedNames p.text = (Suspects.numberedNames source).map p.rename := by
  rw [Suspects.numberedNames, Suspects.numberedNames, tokenTexts_name_text, List.filter_map]
  exact congrArg _ (List.filter_congr fun t ht => p.isNumbered_rename ht)

theorem introducedNames_text :
    Suspects.introducedNames p.text = (Suspects.introducedNames source).map p.rename := by
  have hdeclared : Site.declaredNames p.text.toList =
      (Site.declaredNames source.toList).map (renumberChars p.chars) :=
    (Site.introduced_respects (by decide)).findAll_corresponds p.corresponds_text
  have hfunction : Site.functionNames p.text.toList =
      (Site.functionNames source.toList).map (renumberChars p.chars) :=
    (Site.introduced_respects (by decide)).findAll_corresponds p.corresponds_text
  have hassigned : Site.assignedNames p.text.toList =
      (Site.assignedNames source.toList).map (renumberChars p.chars) := by
    rw [Site.assignedNames, Site.assigned_respects.findAll_corresponds p.corresponds_text,
      List.filterMap_map, Site.assignedNames, List.map_filterMap]
    rfl
  have hproperty : Site.propertyNames p.text.toList =
      (Site.propertyNames source.toList).map (renumberChars p.chars) :=
    Site.dotted_respects.findAll_corresponds p.corresponds_text
  simp only [Suspects.introducedNames, hdeclared, hfunction, hassigned, hproperty,
    ← List.map_append, List.filter_map, List.map_map]
  have hkeep : ∀ name ∈ Site.declaredNames source.toList ++ Site.functionNames source.toList ++
      Site.assignedNames source.toList ++ Site.propertyNames source.toList,
      (Name.looksScrambled ∘ renumberChars p.chars) name = Name.looksScrambled name := by
    intro name hname
    rw [Function.comp_apply, renumberChars]
    split_ifs with hnum
    · rw [looksScrambled_of_isNumbered hnum,
        looksScrambled_of_isNumbered (p.numbered_chars (Suspects.token_of_found hname) hnum)]
    · rfl
  rw [List.filter_congr hkeep]
  refine List.map_congr_left fun name _ => ?_
  simp only [Function.comp_apply, renumberChars_chars, String.ofList_toList]

/-! ## Suspects -/

theorem allows_of_isNumbered {protection : Protection} {t : String}
    (hnum : Name.isNumbered t.toList = true) (h : t ∉ protection.extra) :
    protection.allows t = true := by
  have hno : ∀ w ∈ reservedWords ++ hostNames, Name.isNumbered w.toList = false := by
    decide +kernel
  have hmem : t ∉ reservedWords ++ hostNames := by
    intro ht
    rw [hno t ht] at hnum
    exact Bool.noConfusion hnum
  rw [List.mem_append, not_or] at hmem
  simp [Protection.allows, Protection.covers, isReserved, hmem, h]

/-- Neither the numbered names nor their new names are under protection. -/
def Unprotected (protection : Protection) : Prop :=
  ∀ t ∈ Suspects.numberedNames source, t ∉ protection.extra ∧ p.spelling t ∉ protection.extra

theorem allows_rename {protection : Protection}
    (hprotected : p.Unprotected protection)
    {t : String} (ht : t ∈ tokenTexts .name source) :
    protection.allows (p.rename t) = protection.allows t := by
  by_cases hnum : Name.isNumbered t.toList = true
  · have hmem := mem_numberedNames.mpr ⟨ht, hnum⟩
    rw [rename, if_pos hnum, allows_of_isNumbered hnum (hprotected t hmem).1,
      allows_of_isNumbered (p.numbered t hmem) (hprotected t hmem).2]
  · rw [rename, if_neg hnum]

theorem firstOccurrences_map {f : String → String} : ∀ {xs : List String}
    {seen seen' : Std.TreeSet String}, (∀ x ∈ xs, (f x ∈ seen' ↔ x ∈ seen)) →
    (∀ x ∈ xs, ∀ y ∈ xs, f x = f y → x = y) →
    firstOccurrences seen' (xs.map f) = (firstOccurrences seen xs).map f := by
  intro xs
  induction xs with
  | nil =>
      intro seen seen' _ _
      rfl
  | cons x xs ih =>
      intro seen seen' hseen hinj
      have hinj' : ∀ y ∈ xs, ∀ z ∈ xs, f y = f z → y = z := fun y hy z hz =>
        hinj y (List.mem_cons_of_mem x hy) z (List.mem_cons_of_mem x hz)
      have hcontains : seen'.contains (f x) = seen.contains x := by
        rw [Bool.eq_iff_iff, Std.TreeSet.contains_iff_mem, Std.TreeSet.contains_iff_mem]
        exact hseen x List.mem_cons_self
      rw [List.map_cons, firstOccurrences, firstOccurrences, hcontains]
      split_ifs
      · exact ih (fun y hy => hseen y (List.mem_cons_of_mem x hy)) hinj'
      · rw [List.map_cons, ih _ hinj']
        intro y hy
        have hxy : f x = f y ↔ x = y :=
          ⟨hinj x List.mem_cons_self y (List.mem_cons_of_mem x hy), congrArg f⟩
        simp only [Std.TreeSet.mem_insert, Std.LawfulEqCmp.compare_eq_iff_eq, hxy,
          hseen y (List.mem_cons_of_mem x hy)]

/-- The suspects of the other script: the renamed names in the same order, and
the same numbers. -/
theorem suspects_text {protection : Protection}
    (hprotected : p.Unprotected protection) :
    Suspects.ofSource protection p.text =
      { names := (Suspects.ofSource protection source).names.map p.rename
        numbers := (Suspects.ofSource protection source).numbers } := by
  have hsub : ∀ t ∈ Suspects.numberedNames source ++ Suspects.introducedNames source,
      t ∈ tokenTexts .name source := by
    intro t ht
    rcases List.mem_append.mp ht with h | h
    · exact (mem_numberedNames.mp h).1
    · exact Suspects.introducedNames_subset source h
  have hfilter : (Suspects.numberedNames p.text ++ Suspects.introducedNames p.text).filter
        protection.allows =
      ((Suspects.numberedNames source ++ Suspects.introducedNames source).filter
        protection.allows).map p.rename := by
    rw [numberedNames_text, introducedNames_text, ← List.map_append, List.filter_map]
    exact congrArg _ (List.filter_congr fun t ht => p.allows_rename hprotected (hsub t ht))
  simp only [Suspects.ofSource, hfilter, tokenTexts_number_text, distinct, Suspects.mk.injEq,
    and_true]
  refine firstOccurrences_map (by simp) fun t ht u hu h => ?_
  exact p.rename_injective (hsub t (List.mem_filter.mp ht).1) (hsub u (List.mem_filter.mp hu).1) h

/-! ## What is called -/

theorem calledNames_map (ps : List Piece) :
    calledNames (ps.map (Piece.renumbered p.chars)) = (calledNames ps).map p.rename := by
  induction ps with
  | nil => rfl
  | cons piece ps ih =>
      cases piece with
      | gap g => exact ih
      | token k t =>
          cases k with
          | number => exact ih
          | name =>
              cases ps with
              | nil => rfl
              | cons next ps =>
                  cases next with
                  | token k' t' => cases k' <;> exact ih
                  | gap g =>
                      simp only [List.map_cons, Piece.renumbered, calledNames] at ih ⊢
                      split_ifs
                      · simp [ih, renumberChars_chars]
                      · exact ih

theorem renumberChars_eq_function {t : List Char} (ht : .token .name t ∈ pieces source.toList) :
    (renumberChars p.chars t == "function".toList) = (t == "function".toList) := by
  have hno : ∀ {u : List Char}, Name.isNumbered u = true → (u == "function".toList) = false := by
    intro u hu
    rw [beq_eq_false_iff_ne]
    rintro rfl
    exact absurd hu (by decide)
  rw [renumberChars]
  split_ifs with hnum
  · rw [hno hnum, hno (p.numbered_chars ht hnum)]
  · rfl

theorem functionKeywordNames_map {ps : List Piece} (hps : ps ⊆ pieces source.toList) :
    functionKeywordNames (ps.map (Piece.renumbered p.chars)) =
      (functionKeywordNames ps).map p.rename := by
  induction ps with
  | nil => rfl
  | cons piece ps ih =>
      have hrest := ih fun x hx => hps (List.mem_cons_of_mem _ hx)
      cases piece with
      | gap g => exact hrest
      | token k kw =>
          cases k with
          | number => exact hrest
          | name =>
              -- What follows decides which equation of the function applies.
              match ps, hrest with
              | [], _ => rfl
              | .token .name _ :: _, hrest => exact hrest
              | .token .number _ :: _, hrest => exact hrest
              | [.gap _], hrest => exact hrest
              | .gap _ :: .gap _ :: _, hrest => exact hrest
              | .gap _ :: .token .number _ :: _, hrest => exact hrest
              | .gap g :: .token .name t :: ps, hrest =>
                  simp only [List.map_cons, Piece.renumbered, functionKeywordNames,
                    p.renumberChars_eq_function (hps List.mem_cons_self)] at hrest ⊢
                  split_ifs
                  · rw [hrest, List.map_cons, renumberChars_chars, String.ofList_toList]
                  · exact hrest

theorem token_of_mem_calledNames {ps : List Piece} {x : String} (h : x ∈ calledNames ps) :
    .token .name x.toList ∈ ps := by
  obtain ⟨g, hinfix, -⟩ := mem_calledNames_iff.mp h
  exact hinfix.subset List.mem_cons_self

theorem token_of_mem_functionKeywordNames {ps : List Piece} {x : String}
    (h : x ∈ functionKeywordNames ps) : .token .name x.toList ∈ ps := by
  obtain ⟨g, hinfix, -⟩ := mem_functionKeywordNames_iff.mp h
  exact hinfix.subset (by simp)

theorem mem_callableNames_text {t : String} (ht : t ∈ tokenTexts .name source) :
    p.rename t ∈ callableNames p.text ↔ t ∈ callableNames source := by
  have hlist : calledNames (pieces p.text.toList) ++ functionKeywordNames (pieces p.text.toList) =
      (calledNames (pieces source.toList) ++
        functionKeywordNames (pieces source.toList)).map p.rename := by
    rw [pieces_text, calledNames_map, p.functionKeywordNames_map (List.Subset.refl _),
      List.map_append]
  rw [callableNames, callableNames, Std.TreeSet.mem_ofList, Std.TreeSet.mem_ofList,
    List.contains_iff_mem, List.contains_iff_mem, hlist, List.mem_map]
  constructor
  · rintro ⟨u, hu, heq⟩
    have hu' : u ∈ tokenTexts .name source := by
      rcases List.mem_append.mp hu with h | h
      · exact mem_tokenTexts.mpr (token_of_mem_calledNames h)
      · exact mem_tokenTexts.mpr (token_of_mem_functionKeywordNames h)
    rwa [← p.rename_injective hu' ht heq]
  · intro h
    exact ⟨t, h, rfl⟩

end Renumbering

/-! ## Two supplies

What is reserved in the one run differs from what is reserved in the other in
numbered names only, and no such name is ever handed out. -/

theorem isNumbered_eq_false_of_isWord {w : List Char} (hw : IsWord w) (rest : List Char) :
    Name.isNumbered (w ++ rest) = false := by
  obtain ⟨c, cs, rfl⟩ := List.exists_cons_of_ne_nil hw.1
  rw [← Bool.not_eq_true]
  intro hnum
  obtain ⟨us, hus⟩ := isNumbered_head hnum
  obtain rfl := (List.cons.inj hus).1
  exact absurd (hw.2 '_' List.mem_cons_self) (by decide)

theorem isNumbered_nameAt (role : Role) (n : Nat) :
    Name.isNumbered (role.nameAt n).toList = false := by
  rw [toList_nameAt]
  exact isNumbered_eq_false_of_isWord (isWord_of_mem_words (getD_mem_words role n)) _

theorem isNumbered_letters (n : Nat) : Name.isNumbered (letters n) = false := by
  rw [← List.append_nil (letters n)]
  exact isNumbered_eq_false_of_isWord (isWord_letters n) []

/-- Two supplies that have come equally far and agree on every name that is
not numbered. -/
structure NameSupply.Alike (s s' : NameSupply) : Prop where
  values : s'.values = s.values
  functions : s'.functions = s.functions
  numbers : s'.numbers = s.numbers
  issued : ∀ {x : String}, Name.isNumbered x.toList = false → (x ∈ s'.issued ↔ x ∈ s.issued)
  occupied : ∀ {x : String}, Name.isNumbered x.toList = false →
    (x ∈ s'.occupied ↔ x ∈ s.occupied)

theorem NameSupply.Alike.reserve {s s' : NameSupply} (h : s.Alike s') {xs xs' : List String}
    (hxs : ∀ {x : String}, Name.isNumbered x.toList = false → (x ∈ xs' ↔ x ∈ xs)) :
    (s.reserve xs).Alike (s'.reserve xs') := by
  rw [NameSupply.reserve, NameSupply.reserve]
  refine ⟨h.values, h.functions, h.numbers, fun hx => ?_, fun hx => ?_⟩
  · rw [Std.TreeSet.mem_insertMany_list, Std.TreeSet.mem_insertMany_list,
      List.contains_iff_mem, List.contains_iff_mem, h.issued hx, hxs hx]
  · rw [Std.TreeSet.mem_insertMany_list, Std.TreeSet.mem_insertMany_list,
      List.contains_iff_mem, List.contains_iff_mem, h.occupied hx, hxs hx]

theorem NameSupply.Alike.nextWord {s s' : NameSupply} (h : s.Alike s') (role : Role) :
    (s'.nextWord role).1 = (s.nextWord role).1 ∧
      (s.nextWord role).2.Alike (s'.nextWord role).2 := by
  have hcounter : s'.counter role = s.counter role := by
    cases role with
    | value => exact h.values
    | function => exact h.functions
  have hfree : (fun n => s'.wordFree (role.nameAt n)) = fun n => s.wordFree (role.nameAt n) := by
    funext n
    rw [Bool.eq_iff_iff, NameSupply.wordFree_iff, NameSupply.wordFree_iff,
      h.issued (isNumbered_nameAt role n)]
  obtain ⟨n, hn, hnext⟩ := s.nextWord_spec role
  obtain ⟨n', hn', hnext'⟩ := s'.nextWord_spec role
  rw [hfree, hcounter] at hn'
  obtain rfl := hn.unique hn'
  rw [hnext, hnext']
  refine ⟨rfl, ?_⟩
  have hissued : ∀ {x : String}, Name.isNumbered x.toList = false →
      (x ∈ s'.issued.insert (role.nameAt n) ↔ x ∈ s.issued.insert (role.nameAt n)) := by
    intro x hx
    rw [Std.TreeSet.mem_insert, Std.TreeSet.mem_insert, h.issued hx]
  cases role with
  | value => exact ⟨rfl, h.functions, h.numbers, hissued, h.occupied⟩
  | function => exact ⟨h.values, rfl, h.numbers, hissued, h.occupied⟩

theorem NameSupply.Alike.nextLetters {s s' : NameSupply} (h : s.Alike s') :
    s'.nextLetters.1 = s.nextLetters.1 ∧ s.nextLetters.2.Alike s'.nextLetters.2 := by
  have hfree : (fun n => s'.lettersFree (String.ofList (letters n))) =
      fun n => s.lettersFree (String.ofList (letters n)) := by
    funext n
    have hnum : Name.isNumbered (String.ofList (letters n)).toList = false := by
      rw [String.toList_ofList]
      exact isNumbered_letters n
    rw [Bool.eq_iff_iff, NameSupply.lettersFree_iff, NameSupply.lettersFree_iff, h.occupied hnum]
  obtain ⟨n, hn, hnext⟩ := s.nextLetters_spec
  obtain ⟨n', hn', hnext'⟩ := s'.nextLetters_spec
  rw [hfree, h.numbers] at hn'
  obtain rfl := hn.unique hn'
  rw [hnext, hnext']
  exact ⟨rfl, h.values, h.functions, rfl, h.issued, h.occupied⟩

/-! ## Two renamings -/

/-- Two renamings under construction, the second for names that `f` has
renamed.  The names in question are those in `D`. -/
structure Renaming.Alike (D : List String) (f : String → String) (r r' : Renaming) : Prop where
  supply : r.supply.Alike r'.supply
  numbers : r'.numbers = r.numbers
  names : ∀ t ∈ D, r'.names[f t]? = r.names[t]?
  keys : ∀ {k : String}, k ∈ r'.names → ∃ t ∈ D, k = f t

namespace Renaming.Alike

variable {D : List String} {f : String → String} {r r' : Renaming}

theorem mem_names (h : Alike D f r r') {t : String} (ht : t ∈ D) :
    f t ∈ r'.names ↔ t ∈ r.names := by
  rw [Std.TreeMap.mem_iff_isSome_getElem?, Std.TreeMap.mem_iff_isSome_getElem?, h.names t ht]

theorem addName (hinj : ∀ t ∈ D, ∀ u ∈ D, f t = f u → t = u) {protection : Protection}
    (hallows : ∀ t ∈ D, protection.allows (f t) = protection.allows t)
    {callable callable' : Std.TreeSet String}
    (hcallable : ∀ t ∈ D, (f t ∈ callable' ↔ t ∈ callable))
    (h : Alike D f r r') {name : String} (hname : name ∈ D) :
    Alike D f (Renaming.addName protection callable r name)
      (Renaming.addName protection callable' r' (f name)) := by
  have hskip : (r'.names.contains (f name) || !protection.allows (f name)) =
      (r.names.contains name || !protection.allows name) := by
    rw [hallows name hname]
    congr 1
    rw [Bool.eq_iff_iff, Std.TreeMap.contains_iff_mem, Std.TreeMap.contains_iff_mem,
      h.mem_names hname]
  have hrole : callable'.contains (f name) = callable.contains name := by
    rw [Bool.eq_iff_iff, Std.TreeSet.contains_iff_mem, Std.TreeSet.contains_iff_mem,
      hcallable name hname]
  rw [Renaming.addName, Renaming.addName, hskip, hrole]
  by_cases hcase : (r.names.contains name || !protection.allows name) = true
  · rw [if_pos hcase, if_pos hcase]
    exact h
  · rw [if_neg hcase, if_neg hcase]
    generalize (if callable.contains name then Role.function else Role.value) = role
    obtain ⟨hword, hsupply⟩ := h.supply.nextWord role
    refine ⟨hsupply, h.numbers, fun t ht => ?_, fun {k} hk => ?_⟩
    · have hiff : f name = f t ↔ name = t := ⟨hinj name hname t ht, congrArg f⟩
      dsimp only
      simp only [Std.TreeMap.getElem?_insert, Std.LawfulEqCmp.compare_eq_iff_eq, hiff, hword,
        h.names t ht]
    · rcases Std.TreeMap.mem_insert.mp hk with hk | hk
      · exact ⟨name, hname, (Std.LawfulEqCmp.compare_eq_iff_eq.mp hk).symm⟩
      · exact h.keys hk

theorem addNumber (h : Alike D f r r') (style : NumberStyle) (literal : String) :
    Alike D f (Renaming.addNumber style r literal) (Renaming.addNumber style r' literal) := by
  unfold Renaming.addNumber
  rw [h.numbers]
  by_cases hcase : r.numbers.contains literal = true
  · rw [if_pos hcase, if_pos hcase]
    exact h
  · rw [if_neg hcase, if_neg hcase]
    cases style with
    | letters =>
        obtain ⟨hletters, hsupply⟩ := h.supply.nextLetters
        exact ⟨hsupply, by dsimp only; rw [hletters], h.names, h.keys⟩
    | characters => exact ⟨h.supply, rfl, h.names, h.keys⟩

theorem addNumbers (h : Alike D f r r') (literals : List String) (style : NumberStyle) :
    Alike D f (r.addNumbers literals style) (r'.addNumbers literals style) := by
  induction literals generalizing r r' with
  | nil => exact h
  | cons literal literals ih => exact ih (h.addNumber style literal)

end Renaming.Alike

namespace Renumbering

variable {source : String} (p : Renumbering source)

theorem alike_addNames {protection : Protection}
    (hprotected : p.Unprotected protection)
    {r r' : Renaming} (h : Renaming.Alike (tokenTexts .name source) p.rename r r')
    {names : List String} (hnames : ∀ t ∈ names, t ∈ tokenTexts .name source) :
    Renaming.Alike (tokenTexts .name source) p.rename (r.addNames source names protection)
      (r'.addNames p.text (names.map p.rename) protection) := by
  induction names generalizing r r' with
  | nil => exact h
  | cons name names ih =>
      refine ih ?_ fun t ht => hnames t (List.mem_cons_of_mem _ ht)
      exact h.addName (fun t ht u hu => p.rename_injective ht hu)
        (fun t ht => p.allows_rename hprotected ht) (fun t ht => p.mem_callableNames_text ht)
        (hnames name List.mem_cons_self)

theorem alike_reserveNames {r r' : Renaming}
    (h : Renaming.Alike (tokenTexts .name source) p.rename r r') :
    Renaming.Alike (tokenTexts .name source) p.rename (r.reserveNames source)
      (r'.reserveNames p.text) := by
  have htaken : ∀ {x : String}, Name.isNumbered x.toList = false →
      (x ∈ (nameSet p.text).toList ↔ x ∈ (nameSet source).toList) := by
    intro x hx
    rw [Renaming.mem_toList_nameSet, Renaming.mem_toList_nameSet, tokenTexts_name_text,
      List.mem_map]
    constructor
    · rintro ⟨t, ht, rfl⟩
      rw [p.isNumbered_rename ht] at hx
      rwa [rename, if_neg (by simp [hx])]
    · intro hmem
      exact ⟨x, hmem, by rw [rename, if_neg (by simp [hx])]⟩
  rw [Renaming.reserveNames, Renaming.reserveNames]
  exact ⟨h.supply.reserve htaken, h.numbers, h.names, h.keys⟩

theorem alike_empty : Renaming.Alike (tokenTexts .name source) p.rename {} {} where
  supply := ⟨rfl, rfl, rfl, fun _ => Iff.rfl, fun _ => Iff.rfl⟩
  numbers := rfl
  names := fun _ _ => by simp
  keys := fun hk => by simp at hk

/-- The renaming of the other script is the renaming of the script, with the
renamed names for keys. -/
theorem alike_ofSource {o : Options}
    (hprotected : p.Unprotected o.protection) :
    Renaming.Alike (tokenTexts .name source) p.rename (Renaming.ofSource o source)
      (Renaming.ofSource o p.text) := by
  have hstart : Renaming.Alike (tokenTexts .name source) p.rename
      (if o.reserveSourceNames then ({} : Renaming).reserveNames source else {})
      (if o.reserveSourceNames then ({} : Renaming).reserveNames p.text else {}) := by
    split_ifs
    · exact p.alike_reserveNames p.alike_empty
    · exact p.alike_empty
  have hsuspects : Suspects.ofSource o.protection p.text =
      { names := (Suspects.ofSource o.protection source).names.map p.rename
        numbers := (Suspects.ofSource o.protection source).numbers } :=
    p.suspects_text hprotected
  have hnames : ∀ t ∈ (Suspects.ofSource o.protection source).names,
      t ∈ tokenTexts .name source := fun t ht => (Suspects.names_ofSource_subset ht).1
  rw [Renaming.ofSource, Renaming.ofSource, hsuspects]
  exact (p.alike_addNames hprotected hstart hnames).addNumbers _ _

/-! ## Two reports -/

theorem mem_names_of_numbered {o : Options}
    (hprotected : p.Unprotected o.protection)
    {t : String} (ht : t ∈ Suspects.numberedNames source) :
    t ∈ (Renaming.ofSource o source).names := by
  have hallow : o.protection.allows t = true :=
    allows_of_isNumbered (mem_numberedNames.mp ht).2 (hprotected t ht).1
  rw [Renaming.ofSource, Renaming.names_addNumbers, Renaming.mem_names_addNames]
  refine Or.inr ⟨mem_distinct.mpr (List.mem_filter.mpr ⟨?_, hallow⟩), hallow⟩
  exact List.mem_append_left _ ht

/-- A piece and its renamed form are rewritten to the same text, if no numbered
name is left as it was. -/
theorem rewritten_renumbered {r r' : Renaming}
    (h : Renaming.Alike (tokenTexts .name source) p.rename r r')
    (hall : ∀ t ∈ Suspects.numberedNames source, t ∈ r.names)
    {piece : Piece} (hpiece : piece ∈ pieces source.toList) :
    (piece.renumbered p.chars).rewritten r'.names r'.numbers =
      piece.rewritten r.names r.numbers := by
  cases piece with
  | gap g => rfl
  | token k t =>
      cases k with
      | number => rw [Piece.renumbered, Piece.rewritten, Piece.rewritten, h.numbers]
      | name =>
          have ht : String.ofList t ∈ tokenTexts .name source := by
            rw [mem_tokenTexts, String.toList_ofList]
            exact hpiece
          rw [Piece.renumbered, Piece.rewritten, Piece.rewritten, renumberChars_chars,
            String.ofList_toList, h.names _ ht]
          cases hnew : r.names[String.ofList t]? with
          | some new => rfl
          | none =>
              -- What has no new name is not numbered, so it is the same in both scripts.
              have hnum : ¬ Name.isNumbered (String.ofList t).toList = true := by
                intro hnum
                have hmem := hall _ (mem_numberedNames.mpr ⟨ht, hnum⟩)
                rw [Std.TreeMap.mem_iff_isSome_getElem?, hnew] at hmem
                exact Bool.noConfusion hmem
              rw [rename, if_neg hnum]

theorem text_reportOf_text {o : Options}
    (hprotected : p.Unprotected o.protection) :
    (reportOf o p.text).text = (reportOf o source).text := by
  rw [text_reportOf, text_reportOf, names_reportOf, names_reportOf, numbers_reportOf,
    numbers_reportOf, rewriteOnce, rewriteOnce, pieces_text, List.flatMap_map]
  refine congrArg String.ofList (List.flatMap_congr fun piece hpiece => ?_)
  exact p.rewritten_renumbered (p.alike_ofSource hprotected)
    (fun t ht => p.mem_names_of_numbered hprotected ht) hpiece

theorem isBlankText_text : isBlankText p.text = isBlankText source :=
  p.corresponds_text.all_isBlank

end Renumbering

/-- Renaming the numbered names of a script changes neither the text of its
report, nor the numbers, nor the commands; the keys of the mapping of names are
renamed along. -/
theorem unmask_renumbered (o : Options) {source : String} (p : Renumbering source)
    (hsource : isBlankText source = false)
    (hprotected : ∀ t ∈ Suspects.numberedNames source,
      t ∉ o.protectedNames ∧ p.spelling t ∉ o.protectedNames) :
    ∃ report report', unmask o source = .ok report ∧ unmask o p.text = .ok report' ∧
      report'.text = report.text ∧
      report'.numbers = report.numbers ∧
      report'.commands = report.commands ∧
      ∀ k v : String, report'.names[k]? = some v ↔
        ∃ t, report.names[t]? = some v ∧ k = p.rename t := by
  have halike := p.alike_ofSource hprotected
  have htext := p.text_reportOf_text hprotected
  have hsource' : isBlankText p.text = false := by rw [p.isBlankText_text, hsource]
  refine ⟨reportOf o source, reportOf o p.text, unmask_eq_ok o hsource, unmask_eq_ok o hsource',
    htext, ?_, ?_, ?_⟩
  · rw [numbers_reportOf, numbers_reportOf, halike.numbers]
  · rw [commands_reportOf, commands_reportOf, htext]
  · intro k v
    rw [names_reportOf, names_reportOf]
    constructor
    · intro h
      have hkey : k ∈ (Renaming.ofSource o p.text).names := by
        rw [Std.TreeMap.mem_iff_isSome_getElem?, h]
        rfl
      obtain ⟨t, ht, rfl⟩ := halike.keys hkey
      exact ⟨t, (halike.names t ht).symm.trans h, rfl⟩
    · rintro ⟨t, h, rfl⟩
      have hkey : t ∈ (Renaming.ofSource o source).names := by
        rw [Std.TreeMap.mem_iff_isSome_getElem?, h]
        rfl
      exact (halike.names t (Renaming.mem_tokenTexts_of_mem_names hkey)).trans h

/-- Two numbered names of different lengths that change places. -/
def exchangedNumbers :
    Renumbering "var _0x1a2b = function(){ _0x00ff1.q = 0x41; }; _0x1a2b(_0x00ff1);" where
  spelling t := if t = "_0x1a2b" then "_0x00ff1" else "_0x1a2b"
  numbered := by decide
  injective := by decide

theorem unmask_renumbered_exchanged :
    exchangedNumbers.text =
        "var _0x00ff1 = function(){ _0x1a2b.q = 0x41; }; _0x00ff1(_0x1a2b);" ∧
      ∃ report report',
        unmask {} "var _0x1a2b = function(){ _0x00ff1.q = 0x41; }; _0x1a2b(_0x00ff1);" =
          .ok report ∧
        unmask {} exchangedNumbers.text = .ok report' ∧
        report'.text = report.text ∧
        report'.numbers = report.numbers ∧
        report'.commands = report.commands ∧
        ∀ k v : String, report'.names[k]? = some v ↔
          ∃ t, report.names[t]? = some v ∧ k = exchangedNumbers.rename t :=
  ⟨by decide, unmask_renumbered {} exchangedNumbers (by decide) (by decide)⟩

end Unmask
