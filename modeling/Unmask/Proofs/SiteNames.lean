/-
# `Unmask.Proofs.SiteNames` — what is found at a site is a name of the text

The sites are searched for in the raw text, by recognisers that see one
character of what lies behind them; the tokens come from the cut into runs.
The two have to meet: a name found after a keyword, in front of `= function`
or after a dot must be a whole name token.

A recogniser that finds a name also finds that the name is valid and that no
name character follows (`leadingName?_eq_some_iff`).  What stands in front of
it is a blank, a dot, or a character that was asked not to be a name
character.  So the name is a maximal run that starts with no digit, and such
runs are tokens (`name_mem_pieces`).
-/
import Unmask.Proofs.Respelling
import Unmask.Proofs.Walk
import Unmask.Suspects

namespace Unmask

/-! ## Character classes -/

theorem isPart_of_isBlank {c : Char} (h : isBlank c = true) : Name.isPart c = false := by
  rw [← Bool.not_eq_true]
  intro hp
  have hnat := toNat_of_isPart hp
  simp only [isBlank, Bool.or_eq_true, Bool.and_eq_true, decide_eq_true_eq, beq_iff_eq] at h
  omega

/-! ## Names among the pieces -/

theorem isStart_of_isPart {c : Char} (h : Name.isPart c = true) (hd : c.isDigit = false) :
    Name.isStart c = true := by
  simp only [Name.isPart, Char.isAlphanum, hd, Bool.or_false] at h
  exact h

theorem isValid_of_ofBlock {r t : List Char} (hr : IsRun r)
    (h : Piece.ofBlock r = .token .name t) : t = r ∧ Name.isValid r = true := by
  obtain ⟨c, cs, rfl⟩ := List.exists_cons_of_ne_nil hr.ne_nil
  have hc : Name.isPart c = true := hr.isPart c List.mem_cons_self
  cases hd : c.isDigit with
  | false =>
      rw [ofBlock_name hc hd] at h
      cases h
      exact ⟨rfl, isValid_cons.mpr ⟨isStart_of_isPart hc hd, fun d hmem =>
        hr.isPart d (List.mem_cons_of_mem c hmem)⟩⟩
  | true =>
      simp only [Piece.ofBlock, hc, hd, Bool.not_true, Bool.false_eq_true, if_false] at h
      split_ifs at h
      cases h

theorem eq_of_concat_eq {α : Type} {as ps qs : List α} {p x : α}
    (h : as ++ [p] = ps ++ x :: qs) (hx : x ∉ as) : ps = as ∧ p = x ∧ qs = [] := by
  rcases List.eq_nil_or_concat qs with rfl | ⟨qs, q, rfl⟩
  · obtain ⟨rfl, hp⟩ := List.append_inj' h rfl
    exact ⟨rfl, (List.cons.inj hp).1, rfl⟩
  · rw [List.concat_eq_append, ← List.cons_append, ← List.append_assoc] at h
    obtain ⟨rfl, -⟩ := List.append_inj' h rfl
    exact absurd (List.mem_append_right ps List.mem_cons_self) hx

theorem name_in_beat {atStart : Bool} {g r t : List Char} {ps qs : List Piece} (hr : IsRun r)
    (h : beat atStart g r = ps ++ .token .name t :: qs) :
    ps.flatMap Piece.text = g ∧ t = r ∧ qs = [] ∧ Name.isValid r = true := by
  have hgap : ∀ g', .token .name t ∉ Piece.ofGap g' := by
    intro g' hmem
    cases g' with
    | nil => exact List.not_mem_nil hmem
    | cons c cs => exact absurd (List.mem_singleton.mp hmem) (by simp)
  rw [beat] at h
  cases hs : takenSign? atStart g r with
  | some s =>
      rw [hs] at h
      obtain ⟨-, hp, -⟩ := eq_of_concat_eq h (hgap _)
      cases hp
  | none =>
      rw [hs] at h
      obtain ⟨rfl, hp, hqs⟩ := eq_of_concat_eq h (hgap _)
      obtain ⟨rfl, hvalid⟩ := isValid_of_ofBlock hr hp
      exact ⟨Piece.flatMap_text_ofGap g, rfl, hqs, hvalid⟩

/-- A name token is valid, and no name character touches it. -/
theorem name_in_cut {t : List Char} : ∀ (text : List Char) {atStart : Bool} {ps qs : List Piece},
    cut atStart text = ps ++ .token .name t :: qs →
      Name.isValid t = true ∧ BeginsRun (ps.flatMap Piece.text) ∧
        EndsRun (qs.flatMap Piece.text) := by
  intro text
  induction text using beat_induction with
  | gap g hg =>
      intro atStart ps qs h
      have hmem : .token .name t ∈ Piece.ofGap g := by
        rw [← cut_gap atStart hg, h]
        exact List.mem_append_right _ List.mem_cons_self
      cases g with
      | nil => exact absurd hmem List.not_mem_nil
      | cons c cs => exact absurd hmem (by simp [Piece.ofGap])
  | beat g r rest hg hr hrest ih =>
      intro atStart ps qs h
      rw [cut_beat atStart hg hr hrest] at h
      have later : ∀ ms, ps = beat atStart g r ++ ms →
          cut false rest = ms ++ .token .name t :: qs →
          Name.isValid t = true ∧ BeginsRun (ps.flatMap Piece.text) ∧
            EndsRun (qs.flatMap Piece.text) := by
        rintro ms rfl hms
        obtain ⟨hvalid, hbegins, hends⟩ := ih hms
        refine ⟨hvalid, ?_, hends⟩
        -- Something stands between the run and the name, or the two would touch.
        have hne : ms.flatMap Piece.text ≠ [] := by
          intro hnil
          have htext := flatMap_text_cut false rest
          rw [hms, List.flatMap_append, hnil, List.nil_append, List.flatMap_cons] at htext
          cases t with
          | nil => exact Bool.noConfusion hvalid
          | cons c cs =>
              have hc : Name.isPart c = false := hrest c (by rw [← htext]; rfl)
              rw [isPart_of_isStart (isValid_cons.mp hvalid).1] at hc
              exact Bool.noConfusion hc
        intro c hc
        rw [List.flatMap_append, List.getLast?_append_of_ne_nil _ hne] at hc
        exact hbegins c hc
      rcases List.append_eq_append_iff.mp h with ⟨ms, hps, hms⟩ | ⟨ms, hbeat, hms⟩
      · exact later ms hps hms
      · cases ms with
        | nil => exact later [] (by rw [hbeat, List.append_nil, List.append_nil]) hms.symm
        | cons m ms =>
            obtain ⟨rfl, rfl⟩ := List.cons.inj hms
            obtain ⟨hps, rfl, rfl, hvalid⟩ := name_in_beat hr hbeat
            refine ⟨hvalid, ?_, ?_⟩
            · rw [hps]
              exact fun c hc => hg c (List.mem_of_mem_getLast? hc)
            · show EndsRun ((cut false rest).flatMap Piece.text)
              rw [flatMap_text_cut]
              exact hrest

/-! ## Recognisers -/

namespace Site

theorem leadingName?_eq_some_iff {text name : List Char} :
    leadingName? text = some name ↔
      ∃ rest, text = name ++ rest ∧ Name.isValid name = true ∧ EndsRun rest := by
  constructor
  · intro h
    cases text with
    | nil => exact absurd h (by simp [leadingName?])
    | cons c cs =>
        rw [leadingName?] at h
        split_ifs at h with hc
        obtain rfl := Option.some.inj h
        refine ⟨cs.dropWhile Name.isPart, ?_, ?_, endsRun_dropWhile cs⟩
        · rw [List.cons_append, List.takeWhile_append_dropWhile]
        · exact isValid_cons.mpr ⟨hc, fun d hd => List.mem_takeWhile_imp hd⟩
  · rintro ⟨rest, rfl, hvalid, hrest⟩
    cases name with
    | nil => exact absurd hvalid (by simp [Name.isValid])
    | cons c cs =>
        obtain ⟨hc, hcs⟩ := isValid_cons.mp hvalid
        rw [List.cons_append, leadingName?, if_pos hc, (takeWhile_dropWhile_append hcs hrest).1]

theorem leadingName?_append {name rest : List Char} (hvalid : Name.isValid name = true)
    (hrest : EndsRun rest) : leadingName? (name ++ rest) = some name :=
  leadingName?_eq_some_iff.mpr ⟨rest, rfl, hvalid, hrest⟩

theorem keywordThenName?_eq_some {keyword text name : List Char} {n : Nat}
    (h : keywordThenName? keyword text = some (name, n)) :
    ∃ blanks rest, text = keyword ++ blanks ++ name ++ rest ∧ blanks ≠ [] ∧
      (∀ c ∈ blanks, isBlank c = true) ∧ Name.isValid name = true ∧ EndsRun rest := by
  rw [keywordThenName?] at h
  cases hkey : keyword.isPrefixOf? text with
  | none => simp [hkey] at h
  | some after =>
      obtain rfl := List.isPrefixOf?_eq_some_iff_append_eq.mp hkey
      simp only [hkey] at h
      split_ifs at h with hblanks
      cases hname : leadingName? (after.dropWhile isBlank) with
      | none => simp [hname] at h
      | some name' =>
          simp only [hname, Option.some.injEq, Prod.mk.injEq] at h
          obtain ⟨rfl, -⟩ := h
          obtain ⟨rest, hsplit, hvalid, hrest⟩ := leadingName?_eq_some_iff.mp hname
          refine ⟨after.takeWhile isBlank, rest, ?_, ?_, fun c hc => List.mem_takeWhile_imp hc,
            hvalid, hrest⟩
          · simp only [List.append_assoc, ← hsplit, List.takeWhile_append_dropWhile]
          · simpa using hblanks

theorem introduced?_eq_some {keywords : List String} {before : Option Char}
    {text name : List Char} {n : Nat} (h : introduced? keywords before text = some (name, n)) :
    ∃ keyword ∈ keywords, keywordThenName? keyword.toList text = some (name, n) := by
  rw [introduced?] at h
  cases hfind : keywords.findSome? fun k => keywordThenName? k.toList text with
  | none => simp [hfind] at h
  | some found =>
      simp only [hfind] at h
      split_ifs at h
      obtain rfl := Option.some.inj h
      exact List.exists_of_findSome?_eq_some hfind

theorem assigned?_eq_some {before : Option Char} {text name : List Char} {n : Nat}
    (h : assigned? before text = some (some name, n)) :
    startsRun before = true ∧ leadingName? text = some name := by
  rw [assigned?] at h
  cases hname : leadingName? text with
  | none => simp [hname] at h
  | some name' =>
      simp only [hname] at h
      split at h
      · split at h
        · split_ifs at h with hword hrun
          · simp only [Option.some.injEq, Prod.mk.injEq] at h
            exact ⟨hrun, by rw [h.1]⟩
          · simp at h
        · exact absurd h (by simp)
      · exact absurd h (by simp)

theorem dotted?_eq_some {before : Option Char} {text name : List Char} {n : Nat}
    (h : dotted? before text = some (name, n)) :
    ∃ after, text = '.' :: after ∧ leadingName? after = some name := by
  unfold dotted? at h
  split at h
  · next after =>
      obtain ⟨name', hname, heq⟩ := Option.map_eq_some_iff.mp h
      obtain rfl := (Prod.mk.inj heq).1
      exact ⟨after, rfl, hname⟩
  · exact absurd h (by simp)

/-! ## Finds are tokens -/

/-- A name that starts and ends a run is a token. -/
theorem token_of_leadingName? {passed after name : List Char} (hpassed : BeginsRun passed)
    (h : leadingName? after = some name) : .token .name name ∈ pieces (passed ++ after) := by
  obtain ⟨rest, rfl, hvalid, hrest⟩ := leadingName?_eq_some_iff.mp h
  cases name with
  | nil => exact Bool.noConfusion hvalid
  | cons c cs =>
      rw [← List.append_assoc]
      exact name_mem_pieces hpassed (isRun_of_isValid hvalid)
        (isDigit_eq_false_of_isStart (isValid_cons.mp hvalid).1) hrest

theorem beginsRun_of_startsRun {passed : List Char} (h : startsRun passed.getLast? = true) :
    BeginsRun passed := by
  intro c hc
  rw [Option.mem_def.mp hc] at h
  simpa [startsRun] using h

theorem startsRun_of_beginsRun {passed : List Char} (h : BeginsRun passed) :
    startsRun passed.getLast? = true := by
  cases hlast : passed.getLast? with
  | none => rfl
  | some c => simp [startsRun, h c hlast]

theorem beginsRun_concat {c : Char} (h : Name.isPart c = false) (u : List Char) :
    BeginsRun (u ++ [c]) := by
  intro d hd
  rw [List.getLast?_concat, Option.mem_def, Option.some.injEq] at hd
  exact hd ▸ h

theorem token_of_introduced {keywords : List String} {text name : List Char}
    (h : name ∈ findAll (introduced? keywords) text) : .token .name name ∈ pieces text := by
  obtain ⟨passed, after, n, rfl, hat⟩ := mem_findAll h
  obtain ⟨keyword, -, hkey⟩ := introduced?_eq_some hat
  obtain ⟨blanks, rest, rfl, hne, hblanks, hvalid, hrest⟩ := keywordThenName?_eq_some hkey
  obtain ⟨front, b, rfl⟩ := (List.eq_nil_or_concat blanks).resolve_left hne
  have hb : isBlank b = true := hblanks b (by simp)
  have hbegin : BeginsRun (passed ++ keyword.toList ++ front ++ [b]) :=
    beginsRun_concat (isPart_of_isBlank hb) _
  have htoken := token_of_leadingName? hbegin (leadingName?_append hvalid hrest)
  simpa only [List.append_assoc, List.concat_eq_append] using htoken

theorem token_of_assigned {text name : List Char} (h : name ∈ assignedNames text) :
    .token .name name ∈ pieces text := by
  obtain ⟨found, hfound, hid⟩ := List.mem_filterMap.mp h
  obtain ⟨passed, after, n, rfl, hat⟩ := mem_findAll hfound
  obtain rfl : found = some name := hid
  obtain ⟨hrun, hname⟩ := assigned?_eq_some hat
  exact token_of_leadingName? (beginsRun_of_startsRun hrun) hname

theorem token_of_dotted {text name : List Char} (h : name ∈ propertyNames text) :
    .token .name name ∈ pieces text := by
  obtain ⟨passed, after, n, rfl, hat⟩ := mem_findAll h
  obtain ⟨after', rfl, hname⟩ := dotted?_eq_some hat
  have hbegin : BeginsRun (passed ++ ['.']) := beginsRun_concat (by decide) passed
  have htoken := token_of_leadingName? hbegin hname
  rwa [List.append_assoc, List.singleton_append] at htoken

end Site

/-! ## Suspects are tokens -/

theorem mem_tokenTexts {kind : TokenKind} {source t : String} :
    t ∈ tokenTexts kind source ↔ .token kind t.toList ∈ pieces source.toList := by
  rw [tokenTexts, List.mem_filterMap]
  constructor
  · rintro ⟨p, hp, ht⟩
    cases p with
    | gap g => exact absurd ht (by simp [Piece.tokenText?])
    | token k u =>
        simp only [Piece.tokenText?, Option.ite_none_right_eq_some, Option.some.injEq] at ht
        obtain ⟨rfl, rfl⟩ := ht
        rwa [String.toList_ofList]
  · intro h
    exact ⟨_, h, by simp [Piece.tokenText?]⟩

theorem mem_firstOccurrences {x : String} : ∀ {xs : List String} {seen : Std.TreeSet String},
    x ∈ firstOccurrences seen xs ↔ x ∈ xs ∧ x ∉ seen := by
  intro xs
  induction xs with
  | nil =>
      intro seen
      simp [firstOccurrences]
  | cons y ys ih =>
      intro seen
      rw [firstOccurrences]
      split_ifs with hy
      · rw [ih, List.mem_cons]
        refine ⟨fun h => ⟨Or.inr h.1, h.2⟩, ?_⟩
        rintro ⟨rfl | hx, hseen⟩
        · exact absurd (Std.TreeSet.contains_iff_mem.mp hy) hseen
        · exact ⟨hx, hseen⟩
      · rw [List.mem_cons, ih, List.mem_cons, Std.TreeSet.mem_insert,
          Std.LawfulEqCmp.compare_eq_iff_eq]
        have hmem : y ∉ seen := fun h => hy (Std.TreeSet.contains_iff_mem.mpr h)
        constructor
        · rintro (rfl | ⟨hx, hseen⟩)
          · exact ⟨Or.inl rfl, hmem⟩
          · exact ⟨Or.inr hx, fun h => hseen (Or.inr h)⟩
        · rintro ⟨rfl | hx, hseen⟩
          · exact Or.inl rfl
          · by_cases hxy : y = x
            · exact Or.inl hxy.symm
            · exact Or.inr ⟨hx, fun h => h.elim hxy hseen⟩

theorem mem_distinct {x : String} {xs : List String} : x ∈ distinct xs ↔ x ∈ xs := by
  rw [distinct, mem_firstOccurrences]
  simp

namespace Suspects

theorem token_of_found {text name : List Char}
    (h : name ∈ Site.declaredNames text ++ Site.functionNames text ++ Site.assignedNames text ++
      Site.propertyNames text) : .token .name name ∈ pieces text := by
  simp only [List.mem_append] at h
  rcases h with ((h | h) | h) | h
  · exact Site.token_of_introduced h
  · exact Site.token_of_introduced h
  · exact Site.token_of_assigned h
  · exact Site.token_of_dotted h

theorem introducedNames_subset (source : String) :
    introducedNames source ⊆ tokenTexts .name source := by
  intro t ht
  obtain ⟨name, hname, rfl⟩ := List.mem_map.mp ht
  rw [mem_tokenTexts, String.toList_ofList]
  exact token_of_found (List.mem_filter.mp hname).1

/-- Every name that is to be replaced is a name of the text, and allowed. -/
theorem names_ofSource_subset {protection : Protection} {source t : String}
    (h : t ∈ (ofSource protection source).names) :
    t ∈ tokenTexts .name source ∧ protection.allows t = true := by
  obtain ⟨hmem, hallow⟩ := List.mem_filter.mp (mem_distinct.mp h)
  refine ⟨?_, hallow⟩
  rcases List.mem_append.mp hmem with h | h
  · exact (List.mem_filter.mp h).1
  · exact introducedNames_subset source h

end Suspects

end Unmask
