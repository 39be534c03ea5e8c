/-
# `Unmask.Proofs.FunctionRoles` — which names count as functions

A script says in two places that a name is a function's.  The search for sites
finds the names behind `function` and lists them as suspects; `callableNames`
decides which of the suspects get a function's word.  Both ask for the keyword,
blanks and a name, but not in the same sense.

| | the search | `callableNames` |
| :-- | :-- | :-- |
| in front of the keyword | no word character | no name character |
| the blanks | Unicode's white space | the five plain blanks |
| behind the name | anything | a parenthesis instead of all this |

So a name can be found behind `function` and yet get a word for values:
`function_names_not_callable` shows this for a no-break space, for a vertical tab
and for a dollar sign in front of the keyword.  In a text without such places
(`Site.Plain`) every name that the search finds gets a function's word, whatever was
named before it (`function_names_callable`).

`mem_callableNames_iff` says where the name of a function stands, in terms of the
text and not of its pieces.
-/
import Unmask.Proofs.Boundaries
import Unmask.Proofs.RenamingSteps

namespace Unmask

/-! ## Names of a text, in front of them and behind them -/

/-- A whole name stands in a text, between `before` and `rest`. -/
structure NameAt (text before name rest : List Char) : Prop where
  eq : text = before ++ (name ++ rest)
  begins : BeginsRun before
  valid : Name.isValid name = true
  ends : EndsRun rest

/-- The pieces around a name are those of the texts around it. -/
theorem NameAt.cut {text before name rest : List Char} (h : NameAt text before name rest) :
    pieces text = cut true before ++ .token .name name :: cut false rest := by
  rw [pieces_eq_cut, h.eq, ← List.append_assoc, cut_at_run true h.begins (isRun_of_isValid h.valid)
    (isHexRun_of_isValid h.valid) h.ends, ofBlock_of_isValid h.valid]

theorem NameAt.of_pieces {text name : List Char} {ps qs : List Piece}
    (h : pieces text = ps ++ .token .name name :: qs) :
    NameAt text (ps.flatMap Piece.text) name (qs.flatMap Piece.text) := by
  obtain ⟨hvalid, hbegins, hends⟩ := name_in_cut text (pieces_eq_cut text ▸ h)
  refine ⟨?_, hbegins, hvalid, hends⟩
  rw [← flatMap_text_cut true text, ← pieces_eq_cut, h]
  simp [Piece.text]

/-! ## Called names -/

theorem opensCall_append {g : List Char} (h : opensCall g = true) (rest : List Char) :
    opensCall (g ++ rest) = true := by
  rw [opensCall, beq_iff_eq] at h ⊢
  have hne : (g.dropWhile isPlainBlank).isEmpty = false := by
    cases hdrop : g.dropWhile isPlainBlank with
    | nil =>
        rw [hdrop] at h
        exact nomatch h
    | cons c cs => rfl
  rw [List.dropWhile_append, hne, if_neg Bool.false_ne_true, List.head?_append, h]
  rfl

theorem opensCall_of_append {g : List Char} (rest : List Char)
    (hrest : ∀ c ∈ rest.head?, isPlainBlank c = false ∧ c ≠ '(')
    (h : opensCall (g ++ rest) = true) : opensCall g = true := by
  rw [opensCall, beq_iff_eq, List.dropWhile_append] at h
  split_ifs at h with hempty
  · cases rest with
    | nil => exact nomatch h
    | cons c cs =>
        obtain ⟨hblank, hparen⟩ := hrest c rfl
        rw [List.dropWhile_cons_of_neg (by simp [hblank])] at h
        exact absurd (Option.some.inj h) hparen
  · cases hdrop : g.dropWhile isPlainBlank with
    | nil => exact absurd (by rw [hdrop]; rfl) hempty
    | cons c cs =>
        rw [hdrop] at h
        rw [opensCall, hdrop, beq_iff_eq]
        exact h

theorem isPlainBlank_of_isPart {c : Char} (h : Name.isPart c = true) : isPlainBlank c = false := by
  rw [← Bool.not_eq_true]
  intro hblank
  rw [isPart_of_isBlank (isBlank_of_isPlainBlank hblank)] at h
  exact Bool.noConfusion h

theorem exists_infix_cons {pattern : List Char → List Piece} {P : List Char → Prop}
    {piece : Piece} {ps : List Piece} :
    (∃ g, pattern g <:+: piece :: ps ∧ P g) ↔
      (∃ g, pattern g <+: piece :: ps ∧ P g) ∨ ∃ g, pattern g <:+: ps ∧ P g := by
  simp only [List.infix_cons_iff, or_and_right, exists_or]

theorem mem_calledNames_iff {ps : List Piece} {x : String} :
    x ∈ calledNames ps ↔
      ∃ g, [.token .name x.toList, .gap g] <:+: ps ∧ opensCall g = true := by
  fun_induction calledNames ps with
  | case1 t g ps hopens ih =>
      rw [List.mem_cons, exists_infix_cons, ih]
      refine or_congr_left ⟨?_, ?_⟩
      · rintro rfl
        rw [String.toList_ofList]
        exact ⟨g, List.prefix_append [_, _] ps, hopens⟩
      · rintro ⟨g', hprefix, -⟩
        obtain ⟨htoken, -⟩ := List.cons_prefix_cons.mp hprefix
        obtain ⟨-, rfl⟩ := Piece.token.inj htoken
        exact String.ofList_toList.symm
  | case2 t g ps hopens ih =>
      rw [exists_infix_cons, ih]
      refine (or_iff_right ?_).symm
      rintro ⟨g', hprefix, hopens'⟩
      -- The gap behind this name is another one.
      obtain ⟨-, hgap⟩ := List.cons_prefix_cons.mp hprefix
      obtain ⟨heq, -⟩ := List.cons_prefix_cons.mp hgap
      rw [Piece.gap.inj heq] at hopens'
      exact hopens hopens'
  | case3 piece ps hno ih =>
      rw [exists_infix_cons, ih]
      refine (or_iff_right ?_).symm
      rintro ⟨g, hprefix, -⟩
      obtain ⟨rfl, qs, rfl⟩ := List.cons_prefix_cons.mp hprefix
      exact hno _ g qs rfl rfl
  | case4 =>
      refine ⟨fun h => absurd h List.not_mem_nil, ?_⟩
      rintro ⟨g, hinfix, -⟩
      exact absurd (List.infix_nil.mp hinfix) (List.cons_ne_nil _ _)

theorem gap_of_opensCall {rest : List Char} (hends : EndsRun rest)
    (h : opensCall rest = true) :
    ∃ g ps, Unmask.cut false rest = .gap g :: ps ∧ opensCall g = true := by
  have hne : ∀ {g : List Char}, opensCall g = true → g ≠ [] := by
    rintro g hg rfl
    exact Bool.noConfusion hg
  rcases gap_or_beat rest with hgap | ⟨g, r, tail, rfl, hg, hr, htail⟩
  · refine ⟨rest, [], ?_, h⟩
    rw [cut_gap false hgap, Piece.ofGap_of_ne_nil (hne h)]
  · obtain ⟨c, cs, hcons⟩ := List.exists_cons_of_ne_nil hr.ne_nil
    have hpart : Name.isPart c = true := hr.isPart c (hcons ▸ List.mem_cons_self)
    have hopens : opensCall g = true := by
      rw [List.append_assoc] at h
      refine opensCall_of_append (r ++ tail) (fun d hd => ?_) h
      rw [hcons, List.cons_append] at hd
      obtain rfl := Option.some.inj hd
      refine ⟨isPlainBlank_of_isPart hpart, ?_⟩
      rintro rfl
      exact absurd hpart (by decide)
    rw [cut_beat false hg hr htail, beat]
    cases hs : takenSign? false g r with
    | none =>
        refine ⟨g, Piece.ofBlock r :: Unmask.cut false tail, ?_, hopens⟩
        rw [Piece.ofGap_of_ne_nil (hne hopens)]
        rfl
    | some s =>
        obtain ⟨v, rfl, hsign, -, -⟩ := unarySign?_eq_some_iff.mp (takenSign?_eq_some_iff.mp hs).2
        have hopens' : opensCall v = true := by
          refine opensCall_of_append [s] (fun d hd => ?_) hopens
          obtain rfl := Option.some.inj hd
          simp only [isSign, Bool.or_eq_true, beq_iff_eq] at hsign
          rcases hsign with rfl | rfl <;> exact ⟨by decide, by decide⟩
        refine ⟨v, .token .number (s :: r) :: Unmask.cut false tail, ?_, hopens'⟩
        rw [List.dropLast_concat, Piece.ofGap_of_ne_nil (hne hopens')]
        rfl

theorem mem_calledNames_pieces {text : List Char} {x : String} :
    x ∈ calledNames (pieces text) ↔
      ∃ before rest, NameAt text before x.toList rest ∧ opensCall rest = true := by
  rw [mem_calledNames_iff]
  constructor
  · rintro ⟨g, ⟨ps, qs, h⟩, hopens⟩
    have hpieces : pieces text = ps ++ .token .name x.toList :: (.gap g :: qs) := by
      rw [← h]
      simp
    refine ⟨_, _, NameAt.of_pieces hpieces, ?_⟩
    rw [List.flatMap_cons]
    exact opensCall_append hopens _
  · rintro ⟨before, rest, hat, hopens⟩
    obtain ⟨g, ps, hcut, hg⟩ := gap_of_opensCall hat.ends hopens
    refine ⟨g, ⟨Unmask.cut true before, ps, ?_⟩, hg⟩
    rw [hat.cut, hcut]
    simp

/-! ## Names behind the keyword -/

/-- This text ends with the keyword `function` and plain blanks. -/
def AfterFunction (before : List Char) : Prop :=
  ∃ front blanks, before = front ++ ("function".toList ++ blanks) ∧ BeginsRun front ∧
    blanks ≠ [] ∧ ∀ c ∈ blanks, isPlainBlank c = true

theorem isGap_of_plain {blanks : List Char} (h : ∀ c ∈ blanks, isPlainBlank c = true) :
    IsGap blanks :=
  fun c hc => isPart_of_isBlank (isBlank_of_isPlainBlank (h c hc))

theorem keyword_iff {kw g : List Char} :
    (kw == "function".toList && g.all isPlainBlank) = true ↔
      kw = "function".toList ∧ ∀ c ∈ g, isPlainBlank c = true := by
  rw [Bool.and_eq_true, beq_iff_eq, List.all_eq_true]

theorem mem_functionKeywordNames_iff {ps : List Piece} {x : String} :
    x ∈ functionKeywordNames ps ↔
      ∃ g, [.token .name "function".toList, .gap g, .token .name x.toList] <:+: ps ∧
        ∀ c ∈ g, isPlainBlank c = true := by
  fun_induction functionKeywordNames ps with
  | case1 kw g t ps rest hkw ih =>
      obtain ⟨rfl, hblank⟩ := keyword_iff.mp hkw
      rw [List.mem_cons, exists_infix_cons, ih]
      refine or_congr_left ⟨?_, ?_⟩
      · rintro rfl
        have ht : (String.ofList t).toList = t := String.toList_ofList
        rw [ht]
        exact ⟨g, List.prefix_append [_, _, _] ps, hblank⟩
      · rintro ⟨g', hprefix, -⟩
        obtain ⟨-, hgap⟩ := List.cons_prefix_cons.mp hprefix
        obtain ⟨-, htoken⟩ := List.cons_prefix_cons.mp hgap
        obtain ⟨heq, -⟩ := List.cons_prefix_cons.mp htoken
        obtain ⟨-, rfl⟩ := Piece.token.inj heq
        exact String.ofList_toList.symm
  | case2 kw g t ps rest hkw ih =>
      rw [exists_infix_cons, ih]
      refine (or_iff_right ?_).symm
      rintro ⟨g', hprefix, hblank⟩
      obtain ⟨hkeyword, hgap⟩ := List.cons_prefix_cons.mp hprefix
      obtain ⟨hgap, -⟩ := List.cons_prefix_cons.mp hgap
      obtain rfl := Piece.gap.inj hgap
      exact hkw (keyword_iff.mpr ⟨(Piece.token.inj hkeyword).2.symm, hblank⟩)
  | case3 piece ps hno ih =>
      rw [exists_infix_cons, ih]
      refine (or_iff_right ?_).symm
      rintro ⟨g, hprefix, -⟩
      obtain ⟨rfl, qs, rfl⟩ := List.cons_prefix_cons.mp hprefix
      exact hno _ g _ qs rfl rfl
  | case4 =>
      refine ⟨fun h => absurd h List.not_mem_nil, ?_⟩
      rintro ⟨g, hinfix, -⟩
      exact absurd (List.infix_nil.mp hinfix) (List.cons_ne_nil _ _)

theorem mem_functionKeywordNames_pieces {text : List Char} {x : String} :
    x ∈ functionKeywordNames (pieces text) ↔
      ∃ before rest, NameAt text before x.toList rest ∧ AfterFunction before := by
  rw [mem_functionKeywordNames_iff]
  constructor
  · rintro ⟨g, ⟨ps, qs, h⟩, hblank⟩
    have hkeyword : pieces text =
        ps ++ .token .name "function".toList :: (.gap g :: .token .name x.toList :: qs) := by
      rw [← h]
      simp
    have hname : pieces text =
        (ps ++ [.token .name "function".toList, .gap g]) ++ .token .name x.toList :: qs := by
      rw [← h]
      simp
    have hat := NameAt.of_pieces hname
    refine ⟨_, _, hat, ps.flatMap Piece.text, g, ?_, (NameAt.of_pieces hkeyword).begins, ?_, hblank⟩
    · simp [Piece.text]
    · -- Without a gap the keyword would touch the name.
      rintro rfl
      have hends := (NameAt.of_pieces hkeyword).ends
      simp only [List.flatMap_cons, Piece.text, List.nil_append] at hends
      exact Site.not_endsRun (isRun_of_isValid hat.valid) _ hends
  · rintro ⟨before, rest, hat, front, blanks, rfl, hfront, hne, hblank⟩
    refine ⟨blanks, (Site.pair_infix_iff (isGap_of_plain hblank) hne).mpr
      ⟨front, rest, ?_, hfront, by decide, hat.valid, hat.ends⟩, hblank⟩
    rw [hat.eq]
    simp only [List.append_assoc]

theorem mem_callableNames_iff {source x : String} :
    x ∈ callableNames source ↔
      ∃ before rest, NameAt source.toList before x.toList rest ∧
        (opensCall rest = true ∨ AfterFunction before) := by
  rw [callableNames, Std.TreeSet.mem_ofList, List.contains_iff_mem, List.mem_append,
    mem_calledNames_pieces, mem_functionKeywordNames_pieces]
  constructor
  · rintro (⟨before, rest, hat, h⟩ | ⟨before, rest, hat, h⟩)
    · exact ⟨before, rest, hat, Or.inl h⟩
    · exact ⟨before, rest, hat, Or.inr h⟩
  · rintro ⟨before, rest, hat, h | h⟩
    · exact Or.inl ⟨before, rest, hat, h⟩
    · exact Or.inr ⟨before, rest, hat, h⟩

/-! ## The search against the pieces -/

/-- Where the search for `function` can answer, the name is called, or the keyword is a whole
run with plain blanks behind it. -/
def Site.Plain (text : List Char) : Prop :=
  ∀ {before blanks name rest : List Char},
    Site.KeywordAt text before "function".toList blanks name rest →
    Site.startsWord before.getLast? = true →
    opensCall rest = true ∨ (BeginsRun before ∧ ∀ c ∈ blanks, isPlainBlank c = true)

theorem Site.keywordAt_of_mem_functionNames {text name : List Char}
    (h : name ∈ Site.functionNames text) :
    ∃ before blanks rest, Site.KeywordAt text before "function".toList blanks name rest ∧
      Site.startsWord before.getLast? = true := by
  obtain ⟨before, after, n, rfl, hanswer⟩ := mem_findAll h
  obtain ⟨hword, k, hk, blanks, rest, hat, -⟩ :=
    (Site.introduced?_eq_some_iff (by decide)).mp hanswer
  obtain rfl := List.mem_singleton.mp hk
  exact ⟨before, blanks, rest, hat.shift before, hword⟩

theorem Site.KeywordAt.nameAt {text before keyword blanks name rest : List Char}
    (h : Site.KeywordAt text before keyword blanks name rest) :
    NameAt text (before ++ (keyword ++ blanks)) name rest := by
  refine ⟨?_, ?_, h.valid, h.ends⟩
  · rw [h.eq]
    simp only [List.append_assoc]
  · obtain ⟨v, c, rfl⟩ := (List.eq_nil_or_concat blanks).resolve_left h.ne_nil
    have hc : Name.isPart c = false := isPart_of_isBlank (h.blank c (by simp))
    have hlast := Site.beginsRun_concat hc (before ++ (keyword ++ v))
    simpa only [List.concat_eq_append, List.append_assoc] using hlast

/-- In a plain text what the search finds behind `function` is the name of a function. -/
theorem mem_callableNames_of_plain {source x : String} (hplain : Site.Plain source.toList)
    (hx : x.toList ∈ Site.functionNames source.toList) : x ∈ callableNames source := by
  obtain ⟨before, blanks, rest, hat, hword⟩ := Site.keywordAt_of_mem_functionNames hx
  refine mem_callableNames_iff.mpr ⟨_, rest, hat.nameAt, ?_⟩
  rcases hplain hat hword with hcalled | ⟨hbegins, hblank⟩
  · exact Or.inl hcalled
  · exact Or.inr ⟨before, blanks, rfl, hbegins, hat.ne_nil, hblank⟩

/-! ## Words -/

namespace Renaming

variable {protection : Protection} {source : String}

theorem getElem?_names_addNames {r : Renaming} {x v : String} (h : r.names[x]? = some v)
    (names : List String) : (r.addNames source names protection).names[x]? = some v := by
  refine List.foldlRecOn names _ (motive := fun r' : Renaming => r'.names[x]? = some v) h
    fun r' hr name _ => ?_
  rcases addName_cases protection (callableNames source) r' name with ⟨heq, -⟩ | ⟨role, hnew, -, heq⟩
  · rw [heq]
    exact hr
  · rw [heq, Std.TreeMap.getElem?_insert, if_neg, hr]
    intro hsame
    obtain rfl := Std.LawfulEqCmp.compare_eq_iff_eq.mp hsame
    exact hnew (Mapping.mem_of_getElem? hr)

/-- The name of a function gets the next word for functions, when its turn comes. -/
theorem word_of_callable {r : Renaming} {x : String} {earlier : List String} (later : List String)
    (hcallable : x ∈ callableNames source) (hallow : protection.allows x = true)
    (hnew : x ∉ r.names) (hfirst : x ∉ earlier) :
    (r.addNames source (earlier ++ x :: later) protection).names[x]? =
      some ((r.addNames source earlier protection).supply.nextWord .function).1 := by
  have hturn : x ∉ (r.addNames source earlier protection).names := by
    rw [mem_names_addNames]
    rintro (h | ⟨h, -⟩)
    · exact hnew h
    · exact hfirst h
  have hsplit : r.addNames source (earlier ++ x :: later) protection =
      (addName protection (callableNames source) (r.addNames source earlier protection)
        x).addNames source later protection := by
    rw [addNames, List.foldl_append, List.foldl_cons]
    rfl
  rw [hsplit]
  refine getElem?_names_addNames ?_ later
  have hgate : ((r.addNames source earlier protection).names.contains x ||
      !protection.allows x) = false := by
    rw [hallow, Bool.not_true, Bool.or_false, ← Bool.not_eq_true, Std.TreeMap.contains_iff_mem]
    exact hturn
  rw [addName, if_neg (by rw [hgate]; exact Bool.false_ne_true),
    if_pos (Std.TreeSet.contains_iff_mem.mpr hcallable)]
  exact Std.TreeMap.getElem?_insert_self

end Renaming

/-- In a plain text every name that the search finds behind `function` is the name of a
function, and gets the next word for functions when it is given a word. -/
theorem function_names_callable (source x : String) (hplain : Site.Plain source.toList)
    (hx : x.toList ∈ Site.functionNames source.toList) :
    x ∈ callableNames source ∧
    ∀ (protection : Protection) (r : Renaming) (earlier later : List String),
      protection.allows x = true → x ∉ r.names → x ∉ earlier →
      (r.addNames source (earlier ++ x :: later) protection).names[x]? =
        some ((r.addNames source earlier protection).supply.nextWord .function).1 := by
  have hcallable := mem_callableNames_of_plain hplain hx
  refine ⟨hcallable, fun protection r earlier later hallow hnew hfirst => ?_⟩
  exact Renaming.word_of_callable later hcallable hallow hnew hfirst

/-- A text is plain if its blanks are, and its characters count alike. -/
theorem Site.plain_of_spelling {text : List Char}
    (h : ∀ c ∈ text, (isBlank c = true → isPlainBlank c = true) ∧ isWordChar c = Name.isPart c) :
    Site.Plain text := by
  intro before blanks name rest hat hword
  refine Or.inr ⟨(Site.startsWord_iff fun c hc => ?_).mp hword, fun c hc => ?_⟩
  · refine (h c ?_).2
    rw [hat.eq]
    exact List.mem_append_left _ (List.mem_of_mem_getLast? hc)
  · refine (h c ?_).1 (hat.blank c hc)
    rw [hat.eq]
    simp [hc]

/-- A name behind `function` without a call, after one that has taken the first word. -/
theorem function_names_callable_uncalled :
    Site.Plain "function aB(){} var q=1; function\t\nzZ".toList ∧
      "zZ".toList ∈ Site.functionNames "function aB(){} var q=1; function\t\nzZ".toList ∧
      "zZ" ∈ callableNames "function aB(){} var q=1; function\t\nzZ" ∧
      (({} : Renaming).addNames "function aB(){} var q=1; function\t\nzZ" (["q", "aB"] ++ ["zZ"])
        {}).names["zZ"]? = some "setup" := by
  have hchars : "function aB(){} var q=1; function\t\nzZ".toList.all (fun c =>
      (!isBlank c || isPlainBlank c) && isWordChar c == Name.isPart c) = true := by decide +kernel
  have hplain : Site.Plain "function aB(){} var q=1; function\t\nzZ".toList := by
    refine Site.plain_of_spelling fun c hc => ?_
    have hc' := List.all_eq_true.mp hchars c hc
    rw [Bool.and_eq_true, Bool.or_eq_true, Bool.not_eq_true', beq_iff_eq] at hc'
    exact ⟨fun hblank => hc'.1.resolve_left (by rw [hblank]; exact Bool.noConfusion), hc'.2⟩
  have hfound : "zZ".toList ∈
      Site.functionNames "function aB(){} var q=1; function\t\nzZ".toList := by decide +kernel
  obtain ⟨hcallable, hword⟩ := function_names_callable _ "zZ" hplain hfound
  refine ⟨hplain, hfound, hcallable, ?_⟩
  rw [hword {} {} ["q", "aB"] [] (by decide +kernel) Std.TreeMap.not_mem_emptyc (by decide)]
  decide +kernel

/-- The search finds a name behind `function` and the name is a suspect, but it counts as no
function's name and gets a word for values. -/
def Site.Overlooked (source x : String) : Prop :=
  x.toList ∈ Site.functionNames source.toList ∧ Name.looksScrambled x.toList = true ∧
    x ∈ (Suspects.ofSource {} source).names ∧ x ∉ callableNames source ∧
    (({} : Renaming).addNames source [x] {}).names[x]? = some "element"

instance (source x : String) : Decidable (Site.Overlooked source x) :=
  inferInstanceAs (Decidable (_ ∧ _ ∧ _ ∧ _ ∧ _))

/-- Texts that are not plain: a no-break space, a vertical tab, and a dollar sign in front of
the keyword. -/
theorem function_names_not_callable :
    Site.Overlooked "function\u00a0aB" "aB" ∧ Site.Overlooked "function\x0baB" "aB" ∧
      Site.Overlooked "$function aB" "aB" := by
  decide +kernel

end Unmask
