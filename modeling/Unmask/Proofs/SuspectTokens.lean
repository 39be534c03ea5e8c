/-
# `Unmask.Proofs.SuspectTokens` — suspects are tokens, and they are the keys of a report

The suspicious names come from five searches, one among the tokens and four in
the raw text, and the suspicious numbers from one more.  `FromTokens` says what
may be relied on whatever the text looks like:

* nothing is listed twice;
* a name that is listed is the whole text of a name token, looks scrambled and
  is under no protection;
* a name token under no protection is listed if it is numbered, and if it looks
  scrambled and a dot touches it from the left;
* the numbers are those of the text that look scrambled, in the order in which
  they first occur.

The last field needs a word on dropping repetitions: `distinct` keeps a set of
what it has seen, and that comes to erasing the later of two equal entries
(`distinct_eq_eraseDups`).

`suspects_from_tokens` adds that a run gives a replacement to each suspect and to
nothing else.
-/
import Unmask.Proofs.Boundaries
import Unmask.Proofs.Report
import Unmask.Proofs.TokenGrammar

namespace Unmask

/-! ## Repetitions -/

/-- What is kept is what was not seen before, each once. -/
theorem firstOccurrences_eq_eraseDups (xs : List String) (seen : Std.TreeSet String) :
    firstOccurrences seen xs = (xs.filter fun x => !seen.contains x).eraseDups := by
  induction xs generalizing seen with
  | nil => rfl
  | cons x xs ih =>
      rw [firstOccurrences, List.filter_cons]
      by_cases hx : seen.contains x = true
      · rw [if_pos hx, ih]
        simp [hx]
      · have hlater : (xs.filter fun y => !seen.contains y).filter (fun y => !y == x) =
            xs.filter fun y => !(seen.insert x).contains y := by
          rw [List.filter_filter]
          refine List.filter_congr fun y _ => ?_
          have hsame : (compare x y == .eq) = (y == x) := by
            rw [Bool.eq_iff_iff, beq_iff_eq, beq_iff_eq, Std.LawfulEqCmp.compare_eq_iff_eq, eq_comm]
          rw [Std.TreeSet.contains_insert, hsame, Bool.not_or]
        have hfresh : (!seen.contains x) = true := by
          rw [Bool.not_eq_true']
          exact eq_false_of_ne_true hx
        rw [if_neg hx, ih, if_pos hfresh, List.eraseDups_cons, hlater]

theorem distinct_eq_eraseDups (xs : List String) : distinct xs = xs.eraseDups := by
  rw [distinct, firstOccurrences_eq_eraseDups]
  simp

theorem nodup_firstOccurrences (xs : List String) (seen : Std.TreeSet String) :
    (firstOccurrences seen xs).Nodup := by
  induction xs generalizing seen with
  | nil => exact List.nodup_nil
  | cons x xs ih =>
      rw [firstOccurrences]
      split_ifs with hx
      · exact ih seen
      · refine List.nodup_cons.mpr ⟨fun hmem => ?_, ih _⟩
        exact (mem_firstOccurrences.mp hmem).2
          (Std.TreeSet.mem_insert.mpr (Or.inl Std.ReflCmp.compare_self))

theorem nodup_distinct (xs : List String) : (distinct xs).Nodup := nodup_firstOccurrences xs ∅

/-! ## Tokens and where they stand -/

theorem tokenTexts_eq_map (kind : TokenKind) (source : String) :
    tokenTexts kind source = ((tokens source).filter fun t => t.kind = kind).map Token.text :=
  (filter_locate kind _ 0).symm

theorem mem_tokenTexts_iff {kind : TokenKind} {source x : String} :
    x ∈ tokenTexts kind source ↔ ∃ t ∈ tokens source, t.kind = kind ∧ t.text = x := by
  rw [tokenTexts_eq_map, List.mem_map]
  constructor
  · rintro ⟨t, ht, rfl⟩
    obtain ⟨hmem, hkind⟩ := List.mem_filter.mp ht
    exact ⟨t, hmem, by simpa using hkind, rfl⟩
  · rintro ⟨t, ht, hkind, rfl⟩
    exact ⟨t, List.mem_filter.mpr ⟨ht, by simpa using hkind⟩, rfl⟩

theorem piece_of_mem_locate {ps : List Piece} {start : Nat} {t : Token}
    (h : t ∈ locate start ps) :
    ∃ front back, ps = front ++ .token t.kind t.text.toList :: back ∧
      t.start = start + byteLength (front.flatMap Piece.text) := by
  induction ps generalizing start with
  | nil => exact absurd h List.not_mem_nil
  | cons p ps ih =>
      have later : ∀ {stop : Nat}, stop = start + byteLength p.text → t ∈ locate stop ps →
          ∃ front back, p :: ps = front ++ .token t.kind t.text.toList :: back ∧
            t.start = start + byteLength (front.flatMap Piece.text) := by
        rintro stop rfl hmem
        obtain ⟨front, back, rfl, hstart⟩ := ih hmem
        refine ⟨p :: front, back, rfl, ?_⟩
        rw [hstart, List.flatMap_cons, byteLength_append, Nat.add_assoc]
      cases p with
      | gap g => exact later rfl h
      | token kind text =>
          rcases List.mem_cons.mp h with rfl | h
          · exact ⟨[], ps, by simp, rfl⟩
          · exact later rfl h

/-- The byte in front of the token is a dot. -/
def Token.AfterDot (source : String) (t : Token) : Prop :=
  ∃ i, t.start = i + 1 ∧ (utf8 source)[i]?.map Char.ofUInt8 = some '.'

theorem ends_with_dot {front rest : List Char} {i : Nat} (hlength : byteLength front = i + 1)
    (hdot : (encode (front ++ rest))[i]?.map Char.ofUInt8 = some '.') :
    ∃ before, front = before ++ ['.'] := by
  rcases List.eq_nil_or_concat front with rfl | ⟨before, c, rfl⟩
  · exact absurd hlength (Nat.succ_ne_zero i).symm
  · have hlast : (encode (before ++ [c]) ++ encode rest)[i]? =
        (String.utf8EncodeChar c).getLast? := by
      have hlen : (encode (before ++ [c])).length = i + 1 := by
        rw [length_encode, ← List.concat_eq_append, hlength]
      rw [List.getElem?_append_left (by omega), ← getLast?_append_encode [] before c,
        List.nil_append, List.getLast?_eq_getElem?, hlen, Nat.add_sub_cancel]
    rw [List.concat_eq_append, encode_append, hlast] at hdot
    obtain ⟨b, hb, hbdot⟩ := Option.map_eq_some_iff.mp hdot
    have hc : c = '.' := (ofUInt8_eq_iff (by decide) (List.mem_of_getLast? hb)).mp hbdot
    exact ⟨before, by rw [List.concat_eq_append, hc]⟩

theorem mem_propertyNames_of_afterDot {source : String} {t : Token} (ht : t ∈ tokens source)
    (hkind : t.kind = .name) (hdot : t.AfterDot source) :
    t.text.toList ∈ Site.propertyNames source.toList := by
  obtain ⟨front, back, hpieces, hstart⟩ := piece_of_mem_locate ht
  obtain ⟨i, hi, hbyte⟩ := hdot
  have htext : source.toList =
      front.flatMap Piece.text ++ (t.text.toList ++ back.flatMap Piece.text) := by
    rw [← flatMap_text_cut true source.toList, ← pieces_eq_cut, hpieces]
    simp [Piece.text]
  rw [hkind, pieces_eq_cut] at hpieces
  obtain ⟨hvalid, -, hends⟩ := name_in_cut source.toList hpieces
  rw [utf8_eq_encode, htext] at hbyte
  obtain ⟨before, hfront⟩ := ends_with_dot (by omega) hbyte
  refine Site.mem_propertyNames_iff.mpr (Site.dot_infix_iff.mpr
    ⟨before, back.flatMap Piece.text, ?_, hvalid, hends⟩)
  rw [htext, hfront]
  simp

/-! ## Protection -/

theorem Protection.allows_iff {extra : List String} {name : String} :
    (Protection.mk extra).allows name = true ↔
      name ∉ reservedWords ∧ name ∉ hostNames ∧ name ∉ extra := by
  simp [Protection.allows, Protection.covers, isReserved]

/-! ## What suspects are -/

namespace Suspects

theorem looksScrambled_of_mem {protection : Protection} {source x : String}
    (h : x ∈ (ofSource protection source).names) : Name.looksScrambled x.toList = true := by
  rcases List.mem_append.mp (List.mem_filter.mp (mem_distinct.mp h)).1 with hx | hx
  · exact looksScrambled_of_isNumbered (List.mem_filter.mp hx).2
  · exact (mem_introducedNames_iff.mp hx).1

theorem mem_names_of_allows {protection : Protection} {source x : String}
    (hallow : protection.allows x = true)
    (h : x ∈ numberedNames source ∨ x ∈ introducedNames source) :
    x ∈ (ofSource protection source).names :=
  mem_distinct.mpr (List.mem_filter.mpr ⟨List.mem_append.mpr h, hallow⟩)

/-- The suspects of a source are tokens of it. -/
structure FromTokens (extra : List String) (source : String) (s : Suspects) : Prop where
  namesOnce : s.names.Nodup
  numbersOnce : s.numbers.Nodup
  names_sound : ∀ x ∈ s.names,
    (∃ t ∈ tokens source, t.kind = .name ∧ t.text = x) ∧ Name.looksScrambled x.toList = true ∧
      x ∉ reservedWords ∧ x ∉ hostNames ∧ x ∉ extra
  names_complete : ∀ t ∈ tokens source, t.kind = .name →
    t.text ∉ reservedWords → t.text ∉ hostNames → t.text ∉ extra →
    Name.isNumbered t.text.toList = true ∨
      (Name.looksScrambled t.text.toList = true ∧ t.AfterDot source) →
    t.text ∈ s.names
  numbers_eq : s.numbers = (((tokens source).filter fun t => t.kind = .number).map
    Token.text |>.filter fun x => Literal.looksScrambled x.toList).eraseDups
  numbers_uncommon : ∀ x ∈ s.numbers, x ∉ Literal.commonNumbers

theorem not_common_of_looksScrambled {x : String} (h : Literal.looksScrambled x.toList = true) :
    x ∉ Literal.commonNumbers := by
  rw [Literal.looksScrambled] at h
  split at h
  · exact Bool.noConfusion h
  · rw [Bool.and_eq_true] at h
    simpa [Literal.isCommon] using h.1

theorem fromTokens_ofSource (extra : List String) (source : String) :
    FromTokens extra source (ofSource ⟨extra⟩ source) where
  namesOnce := nodup_distinct _
  numbersOnce := nodup_distinct _
  names_sound := by
    intro x hx
    obtain ⟨htoken, hallow⟩ := names_ofSource_subset hx
    exact ⟨mem_tokenTexts_iff.mp htoken, looksScrambled_of_mem hx, Protection.allows_iff.mp hallow⟩
  names_complete := by
    intro t ht hkind hreserved hhost hextra hshape
    refine mem_names_of_allows (Protection.allows_iff.mpr ⟨hreserved, hhost, hextra⟩) ?_
    rcases hshape with hnumbered | ⟨hlooks, hdot⟩
    · exact Or.inl (List.mem_filter.mpr
        ⟨mem_tokenTexts_iff.mpr ⟨t, ht, hkind, rfl⟩, hnumbered⟩)
    · refine Or.inr (mem_introducedNames_iff.mpr ⟨hlooks, ?_⟩)
      exact List.mem_append_right _ (mem_propertyNames_of_afterDot ht hkind hdot)
  numbers_eq := by
    rw [← tokenTexts_eq_map, ← distinct_eq_eraseDups]
    rfl
  numbers_uncommon := by
    intro x hx
    exact not_common_of_looksScrambled (List.mem_filter.mp (mem_distinct.mp hx)).2

end Suspects

/-! ## The keys of a report -/

theorem mem_names_reportOf {o : Options} {source k : String} :
    k ∈ (reportOf o source).names ↔ k ∈ (Suspects.ofSource o.protection source).names := by
  have hstart : k ∉ (if o.reserveSourceNames then ({} : Renaming).reserveNames source
      else {}).names := by
    split_ifs <;> exact Std.TreeMap.not_mem_emptyc
  rw [names_reportOf, Renaming.ofSource, Renaming.names_addNumbers, Renaming.mem_names_addNames]
  constructor
  · rintro (h | ⟨h, -⟩)
    · exact absurd h hstart
    · exact h
  · intro h
    exact Or.inr ⟨h, (Suspects.names_ofSource_subset h).2⟩

theorem mem_numbers_reportOf {o : Options} {source k : String} :
    k ∈ (reportOf o source).numbers ↔ k ∈ (Suspects.ofSource o.protection source).numbers := by
  have hstart : k ∉ (if o.reserveSourceNames then ({} : Renaming).reserveNames source
      else {}).numbers := by
    split_ifs <;> exact Std.TreeMap.not_mem_emptyc
  rw [numbers_reportOf, Renaming.ofSource, Renaming.mem_numbers_addNumbers,
    Renaming.numbers_addNames]
  exact or_iff_right hstart

/-- The suspects of a script are tokens of it, and in a run over a script that is not blank
they are what gets a replacement. -/
theorem suspects_from_tokens (extra : List String) (source : String) :
    Suspects.FromTokens extra source (Suspects.ofSource ⟨extra⟩ source) ∧
    ∀ decodeNumbers reserveSourceNames : Bool, isBlankText source = false →
      ∃ report, unmask ⟨decodeNumbers, extra, reserveSourceNames⟩ source = .ok report ∧
        (∀ k, k ∈ report.names ↔ k ∈ (Suspects.ofSource ⟨extra⟩ source).names) ∧
        ∀ k, k ∈ report.numbers ↔ k ∈ (Suspects.ofSource ⟨extra⟩ source).numbers := by
  refine ⟨Suspects.fromTokens_ofSource extra source, fun decodeNumbers reserve hsource => ?_⟩
  exact ⟨_, unmask_eq_ok _ hsource, fun k => mem_names_reportOf, fun k => mem_numbers_reportOf⟩

/-- A property that is listed, one that is protected, a name at no site, and a number that
occurs twice. -/
theorem suspects_from_tokens_property :
    isBlankText "o.qW = xY(777, 0x10, -0x20, 777, 16).zZ" = false ∧
      Token.mk .name "qW" 2 4 ∈ tokens "o.qW = xY(777, 0x10, -0x20, 777, 16).zZ" ∧
      (Token.mk .name "qW" 2 4).AfterDot "o.qW = xY(777, 0x10, -0x20, 777, 16).zZ" ∧
      "qW" ∈ (Suspects.ofSource ⟨["zZ"]⟩ "o.qW = xY(777, 0x10, -0x20, 777, 16).zZ").names ∧
      (Suspects.ofSource ⟨["zZ"]⟩ "o.qW = xY(777, 0x10, -0x20, 777, 16).zZ").numbers =
        ["777", "0x10", "-0x20"] ∧
      ∃ report, unmask ⟨false, ["zZ"], true⟩ "o.qW = xY(777, 0x10, -0x20, 777, 16).zZ" =
          .ok report ∧ "qW" ∈ report.names ∧ "zZ" ∉ report.names ∧ "-0x20" ∈ report.numbers := by
  have hblank : isBlankText "o.qW = xY(777, 0x10, -0x20, 777, 16).zZ" = false := by decide
  have htoken : Token.mk .name "qW" 2 4 ∈ tokens "o.qW = xY(777, 0x10, -0x20, 777, 16).zZ" := by
    decide +kernel
  have hdot : (Token.mk .name "qW" 2 4).AfterDot "o.qW = xY(777, 0x10, -0x20, 777, 16).zZ" :=
    ⟨1, rfl, by rw [utf8_eq_encode]; decide +kernel⟩
  obtain ⟨hfrom, hrun⟩ := suspects_from_tokens ["zZ"] "o.qW = xY(777, 0x10, -0x20, 777, 16).zZ"
  have hlisted := hfrom.names_complete _ htoken rfl (by decide) (by decide) (by decide)
    (Or.inr ⟨by decide, hdot⟩)
  have hnumbers : (Suspects.ofSource ⟨["zZ"]⟩ "o.qW = xY(777, 0x10, -0x20, 777, 16).zZ").numbers =
      ["777", "0x10", "-0x20"] := by
    decide +kernel
  obtain ⟨report, hreport, hnames, hkeys⟩ := hrun false true hblank
  refine ⟨hblank, htoken, hdot, hlisted, hnumbers, report, hreport, (hnames _).mpr hlisted, ?_, ?_⟩
  · intro h
    exact (hfrom.names_sound _ ((hnames _).mp h)).2.2.2.2 (by decide)
  · rw [hkeys, hnumbers]
    decide

end Unmask
