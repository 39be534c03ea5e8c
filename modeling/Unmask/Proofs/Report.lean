/-
# `Unmask.Proofs.Report` — what a report says about its script

Four results about a whole run, each for every script that is not blank.

**One pass.**  The text of a report is one pass over the tokens of the script,
though it is made in two, the second over what the first has changed.  The same
holds of every renaming that can be reached, used on any text.

**What is replaced is gone.**  When the names of the script are reserved and
numbers become letters, no key of either mapping is a token of the result.

**Nothing is captured.**  When the names of the script are reserved, the new
names are pairwise different and foreign to the script, so the inverse mapping
takes the new names back to the old.

**Nothing is lost.**  When numbers become letters as well, and no letters are at
the same time a word, the two inverse mappings bring back the whole script.

All but the first rest on the same facts about the renaming of a script
(`Renaming.ofSource`): its keys are names of the script, its new names are not,
and neither are its letters.
-/
import Unmask.Proofs.RenamingHistory
import Unmask.Proofs.SiteNames
import Unmask.Unmasking

namespace Unmask

/-! ## Tokens and pieces -/

theorem filter_locate (kind : TokenKind) : ∀ (ps : List Piece) (start : Nat),
    ((locate start ps).filter fun t => t.kind = kind).map Token.text =
      ps.filterMap (Piece.tokenText? kind) := by
  intro ps
  induction ps with
  | nil => intro start; rfl
  | cons p ps ih =>
      intro start
      cases p with
      | gap t => exact ih _
      | token k t =>
          by_cases hk : k = kind
          · simp [locate, Piece.tokenText?, hk, ih]
          · simp [locate, Piece.tokenText?, hk, ih]

theorem mem_tokenTexts_of_mem_tokens {source : String} {t : Token} (h : t ∈ tokens source) :
    t.text ∈ tokenTexts t.kind source := by
  rw [tokenTexts, ← filter_locate t.kind _ 0]
  exact List.mem_map_of_mem (List.mem_filter.mpr ⟨h, by simp⟩)

theorem Piece.respelled_eq_name {kind : TokenKind} {m : Mapping} {p : Piece} {t : List Char}
    (h : p.respelled kind m = .token .name t) :
    (p = .token .name t ∧ (kind = .name → m[String.ofList t]? = none)) ∨
      ∃ u, p = .token kind u ∧ m[String.ofList u]? = some (String.ofList t) := by
  cases p with
  | gap g => exact Piece.noConfusion h
  | token k u =>
      simp only [Piece.respelled] at h
      split_ifs at h with hk
      · subst hk
        cases hm : m[String.ofList u]? with
        | none =>
            rw [hm] at h
            obtain ⟨rfl, rfl⟩ := Piece.token.inj h
            exact Or.inl ⟨rfl, fun _ => hm⟩
        | some new =>
            rw [hm] at h
            obtain ⟨-, rfl⟩ := Piece.token.inj h
            exact Or.inr ⟨u, rfl, by rw [hm, String.ofList_toList]⟩
      · obtain ⟨rfl, rfl⟩ := Piece.token.inj h
        exact Or.inl ⟨rfl, fun hname => absurd hname.symm hk⟩

theorem Piece.respelled_eq_number {kind : TokenKind} {m : Mapping} {p : Piece} {t : List Char}
    (h : p.respelled kind m = .token .number t) :
    p = .token .number t ∧ (kind = .number → m[String.ofList t]? = none) := by
  cases p with
  | gap g => exact Piece.noConfusion h
  | token k u =>
      simp only [Piece.respelled] at h
      split_ifs at h with hk
      · subst hk
        cases hm : m[String.ofList u]? with
        | none =>
            rw [hm] at h
            obtain ⟨rfl, rfl⟩ := Piece.token.inj h
            exact ⟨rfl, fun _ => hm⟩
        | some new =>
            rw [hm] at h
            exact TokenKind.noConfusion (Piece.token.inj h).1
      · obtain ⟨rfl, rfl⟩ := Piece.token.inj h
        exact ⟨rfl, fun hnumber => absurd hnumber.symm hk⟩

/-! ## The renaming of a script -/

namespace Renaming

theorem ofSource_eq_after (o : Options) (source : String) :
    ofSource o source =
      after ((if o.reserveSourceNames then [.reserve source] else []) ++
        [.nameAll source (Suspects.ofSource o.protection source).names o.protection,
          .numberAll (Suspects.ofSource o.protection source).numbers o.numberStyle]) := by
  unfold ofSource
  split_ifs <;> rfl

theorem sound_ofSource (o : Options) (source : String) : Sound (ofSource o source) := by
  rw [ofSource_eq_after]
  exact sound_after _

theorem mem_tokenTexts_of_mem_names {o : Options} {source k : String}
    (h : k ∈ (ofSource o source).names) : k ∈ tokenTexts .name source := by
  rw [ofSource, names_addNumbers, mem_names_addNames] at h
  rcases h with h | ⟨hk, -⟩
  · split_ifs at h <;> exact absurd h (by simp [reserveNames])
  · exact (Suspects.names_ofSource_subset hk).1

/-- The renaming of a script when its names are reserved: what comes after that
operation, and what comes after the names have got their words. -/
theorem extends_ofSource {o : Options} {source : String} (hreserve : o.reserveSourceNames = true) :
    Extends (after [.reserve source]) (ofSource o source) := by
  rw [ofSource_eq_after, if_pos hreserve]
  exact extends_after [.reserve source] _

theorem extendsByLetters_ofSource {o : Options} (source : String)
    (hreserve : o.reserveSourceNames = true) (hletters : o.decodeNumbers = false) :
    ∃ r : Renaming, r.numbers = ∅ ∧ Extends (after [.reserve source]) r ∧
      ExtendsByLetters r (ofSource o source) := by
  have hstyle : o.numberStyle = .letters := by simp [Options.numberStyle, hletters]
  refine ⟨after [.reserve source, .nameAll source (Suspects.ofSource o.protection source).names
    o.protection], numbers_addNames _ _ _ _, extends_after [.reserve source] [_], ?_⟩
  rw [ofSource, if_pos hreserve, hstyle]
  exact extendsByLetters_addNumbers _ _

theorem taken_of_mem_tokenTexts {source x : String} (h : x ∈ tokenTexts .name source) :
    x ∈ (after [.reserve source]).supply.issued ∧ x ∈ (after [.reserve source]).supply.occupied :=
  taken_of_mem_withheldBy (by simpa [withheldBy, RenamingStep.withheld] using h)

/-- A new name is no name of the script, if those are reserved. -/
theorem not_mem_of_names {o : Options} {source k v : String}
    (hreserve : o.reserveSourceNames = true) (h : (ofSource o source).names[k]? = some v) :
    v ∉ tokenTexts .name source := by
  intro hv
  have hnone : k ∉ (after [.reserve source]).names := Std.TreeMap.not_mem_emptyc
  exact ((extends_ofSource hreserve).newWord hnone h).2 (taken_of_mem_tokenTexts hv).1

/-- Letters are a valid name and no name of the script, if those are reserved. -/
theorem letters_of_numbers {o : Options} {source k v : String}
    (hreserve : o.reserveSourceNames = true) (hletters : o.decodeNumbers = false)
    (h : (ofSource o source).numbers[k]? = some v) :
    Name.isValid v.toList = true ∧ v ∉ tokenTexts .name source := by
  obtain ⟨r, hnone, hwords, hr⟩ := extendsByLetters_ofSource source hreserve hletters
  have hnew : k ∉ r.numbers := by
    rw [hnone]
    exact Std.TreeMap.not_mem_emptyc
  obtain ⟨-, hfree, n, rfl, -⟩ := hr.newLetters hnew h
  refine ⟨?_, fun hmem => hfree (hwords.occupied (taken_of_mem_tokenTexts hmem).2)⟩
  rw [String.toList_ofList]
  exact isValid_letters n

theorem injective_numbers {o : Options} (source : String)
    (hreserve : o.reserveSourceNames = true) (hletters : o.decodeNumbers = false) :
    (ofSource o source).numbers.Injective := by
  obtain ⟨r, hnone, -, hr⟩ := extendsByLetters_ofSource source hreserve hletters
  have hnew : ∀ l : String, l ∉ r.numbers := by
    intro l
    rw [hnone]
    exact Std.TreeMap.not_mem_emptyc
  intro a b v ha hb
  exact hr.distinct (hnew a) (hnew b) ha hb

end Renaming

theorem names_reportOf (o : Options) (source : String) :
    (reportOf o source).names = (Renaming.ofSource o source).names := rfl

theorem numbers_reportOf (o : Options) (source : String) :
    (reportOf o source).numbers = (Renaming.ofSource o source).numbers := rfl

theorem commands_reportOf (o : Options) (source : String) :
    (reportOf o source).commands = ShellCommand.inText (reportOf o source).text := by
  simp only [reportOf]

theorem unmask_eq_ok (o : Options) {source : String} (h : isBlankText source = false) :
    unmask o source = .ok (reportOf o source) := by
  simp [unmask, checkScript, h]

/-! ## One pass -/

theorem text_reportOf (o : Options) (source : String) :
    (reportOf o source).text =
      rewriteOnce (reportOf o source).names (reportOf o source).numbers source :=
  replaceTokens_replaceTokens (Renaming.sound_ofSource o source).valid _ source

/-- The text of a report is one pass over the tokens of the script, and a
renaming that can be reached does the same to any text. -/
theorem unmask_rewrites_once :
    (∀ (o : Options) (source : String), isBlankText source = false →
      ∃ report, unmask o source = .ok report ∧
        report.text = rewriteOnce report.names report.numbers source) ∧
    ∀ (steps : List RenamingStep) (text : String),
      (Renaming.after steps).apply text =
        rewriteOnce (Renaming.after steps).names (Renaming.after steps).numbers text := by
  refine ⟨fun o source hsource => ⟨_, unmask_eq_ok o hsource, ?_⟩, fun steps text => ?_⟩
  · exact text_reportOf o source
  · exact replaceTokens_replaceTokens (Renaming.sound_after steps).valid _ text

/-- A sign that belongs to a number, and one that does not. -/
theorem unmask_rewrites_once_signs :
    isBlankText "var _0x1a2b = -0x20; q = _0x1a2b-0x20;" = false ∧
      ∃ report, unmask {} "var _0x1a2b = -0x20; q = _0x1a2b-0x20;" = .ok report ∧
        report.text = rewriteOnce report.names report.numbers
          "var _0x1a2b = -0x20; q = _0x1a2b-0x20;" :=
  ⟨by decide, unmask_rewrites_once.1 _ _ (by decide)⟩

/-! ## What is replaced is gone -/

theorem pieces_reportOf {o : Options} {source : String} (hreserve : o.reserveSourceNames = true)
    (hletters : o.decodeNumbers = false) :
    pieces (reportOf o source).text.toList =
      ((pieces source.toList).map (Piece.respelled .name (reportOf o source).names)).map
        (Piece.respelled .number (reportOf o source).numbers) := by
  have hnames : (reportOf o source).names.Valid := (Renaming.sound_ofSource o source).valid
  have hnumbers : (reportOf o source).numbers.Valid :=
    fun _ _ h => (Renaming.letters_of_numbers hreserve hletters h).1
  have htext : (reportOf o source).text = replaceTokens .number (reportOf o source).numbers
      (replaceTokens .name (reportOf o source).names source) := rfl
  rw [htext, pieces_replaceTokens hnumbers, pieces_replaceTokens hnames]

/-- No token of the result is a key of the mapping for its kind. -/
theorem unmask_leaves_no_key (o : Options) (source : String)
    (hletters : o.decodeNumbers = false) (hreserve : o.reserveSourceNames = true)
    (hsource : isBlankText source = false) :
    ∃ report, unmask o source = .ok report ∧
      ∀ t ∈ tokens report.text,
        (t.kind = .name → t.text ∉ report.names) ∧
        (t.kind = .number → t.text ∉ report.numbers) := by
  refine ⟨_, unmask_eq_ok o hsource, fun t ht => ?_⟩
  have hpiece := mem_tokenTexts.mp (mem_tokenTexts_of_mem_tokens ht)
  rw [pieces_reportOf hreserve hletters] at hpiece
  obtain ⟨q, hq, htq⟩ := List.mem_map.mp hpiece
  obtain ⟨p, hp, rfl⟩ := List.mem_map.mp hq
  have hname : ∀ {k : String}, k ∈ (reportOf o source).names → k ∈ tokenTexts .name source :=
    Renaming.mem_tokenTexts_of_mem_names
  constructor
  · intro hkind hkey
    rw [hkind] at htq
    -- A name of the result is a name without a replacement, a new name, or letters.
    rcases Piece.respelled_eq_name htq with ⟨hq, -⟩ | ⟨u, -, hu⟩
    · rcases Piece.respelled_eq_name hq with ⟨-, hnone⟩ | ⟨u, -, hu⟩
      · rw [Std.TreeMap.mem_iff_isSome_getElem?] at hkey
        have := hnone rfl
        rw [String.ofList_toList] at this
        simp [this] at hkey
      · rw [String.ofList_toList] at hu
        exact Renaming.not_mem_of_names hreserve hu (hname hkey)
    · rw [String.ofList_toList] at hu
      exact (Renaming.letters_of_numbers hreserve hletters hu).2 (hname hkey)
  · intro hkind hkey
    rw [hkind] at htq
    have hnone := (Piece.respelled_eq_number htq).2 rfl
    rw [String.ofList_toList] at hnone
    rw [Std.TreeMap.mem_iff_isSome_getElem?, hnone] at hkey
    exact Bool.noConfusion hkey

theorem unmask_leaves_no_key_signs :
    isBlankText "var a = 0x30-0x20, _0x1a2b = (-0x20) + 0x5;" = false ∧
      ∃ report, unmask {} "var a = 0x30-0x20, _0x1a2b = (-0x20) + 0x5;" = .ok report ∧
        ∀ t ∈ tokens report.text,
          (t.kind = .name → t.text ∉ report.names) ∧
          (t.kind = .number → t.text ∉ report.numbers) :=
  ⟨by decide, unmask_leaves_no_key _ _ rfl rfl (by decide)⟩

/-! ## Nothing is captured -/

def Mapping.inverse (m : Mapping) : Mapping := Std.TreeMap.ofList (m.toList.map Prod.swap)

theorem Mapping.Injective.getElem?_inverse {m : Mapping} (hm : m.Injective) {k v : String} :
    m.inverse[v]? = some k ↔ m[k]? = some v := by
  have hdistinct : (m.toList.map Prod.swap).Pairwise fun a b => ¬ compare a.1 b.1 = .eq := by
    rw [List.pairwise_map]
    refine (Std.TreeMap.distinct_keys_toList (t := m)).imp_of_mem fun {a b} ha hb hne heq => ?_
    rw [← Prod.mk.eta (p := a), Std.TreeMap.mem_toList_iff_getElem?_eq_some] at ha
    rw [← Prod.mk.eta (p := b), Std.TreeMap.mem_toList_iff_getElem?_eq_some] at hb
    have hval : a.2 = b.2 := Std.LawfulEqCmp.compare_eq_iff_eq.mp heq
    rw [hval] at ha
    exact hne (Std.LawfulEqCmp.compare_eq_iff_eq.mpr (hm ha hb))
  have hmem : ∀ {k : String}, (v, k) ∈ m.toList.map Prod.swap ↔ m[k]? = some v := by
    intro k
    rw [← Std.TreeMap.mem_toList_iff_getElem?_eq_some, List.mem_map]
    exact ⟨fun ⟨e, he, heq⟩ => by cases heq; exact he, fun h => ⟨_, h, rfl⟩⟩
  have hlookup : ∀ {k : String}, m[k]? = some v → m.inverse[v]? = some k := fun h =>
    Std.TreeMap.getElem?_ofList_of_mem Std.ReflCmp.compare_self hdistinct (hmem.mpr h)
  refine ⟨fun h => ?_, hlookup⟩
  have hin : v ∈ m.inverse := Mapping.mem_of_getElem? h
  rw [Mapping.inverse, Std.TreeMap.mem_ofList, List.contains_iff_mem, List.map_map] at hin
  obtain ⟨e, he, rfl⟩ := List.mem_map.mp hin
  have hfound : m.inverse[e.2]? = some e.1 :=
    hlookup (Std.TreeMap.mem_toList_iff_getElem?_eq_some.mp he)
  rw [show (Prod.fst ∘ Prod.swap) e = e.2 from rfl] at h ⊢
  rw [hfound] at h
  obtain rfl := Option.some.inj h
  exact Std.TreeMap.mem_toList_iff_getElem?_eq_some.mp he

/-- A mapping of one kind of token to names that the text does not have is undone
by its inverse. -/
theorem replaceTokens_inverse {m : Mapping} (hvalid : m.Valid) (hinj : m.Injective)
    {kind : TokenKind} {text : String}
    (hfresh : ∀ {k v : String}, m[k]? = some v → v ∉ tokenTexts .name text) :
    replaceTokens .name m.inverse (replaceTokens kind m text) = text := by
  -- A name that is left as it was is no value of the mapping.
  have hleft : ∀ {t : List Char}, .token .name t ∈ pieces text.toList →
      m.inverse[String.ofList t]? = none := by
    intro t ht
    by_contra hne
    obtain ⟨k, hk⟩ := Option.ne_none_iff_exists'.mp hne
    refine hfresh (hinj.getElem?_inverse.mp hk) (mem_tokenTexts.mpr ?_)
    rwa [String.toList_ofList]
  have hback : ∀ p ∈ pieces text.toList,
      (p.respelled kind m).replaced .name m.inverse = p.text := by
    intro p hp
    cases p with
    | gap t => rfl
    | token k t =>
        by_cases hk : k = kind
        · subst hk
          cases hm : m[String.ofList t]? with
          | some new =>
              have hinv : m.inverse[new]? = some (String.ofList t) :=
                hinj.getElem?_inverse.mpr hm
              simp [Piece.respelled, Piece.replaced, Piece.text, hm, hinv]
          | none =>
              cases k with
              | name => simp [Piece.respelled, Piece.replaced, Piece.text, hm, hleft hp]
              | number => simp [Piece.respelled, Piece.replaced, Piece.text, hm]
        · cases k with
          | name => simp [Piece.respelled, Piece.replaced, Piece.text, hk, hleft hp]
          | number => simp [Piece.respelled, Piece.replaced, Piece.text, hk]
  rw [replaceTokens, pieces_replaceTokens hvalid, List.flatMap_map,
    List.flatMap_congr hback, pieces_eq_cut, flatMap_text_cut, String.ofList_toList]

/-- The new names are pairwise different and no names of the script, and the
inverse mapping brings the script back. -/
theorem unmask_names_undone (o : Options) (source : String)
    (hreserve : o.reserveSourceNames = true) (hsource : isBlankText source = false) :
    ∃ report, unmask o source = .ok report ∧
      report.names.Injective ∧
      (∀ {k v : String}, report.names[k]? = some v →
        ∀ t ∈ tokens source, t.kind = .name → t.text ≠ v) ∧
      replaceTokens .name report.names.inverse (replaceTokens .name report.names source) =
        source := by
  have hsound := Renaming.sound_ofSource o source
  refine ⟨_, unmask_eq_ok o hsource, hsound.injective, ?_, ?_⟩
  · rintro k v hv t ht hkind rfl
    have hmem := mem_tokenTexts_of_mem_tokens ht
    rw [hkind] at hmem
    exact Renaming.not_mem_of_names hreserve hv hmem
  · exact replaceTokens_inverse hsound.valid hsound.injective
      fun hv => Renaming.not_mem_of_names hreserve hv

/-- The script already has the first words that would be handed out. -/
theorem unmask_names_undone_taken :
    isBlankText "var element, container2, _0x1a2b, q = element;" = false ∧
      ∃ report, unmask {} "var element, container2, _0x1a2b, q = element;" = .ok report ∧
        report.names.Injective ∧
        (∀ {k v : String}, report.names[k]? = some v →
          ∀ t ∈ tokens "var element, container2, _0x1a2b, q = element;",
            t.kind = .name → t.text ≠ v) ∧
        replaceTokens .name report.names.inverse (replaceTokens .name report.names
          "var element, container2, _0x1a2b, q = element;") =
          "var element, container2, _0x1a2b, q = element;" :=
  ⟨by decide, unmask_names_undone _ _ rfl (by decide)⟩

/-! ## Nothing is lost -/

/-- No replacement is in both mappings. -/
def Mapping.Apart (m m' : Mapping) : Prop :=
  ∀ k l v : String, m[k]? = some v → m'[l]? ≠ some v

instance (m m' : Mapping) : Decidable (m.Apart m') :=
  decidable_of_iff (∀ e ∈ m.toList, ∀ e' ∈ m'.toList, e.2 ≠ e'.2) <| by
    constructor
    · intro h k l v hk hl
      exact h (k, v) (Std.TreeMap.mem_toList_iff_getElem?_eq_some.mpr hk) (l, v)
        (Std.TreeMap.mem_toList_iff_getElem?_eq_some.mpr hl) rfl
    · rintro h ⟨k, v⟩ hk ⟨l, w⟩ hl rfl
      exact h k l v (Std.TreeMap.mem_toList_iff_getElem?_eq_some.mp hk)
        (Std.TreeMap.mem_toList_iff_getElem?_eq_some.mp hl)

theorem mem_tokenTexts_replaceTokens {m : Mapping} (hm : m.Valid) {text x : String}
    (h : x ∈ tokenTexts .name (replaceTokens .name m text)) :
    x ∈ tokenTexts .name text ∨ ∃ k : String, m[k]? = some x := by
  rw [mem_tokenTexts, pieces_replaceTokens hm] at h
  obtain ⟨p, hp, hx⟩ := List.mem_map.mp h
  rcases Piece.respelled_eq_name hx with ⟨rfl, -⟩ | ⟨u, -, hu⟩
  · exact Or.inl (mem_tokenTexts.mpr hp)
  · rw [String.ofList_toList] at hu
    exact Or.inr ⟨_, hu⟩

/-- When numbers become letters, both mappings can be read backwards, and doing
so brings the script back, first its numbers and then its names, provided no
letters are at the same time a word. -/
theorem unmask_undone (o : Options) (source : String) (hletters : o.decodeNumbers = false)
    (hreserve : o.reserveSourceNames = true) (hsource : isBlankText source = false) :
    ∃ report, unmask o source = .ok report ∧
      report.names.Injective ∧ report.numbers.Injective ∧
      (report.names.Apart report.numbers →
        replaceTokens .name report.names.inverse
          (replaceTokens .name report.numbers.inverse report.text) = source) := by
  have hsound := Renaming.sound_ofSource o source
  have hnumbers : (reportOf o source).numbers.Injective :=
    Renaming.injective_numbers source hreserve hletters
  refine ⟨_, unmask_eq_ok o hsource, hsound.injective, hnumbers, fun hapart => ?_⟩
  have hletters' : replaceTokens .name (reportOf o source).numbers.inverse
      (reportOf o source).text = replaceTokens .name (reportOf o source).names source := by
    refine replaceTokens_inverse
      (fun _ _ h => (Renaming.letters_of_numbers hreserve hletters h).1) hnumbers ?_
    intro l v hv hmem
    rcases mem_tokenTexts_replaceTokens hsound.valid hmem with hname | ⟨k, hk⟩
    · exact (Renaming.letters_of_numbers hreserve hletters hv).2 hname
    · exact hapart k l v hk hv
  rw [hletters']
  exact replaceTokens_inverse hsound.valid hsound.injective
    fun hv => Renaming.not_mem_of_names hreserve hv

/-- A script with the first letters among its names, a number that carries a sign
and the same number after an operand. -/
theorem unmask_undone_signs :
    isBlankText "var a = -0x20, _0x1a2b = b-0x20, q = 65;" = false ∧
      ∃ report, unmask {} "var a = -0x20, _0x1a2b = b-0x20, q = 65;" = .ok report ∧
        report.names.Injective ∧ report.numbers.Injective ∧
        report.names.Apart report.numbers ∧
        replaceTokens .name report.names.inverse
          (replaceTokens .name report.numbers.inverse report.text) =
          "var a = -0x20, _0x1a2b = b-0x20, q = 65;" := by
  have hblank : isBlankText "var a = -0x20, _0x1a2b = b-0x20, q = 65;" = false := by decide
  refine ⟨hblank, ?_⟩
  obtain ⟨report, hreport, hnames, hnumbers, hback⟩ := unmask_undone {} _ rfl rfl hblank
  have heq : report = reportOf {} "var a = -0x20, _0x1a2b = b-0x20, q = 65;" :=
    Except.ok.inj (hreport.symm.trans (unmask_eq_ok {} hblank))
  have hapart : report.names.Apart report.numbers := by
    rw [heq]
    decide +kernel
  exact ⟨report, hreport, hnames, hnumbers, hapart, hback hapart⟩

end Unmask
