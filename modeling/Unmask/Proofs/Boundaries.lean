/-
# `Unmask.Proofs.Boundaries` — sites told by tokens, and sites told by words

The rule for suspicious names speaks of tokens: a name is suspicious if it is
numbered, or if it looks scrambled and is introduced by the token before it or
the tokens behind it (`IntroducedBy`).  The search for sites looks at characters:
a keyword has to start at a word boundary, `function` has to end at one, and
matches do not overlap.  The two agree on ordinary texts and not on all.

* A dollar sign is a name character but no word character, and a letter outside
  ASCII is a word character but no name character.  A keyword that touches one of
  these is a token for one side only.
* Of two keywords in a row the second is taken for the name that the first one
  introduces, and is passed over as a keyword.

`names_not_by_tokens` shows a text for each of these.  A text is `Clear` when it has
no such place, and then the search finds what the rule says: `names_by_tokens`.

The proof goes through a description of sites that both sides can be brought to:
`KeywordAt` and `FunctionAt` say where a site stands in the text, character by
character, with nothing said about what touches it from outside.  What remains is
that no find covers the start of another site.  A site starts where a run starts,
and a find is made of a run, a gap and a run, so there is one such place in it
(`start_in_find`).
-/
import Unmask.Proofs.Correspondence

namespace Unmask

namespace Site

/-! ## The rule -/

def declarators : List String := ["var", "let", "const"]

def IsBlank (w : List Char) : Prop := ∀ c ∈ w, isBlank c = true

/-- Among these pieces there is a token of this name behind a keyword, in front of the
assignment of a function, or right behind a dot. -/
inductive IntroducedBy (ps : List Piece) (name : List Char) : Prop
  | declared {k : String} {blanks : List Char} : k ∈ declarators → blanks ≠ [] → IsBlank blanks →
      [.token .name k.toList, .gap blanks, .token .name name] <:+: ps → IntroducedBy ps name
  | function {blanks : List Char} : blanks ≠ [] → IsBlank blanks →
      [.token .name "function".toList, .gap blanks, .token .name name] <:+: ps →
      IntroducedBy ps name
  | assigned {left right : List Char} : IsBlank left → IsBlank right →
      [.token .name name, .gap (left ++ '=' :: right), .token .name "function".toList] <:+: ps →
      IntroducedBy ps name
  | property {gap : List Char} :
      [.gap (gap ++ ['.']), .token .name name] <:+: ps → IntroducedBy ps name

/-! ## Sites in the text -/

/-- A keyword, blanks and a whole name stand in a text behind `before`. -/
structure KeywordAt (text before keyword blanks name rest : List Char) : Prop where
  eq : text = before ++ (keyword ++ (blanks ++ (name ++ rest)))
  ne_nil : blanks ≠ []
  blank : IsBlank blanks
  valid : Name.isValid name = true
  ends : EndsRun rest

/-- A name, an equals sign and the letters of `function` stand in a text behind
`before`. -/
structure FunctionAt (text before name left right rest : List Char) : Prop where
  eq : text = before ++ (name ++ (left ++ '=' :: (right ++ ("function".toList ++ rest))))
  left : IsBlank left
  right : IsBlank right
  valid : Name.isValid name = true

/-- Nothing in a text tells names from words at a site, and no keyword is the name of
a site. -/
structure Clear (text : List Char) : Prop where
  start : ∀ k ∈ declarators ++ ["function"], ∀ {before blanks name rest : List Char},
    KeywordAt text before k.toList blanks name rest →
      ∀ c ∈ before.getLast?, isWordChar c = Name.isPart c
  stop : ∀ {before name left right rest : List Char},
    FunctionAt text before name left right rest →
      ∀ c ∈ rest.head?, isWordChar c = Name.isPart c
  single : ∀ ks ∈ [declarators, ["function"]], ∀ k ∈ ks, ∀ k' ∈ ks,
    ∀ {before blanks blanks' name rest rest' : List Char}, BeginsRun before →
      KeywordAt text before k.toList blanks k'.toList rest →
      ¬ KeywordAt text (before ++ (k.toList ++ blanks)) k'.toList blanks' name rest'

theorem IsBlank.isGap {w : List Char} (h : IsBlank w) : IsGap w :=
  fun c hc => isPart_of_isBlank (h c hc)

theorem isGap_equals {left right : List Char} (hleft : IsBlank left) (hright : IsBlank right) :
    IsGap (left ++ '=' :: right) := by
  intro c hc
  simp only [List.mem_append, List.mem_cons] at hc
  rcases hc with hc | rfl | hc
  · exact hleft.isGap c hc
  · decide
  · exact hright.isGap c hc

/-! ## From pieces to characters and back -/

theorem pair_infix_iff {a g b text : List Char} (hg : IsGap g) (hne : g ≠ []) :
    [.token .name a, .gap g, .token .name b] <:+: pieces text ↔
      ∃ before rest, text = before ++ (a ++ (g ++ (b ++ rest))) ∧ BeginsRun before ∧
        Name.isValid a = true ∧ Name.isValid b = true ∧ EndsRun rest := by
  constructor
  · rintro ⟨ps, qs, h⟩
    have htext := flatMap_text_cut true text
    rw [← pieces_eq_cut, ← h] at htext
    have hfirst : cut true text = ps ++ .token .name a :: (.gap g :: .token .name b :: qs) := by
      rw [← pieces_eq_cut, ← h]
      simp
    have hsecond : cut true text = (ps ++ [.token .name a, .gap g]) ++ .token .name b :: qs := by
      rw [← pieces_eq_cut, ← h]
      simp
    obtain ⟨hvalid, hbegins, -⟩ := name_in_cut text hfirst
    obtain ⟨hvalid', -, hends⟩ := name_in_cut text hsecond
    refine ⟨ps.flatMap Piece.text, qs.flatMap Piece.text, ?_, hbegins, hvalid, hvalid', hends⟩
    rw [← htext]
    simp [Piece.text]
  · rintro ⟨before, rest, rfl, hbegins, ha, hb, hends⟩
    have hgap : EndsRun (g ++ (b ++ rest)) := hg.endsRun.append hne _
    have hcut := cut_at_run true hbegins (isRun_of_isValid ha) (isHexRun_of_isValid ha) hgap
    have hbeat := cut_beat false hg (isRun_of_isValid hb) hends
    rw [beat_of_isValid false g hb, Piece.ofGap_of_ne_nil hne, List.append_assoc] at hbeat
    refine ⟨cut true before, cut false rest, ?_⟩
    rw [pieces_eq_cut, ← List.append_assoc before, hcut, hbeat, ofBlock_of_isValid ha]
    simp

theorem cut_concat {c : Char} (hc : Name.isPart c = false) :
    ∀ (text u : List Char) (atStart : Bool), text = u ++ [c] →
      ∃ ps g, cut atStart text = ps ++ [.gap (g ++ [c])] := by
  intro text
  induction text using beat_induction with
  | gap g hg =>
      rintro u atStart rfl
      refine ⟨[], u, ?_⟩
      rw [cut_gap atStart hg, Piece.ofGap_of_ne_nil (by simp)]
      rfl
  | beat g r rest hg hr hrest ih =>
      intro u atStart htext
      -- The last character is no name character, so it is not the end of the run.
      rcases List.eq_nil_or_concat rest with rfl | ⟨v, d, rfl⟩
      · obtain ⟨w, d, rfl⟩ := (List.eq_nil_or_concat r).resolve_left hr.ne_nil
        have hd : d = c := by
          have hlast := congrArg List.getLast? htext
          simpa using hlast
        have hpart : Name.isPart d = true := hr.isPart d (by simp)
        rw [hd, hc] at hpart
        exact Bool.noConfusion hpart
      · have hd : d = c := by
          have hlast := congrArg List.getLast? htext
          simpa [← List.append_assoc] using hlast
        obtain ⟨ps, g', hps⟩ := ih v false (by rw [List.concat_eq_append, hd])
        refine ⟨beat atStart g r ++ ps, g', ?_⟩
        rw [cut_beat atStart hg hr hrest, hps, List.append_assoc]

theorem dot_infix_iff {name text : List Char} :
    (∃ gap, [.gap (gap ++ ['.']), .token .name name] <:+: pieces text) ↔
      ∃ before rest, text = before ++ '.' :: (name ++ rest) ∧ Name.isValid name = true ∧
        EndsRun rest := by
  constructor
  · rintro ⟨gap, ps, qs, h⟩
    have htext := flatMap_text_cut true text
    rw [← pieces_eq_cut, ← h] at htext
    have hname : cut true text = (ps ++ [.gap (gap ++ ['.'])]) ++ .token .name name :: qs := by
      rw [← pieces_eq_cut, ← h]
      simp
    obtain ⟨hvalid, -, hends⟩ := name_in_cut text hname
    refine ⟨ps.flatMap Piece.text ++ gap, qs.flatMap Piece.text, ?_, hvalid, hends⟩
    rw [← htext]
    simp [Piece.text]
  · rintro ⟨before, rest, rfl, hvalid, hends⟩
    obtain ⟨ps, g, hps⟩ := cut_concat (c := '.') (by decide) _ before true rfl
    have hbegins : BeginsRun (before ++ ['.']) := beginsRun_concat (by decide) before
    have hcut := cut_at_run true hbegins (isRun_of_isValid hvalid) (isHexRun_of_isValid hvalid)
      hends
    refine ⟨g, ps, cut false rest, ?_⟩
    have hassoc : before ++ '.' :: (name ++ rest) = before ++ ['.'] ++ name ++ rest := by simp
    rw [pieces_eq_cut, hassoc, hcut, hps, ofBlock_of_isValid hvalid]
    simp

/-! ## Where runs start -/

theorem not_beginsRun {w : List Char} (hw : IsRun w) : ¬ BeginsRun w := by
  intro h
  obtain ⟨v, c, rfl⟩ := (List.eq_nil_or_concat w).resolve_left hw.ne_nil
  have hc : Name.isPart c = false := h c (by simp)
  rw [hw.isPart c (by simp)] at hc
  exact Bool.noConfusion hc

theorem not_endsRun {r : List Char} (hr : IsRun r) (rest : List Char) :
    ¬ EndsRun (r ++ rest) := by
  intro h
  have hne : ([] : List Char) ≠ [] := EndsRun.gap_ne_nil h hr
  exact hne rfl

/-- A run that starts behind the start of another starts behind its end. -/
theorem past_run {r tail w v : List Char} (hr : IsRun r) (h : r ++ tail = w ++ v) (hne : w ≠ [])
    (hw : BeginsRun w) : ∃ w', w = r ++ w' ∧ w' ≠ [] ∧ tail = w' ++ v := by
  rcases List.append_eq_append_iff.mp h with ⟨m, rfl, htail⟩ | ⟨m, rfl, -⟩
  · refine ⟨m, rfl, ?_, htail⟩
    rintro rfl
    rw [List.append_nil] at hw
    exact not_beginsRun hr hw
  · have hrun : IsRun w := ⟨hne, fun c hc => hr.isPart c (List.mem_append_left m hc)⟩
    exact absurd hw (not_beginsRun hrun)

theorem past_gap {g tail w v : List Char} (hg : IsGap g) (h : g ++ tail = w ++ v)
    (hv : ¬ EndsRun v) : ∃ w', w = g ++ w' ∧ tail = w' ++ v := by
  rcases List.append_eq_append_iff.mp h with ⟨m, rfl, htail⟩ | ⟨m, rfl, rfl⟩
  · exact ⟨m, rfl, htail⟩
  · by_cases hm : m = []
    · subst hm
      exact ⟨[], by simp, rfl⟩
    · have hgap : IsGap m := fun c hc => hg c (List.mem_append_right w hc)
      exact absurd (hgap.endsRun.append hm tail) hv

theorem run_append_inj {r r' rest rest' : List Char} (hr : IsRun r) (hr' : IsRun r')
    (hrest : EndsRun rest) (hrest' : EndsRun rest') (h : r ++ rest = r' ++ rest') :
    r = r' ∧ rest = rest' := by
  obtain ⟨htake, hdrop⟩ := takeWhile_dropWhile_append hr.isPart hrest
  obtain ⟨htake', hdrop'⟩ := takeWhile_dropWhile_append hr'.isPart hrest'
  exact ⟨by rw [← htake, h, htake'], by rw [← hdrop, h, hdrop']⟩

theorem beginsRun_of_append {p w : List Char} (hne : w ≠ []) (h : BeginsRun (p ++ w)) :
    BeginsRun w := by
  intro c hc
  exact h c (by rwa [List.getLast?_append_of_ne_nil p hne])

/-- A find is made of a run, a gap and a run.  The only other place in it where a run can
start is behind the gap. -/
theorem start_in_find {r g r' rest w after : List Char} (hr : IsRun r) (hg : IsGap g)
    (hr' : IsRun r') (h : r ++ (g ++ (r' ++ rest)) = w ++ after) (hne : w ≠ []) (hw : BeginsRun w)
    (hafter : ¬ EndsRun after) (hlength : w.length < r.length + g.length + r'.length) :
    w = r ++ g ∧ r' ++ rest = after := by
  obtain ⟨v, rfl, -, hv⟩ := past_run hr h hne hw
  obtain ⟨u, rfl, hu⟩ := past_gap hg hv hafter
  by_cases hnil : u = []
  · subst hnil
    exact ⟨by rw [List.append_nil], hu⟩
  · -- Behind the second run the find is over.
    have hbegins : BeginsRun u := by
      rw [← List.append_assoc] at hw
      exact beginsRun_of_append hnil hw
    obtain ⟨t, rfl, -, -⟩ := past_run hr' hu hnil hbegins
    simp only [List.length_append] at hlength
    omega

/-! ## Word boundaries -/

theorem startsWord_iff {before : List Char}
    (h : ∀ c ∈ before.getLast?, isWordChar c = Name.isPart c) :
    startsWord before.getLast? = true ↔ BeginsRun before := by
  rw [BeginsRun]
  cases hlast : before.getLast? with
  | none => simp [startsWord]
  | some c => simp [startsWord, h c hlast]

theorem endsWord_iff {rest : List Char} (h : ∀ c ∈ rest.head?, isWordChar c = Name.isPart c) :
    endsWord rest = true ↔ EndsRun rest := by
  rw [EndsRun]
  cases rest with
  | nil => simp [endsWord]
  | cons c cs => simp [endsWord, h c rfl]

/-! ## Names behind a keyword -/

theorem KeywordAt.shift {after keyword blanks name rest : List Char}
    (h : KeywordAt after [] keyword blanks name rest) (before : List Char) :
    KeywordAt (before ++ after) before keyword blanks name rest :=
  ⟨congrArg (before ++ ·) h.eq, h.ne_nil, h.blank, h.valid, h.ends⟩

theorem KeywordAt.endsRun {text before keyword blanks name rest : List Char}
    (h : KeywordAt text before keyword blanks name rest) : EndsRun (blanks ++ (name ++ rest)) :=
  h.blank.isGap.endsRun.append h.ne_nil _

theorem isBlank_head {name : List Char} (hvalid : Name.isValid name = true) (rest : List Char) :
    ∀ c ∈ (name ++ rest).head?, isBlank c = false := by
  intro c hc
  rw [← Bool.not_eq_true]
  intro hblank
  have hpart : Name.isPart c = true := by
    rw [List.head?_append_of_ne_nil _ (isRun_of_isValid hvalid).ne_nil] at hc
    exact (isRun_of_isValid hvalid).isPart c (List.mem_of_mem_head? hc)
  rw [isPart_of_isBlank hblank] at hpart
  exact Bool.noConfusion hpart

theorem keywordThenName?_eq_some_iff {keyword after name : List Char} {n : Nat} :
    keywordThenName? keyword after = some (name, n) ↔
      ∃ blanks rest, KeywordAt after [] keyword blanks name rest ∧
        n = keyword.length + blanks.length + name.length := by
  have hlength : ∀ {blanks name' rest : List Char},
      KeywordAt after [] keyword blanks name' rest → keywordThenName? keyword after =
        some (name', keyword.length + blanks.length + name'.length) := by
    intro blanks name' rest h
    obtain ⟨htake, hdrop⟩ := takeWhile_dropWhile_append h.blank (isBlank_head h.valid rest)
    have hsome : blanks.isEmpty = false := by simpa using h.ne_nil
    rw [h.eq, List.nil_append, keywordThenName?, isPrefixOf?_append]
    simp only [htake, hdrop, hsome, leadingName?_append h.valid h.ends, Bool.false_eq_true,
      if_false]
  constructor
  · intro h
    obtain ⟨blanks, rest, htext, hne, hblank, hvalid, hends⟩ := keywordThenName?_eq_some h
    have hat : KeywordAt after [] keyword blanks name rest :=
      ⟨by simpa using htext, hne, hblank, hvalid, hends⟩
    refine ⟨blanks, rest, hat, ?_⟩
    rw [hlength hat] at h
    exact (Prod.mk.inj (Option.some.inj h)).2.symm
  · rintro ⟨blanks, rest, hat, rfl⟩
    exact hlength hat

section Keywords

variable {keywords : List String}

theorem introduced?_eq_some_iff (hkeywords : ∀ k ∈ keywords, Name.isValid k.toList = true)
    {before : Option Char} {after name : List Char} {n : Nat} :
    introduced? keywords before after = some (name, n) ↔
      startsWord before = true ∧ ∃ k ∈ keywords, ∃ blanks rest,
        KeywordAt after [] k.toList blanks name rest ∧
          n = k.toList.length + blanks.length + name.length := by
  constructor
  · intro h
    obtain ⟨k, hk, hkey⟩ := introduced?_eq_some h
    refine ⟨?_, k, hk, keywordThenName?_eq_some_iff.mp hkey⟩
    rw [introduced?] at h
    split at h
    · split at h
      · assumption
      · cases h
    · cases h
  · rintro ⟨hword, k, hk, blanks, rest, hat, rfl⟩
    have hkey := keywordThenName?_eq_some_iff.mpr ⟨blanks, rest, hat, rfl⟩
    rw [introduced?]
    cases hfind : keywords.findSome? fun k => keywordThenName? k.toList after with
    | none =>
        rw [List.findSome?_eq_none_iff.mp hfind k hk] at hkey
        cases hkey
    | some found =>
        -- Only one keyword can stand at the start of a text, with a blank behind it.
        obtain ⟨name', n'⟩ := found
        obtain ⟨k', hk', hkey'⟩ := List.exists_of_findSome?_eq_some hfind
        obtain ⟨blanks', rest', hat', -⟩ := keywordThenName?_eq_some_iff.mp hkey'
        have hsame : k.toList = k'.toList :=
          (run_append_inj (isRun_of_isValid (hkeywords k hk)) (isRun_of_isValid (hkeywords k' hk'))
            hat.endsRun hat'.endsRun (hat.eq.symm.trans hat'.eq)).1
        rw [← hsame, hkey] at hkey'
        rw [← hkey']
        exact if_pos hword

/-- A find that covers the start of a keyword site takes its keyword for a name. -/
theorem KeywordAt.covered {k k' before after blanks blanks' name name' rest rest' : List Char}
    (hk : IsRun k) (hk' : IsRun k')
    (hat : KeywordAt (before ++ after) before k' blanks' name' rest')
    (hbefore : BeginsRun before) (hne : before ≠ [])
    (hfind : KeywordAt (before ++ after) [] k blanks name rest)
    (hlength : before.length < k.length + blanks.length + name.length) :
    before = k ++ blanks ∧ name = k' := by
  have hafter : after = k' ++ (blanks' ++ (name' ++ rest')) := List.append_cancel_left hat.eq
  have hstart : ¬ EndsRun after := by
    rw [hafter]
    exact not_endsRun hk' _
  have hname := isRun_of_isValid hfind.valid
  obtain ⟨heq, hrest⟩ := start_in_find hk hfind.blank.isGap hname hfind.eq.symm hne hbefore hstart
    hlength
  rw [hafter] at hrest
  exact ⟨heq, (run_append_inj hname hk' hfind.ends hat.endsRun hrest).1⟩

/-- In a clear text the names behind these keywords are those that stand behind such a
token. -/
theorem mem_introduced_iff {text name : List Char} (hclear : Clear text)
    (hfamily : keywords ∈ [declarators, ["function"]]) :
    name ∈ findAll (introduced? keywords) text ↔
      ∃ k ∈ keywords, ∃ blanks, blanks ≠ [] ∧ IsBlank blanks ∧
        [.token .name k.toList, .gap blanks, .token .name name] <:+: pieces text := by
  have hkeywords : ∀ k ∈ keywords, k ∈ declarators ++ ["function"] := by
    intro k hk
    simp only [List.mem_cons, List.not_mem_nil, or_false] at hfamily
    rcases hfamily with rfl | rfl
    · exact List.mem_append_left _ hk
    · exact List.mem_append_right _ hk
  have hvalid : ∀ k ∈ keywords, Name.isValid k.toList = true := by
    intro k hk
    have hall : ∀ k ∈ declarators ++ ["function"], Name.isValid k.toList = true := by decide
    exact hall k (hkeywords k hk)
  have hedge : ∀ k ∈ keywords, ∀ {before blanks name rest : List Char},
      KeywordAt text before k.toList blanks name rest →
        (startsWord before.getLast? = true ↔ BeginsRun before) := by
    intro k hk before blanks name rest hat
    exact startsWord_iff (hclear.start k (hkeywords k hk) hat)
  constructor
  · intro h
    obtain ⟨before, after, n, rfl, hanswer⟩ := mem_findAll h
    obtain ⟨hword, k, hk, blanks, rest, hat, -⟩ := (introduced?_eq_some_iff hvalid).mp hanswer
    have hbefore := (hedge k hk (hat.shift before)).mp hword
    refine ⟨k, hk, blanks, hat.ne_nil, hat.blank, ?_⟩
    exact (pair_infix_iff hat.blank.isGap hat.ne_nil).mpr
      ⟨before, rest, (hat.shift before).eq, hbefore, hvalid k hk, hat.valid, hat.ends⟩
  · rintro ⟨k, hk, blanks, hne, hblank, hinfix⟩
    obtain ⟨before, rest, rfl, hbefore, -, hname, hends⟩ :=
      (pair_infix_iff hblank.isGap hne).mp hinfix
    have hhere : KeywordAt (k.toList ++ (blanks ++ (name ++ rest))) [] k.toList blanks name rest :=
      ⟨rfl, hne, hblank, hname, hends⟩
    have hrun := isRun_of_isValid (hvalid k hk)
    refine mem_findAll_of_answer (by simp [hrun.ne_nil])
      ((introduced?_eq_some_iff hvalid).mpr
        ⟨(hedge k hk (hhere.shift before)).mpr hbefore, k, hk, blanks, rest, hhere, rfl⟩) ?_
    rintro p w ⟨name', n⟩ rfl hw hfound
    obtain ⟨hword, k', hk', blanks', rest', hat, rfl⟩ :=
      (introduced?_eq_some_iff hvalid).mp hfound
    refine Nat.le_of_not_lt fun hlength => ?_
    obtain ⟨rfl, rfl⟩ := KeywordAt.covered (isRun_of_isValid (hvalid k' hk')) hrun (hhere.shift w)
      (beginsRun_of_append hw hbefore) hw hat hlength
    have hfirst := hat.shift p
    rw [← List.append_assoc] at hfirst
    exact hclear.single keywords hfamily k' hk' k hk ((hedge k' hk' hfirst).mp hword) hfirst
      (hhere.shift _)

end Keywords

/-! ## Names in front of a function -/

theorem FunctionAt.shift {after name left right rest : List Char}
    (h : FunctionAt after [] name left right rest) (before : List Char) :
    FunctionAt (before ++ after) before name left right rest :=
  ⟨congrArg (before ++ ·) h.eq, h.left, h.right, h.valid⟩

theorem FunctionAt.endsRun {text before name left right rest : List Char}
    (h : FunctionAt text before name left right rest) :
    EndsRun (left ++ '=' :: (right ++ ("function".toList ++ rest))) := by
  have hends := (isGap_equals h.left h.right).endsRun.append (by simp) ("function".toList ++ rest)
  rwa [List.append_assoc] at hends

theorem functionAhead?_eq_some_iff {after : List Char} {n : Nat} :
    functionAhead? after = some n ↔
      ∃ left right rest, IsBlank left ∧ IsBlank right ∧
        after = left ++ '=' :: (right ++ ("function".toList ++ rest)) ∧ endsWord rest = true ∧
        n = left.length + 1 + right.length + "function".length := by
  constructor
  · intro h
    rw [functionAhead?] at h
    split at h
    · cases h
    · next afterSign hsign =>
        split at h
        · next rest hfunction =>
            split at h
            · next hword =>
                have hsign' := List.isPrefixOf?_eq_some_iff_append_eq.mp hsign
                have hfunction' := List.isPrefixOf?_eq_some_iff_append_eq.mp hfunction
                refine ⟨after.takeWhile isBlank, afterSign.takeWhile isBlank, rest,
                  fun c hc => List.mem_takeWhile_imp hc, fun c hc => List.mem_takeWhile_imp hc,
                  ?_, hword, (Option.some.inj h).symm⟩
                rw [hfunction', List.takeWhile_append_dropWhile, ← List.singleton_append, hsign',
                  List.takeWhile_append_dropWhile]
            · cases h
        · cases h
  · rintro ⟨left, right, rest, hleft, hright, rfl, hword, rfl⟩
    have hfunction : Name.isValid "function".toList = true := by decide
    have hequals : ∀ c ∈ ('=' :: (right ++ ("function".toList ++ rest))).head?,
        isBlank c = false := by
      intro c hc
      obtain rfl : '=' = c := Option.some.inj hc
      decide
    obtain ⟨htake, hdrop⟩ := takeWhile_dropWhile_append hleft hequals
    obtain ⟨htake', hdrop'⟩ := takeWhile_dropWhile_append hright (isBlank_head hfunction rest)
    have hsign : ['='].isPrefixOf? ('=' :: (right ++ ("function".toList ++ rest))) =
        some (right ++ ("function".toList ++ rest)) := rfl
    simp only [functionAhead?, htake, hdrop, hsign, htake', hdrop', isPrefixOf?_append, hword,
      if_true]

theorem assigned?_eq_some_iff {before : Option Char} {after : List Char}
    {found : Option (List Char)} {n : Nat} :
    assigned? before after = some (found, n) ↔
      ∃ name left right rest, FunctionAt after [] name left right rest ∧ endsWord rest = true ∧
        found = (if startsRun before then some name else none) ∧
        n = name.length + (left.length + 1 + right.length + "function".length) := by
  constructor
  · intro h
    cases hname : leadingName? after with
    | none =>
        rw [assigned?, hname] at h
        cases h
    | some name =>
        obtain ⟨rest, rfl, hvalid, hends⟩ := leadingName?_eq_some_iff.mp hname
        rw [assigned?_append hvalid hends] at h
        obtain ⟨n, hahead, heq⟩ := Option.map_eq_some_iff.mp h
        obtain ⟨rfl, rfl⟩ := Prod.mk.inj heq
        obtain ⟨left, right, rest, hleft, hright, rfl, hword, rfl⟩ :=
          functionAhead?_eq_some_iff.mp hahead
        exact ⟨name, left, right, rest, ⟨rfl, hleft, hright, hvalid⟩, hword, rfl, rfl⟩
  · rintro ⟨name, left, right, rest, hat, hword, rfl, rfl⟩
    have hahead := functionAhead?_eq_some_iff.mpr
      ⟨left, right, rest, hat.left, hat.right, rfl, hword, rfl⟩
    rw [hat.eq, List.nil_append, assigned?_append hat.valid hat.endsRun, hahead]
    rfl

/-- A find that covers the start of another site covers its `function`, which is then the
name of that site. -/
theorem FunctionAt.covered {before after name name' left left' right right' rest rest' : List Char}
    (hat : FunctionAt (before ++ after) before name' left' right' rest')
    (hbefore : BeginsRun before) (hne : before ≠ [])
    (hfind : FunctionAt (before ++ after) [] name left right rest) (hrest : EndsRun rest)
    (hlength : before.length <
      name.length + (left.length + 1 + right.length + "function".length)) :
    name' = "function".toList := by
  have hafter := List.append_cancel_left hat.eq
  have hname := isRun_of_isValid hat.valid
  have hstart : ¬ EndsRun after := by
    rw [hafter]
    exact not_endsRun hname _
  have hfunction : IsRun "function".toList := isRun_of_isValid (by decide)
  have hsplit : name ++ (left ++ '=' :: right ++ ("function".toList ++ rest)) =
      before ++ after := by
    rw [List.append_assoc]
    exact hfind.eq.symm
  obtain ⟨-, hrest'⟩ := start_in_find (isRun_of_isValid hfind.valid)
    (isGap_equals hfind.left hfind.right) hfunction hsplit hne hbefore hstart (by
      simp only [List.length_append, List.length_cons, String.length_toList]
      omega)
  rw [hafter] at hrest'
  exact (run_append_inj hfunction hname hrest hat.endsRun hrest').1.symm

theorem mem_assignedNames_iff {text name : List Char} (hclear : Clear text)
    (hname : name ≠ "function".toList) :
    name ∈ assignedNames text ↔
      ∃ left right, IsBlank left ∧ IsBlank right ∧
        [.token .name name, .gap (left ++ '=' :: right), .token .name "function".toList] <:+:
          pieces text := by
  have hassoc : ∀ (left right rest : List Char),
      left ++ '=' :: (right ++ ("function".toList ++ rest)) =
        left ++ '=' :: right ++ ("function".toList ++ rest) := by simp
  constructor
  · intro h
    obtain ⟨found, hfound, hid⟩ := List.mem_filterMap.mp h
    obtain rfl : found = some name := hid
    obtain ⟨before, after, n, rfl, hanswer⟩ := mem_findAll hfound
    obtain ⟨name', left, right, rest, hat, hword, hrun, -⟩ := assigned?_eq_some_iff.mp hanswer
    obtain ⟨hstart, heq⟩ := Option.ite_none_right_eq_some.mp hrun.symm
    obtain rfl := Option.some.inj heq
    have hends := (endsWord_iff (hclear.stop (hat.shift before))).mp hword
    refine ⟨left, right, hat.left, hat.right, ?_⟩
    refine (pair_infix_iff (isGap_equals hat.left hat.right) (by simp)).mpr
      ⟨before, rest, ?_, beginsRun_of_startsRun hstart, hat.valid, by decide, hends⟩
    rw [← hassoc]
    exact (hat.shift before).eq
  · rintro ⟨left, right, hleft, hright, hinfix⟩
    obtain ⟨before, rest, htext, hbefore, hvalid, -, hends⟩ :=
      (pair_infix_iff (isGap_equals hleft hright) (by simp)).mp hinfix
    rw [← hassoc] at htext
    subst htext
    have hhere : FunctionAt (name ++ (left ++ '=' :: (right ++ ("function".toList ++ rest)))) []
        name left right rest := ⟨rfl, hleft, hright, hvalid⟩
    have hword := (endsWord_iff (hclear.stop (hhere.shift before))).mpr hends
    have hstart : startsRun before.getLast? = true := startsRun_of_beginsRun hbefore
    refine List.mem_filterMap.mpr ⟨some name, mem_findAll_of_answer
      (by simp [(isRun_of_isValid hvalid).ne_nil])
      (assigned?_eq_some_iff.mpr ⟨name, left, right, rest, hhere, hword, ?_, rfl⟩) ?_, rfl⟩
    · rw [if_pos hstart]
    · rintro p w ⟨found, n⟩ rfl hw hfound
      obtain ⟨name', left', right', rest', hat, hword', -, rfl⟩ :=
        assigned?_eq_some_iff.mp hfound
      refine Nat.le_of_not_lt fun hlength => hname ?_
      have hat' := hat.shift p
      rw [← List.append_assoc] at hat'
      have hends' := (endsWord_iff (hclear.stop hat')).mp hword'
      exact FunctionAt.covered (hhere.shift w) (beginsRun_of_append hw hbefore) hw hat hends'
        hlength

/-! ## Names behind a dot -/

theorem dotted?_eq_some_iff {before : Option Char} {after name : List Char} {n : Nat} :
    dotted? before after = some (name, n) ↔
      ∃ rest, after = '.' :: (name ++ rest) ∧ Name.isValid name = true ∧ EndsRun rest ∧
        n = 1 + name.length := by
  constructor
  · intro h
    obtain ⟨after', rfl, hname⟩ := dotted?_eq_some h
    obtain ⟨rest, rfl, hvalid, hends⟩ := leadingName?_eq_some_iff.mp hname
    rw [dotted?, hname] at h
    exact ⟨rest, rfl, hvalid, hends, (Prod.mk.inj (Option.some.inj h)).2.symm⟩
  · rintro ⟨rest, rfl, hvalid, hends, rfl⟩
    rw [dotted?, leadingName?_append hvalid hends]
    rfl

theorem mem_propertyNames_iff {text name : List Char} :
    name ∈ propertyNames text ↔
      ∃ gap, [.gap (gap ++ ['.']), .token .name name] <:+: pieces text := by
  rw [dot_infix_iff]
  constructor
  · intro h
    obtain ⟨before, after, n, rfl, hanswer⟩ := mem_findAll h
    obtain ⟨rest, rfl, hvalid, hends, -⟩ := dotted?_eq_some_iff.mp hanswer
    exact ⟨before, rest, rfl, hvalid, hends⟩
  · rintro ⟨before, rest, rfl, hvalid, hends⟩
    refine mem_findAll_of_answer (by simp)
      (dotted?_eq_some_iff.mpr ⟨rest, rfl, hvalid, hends, rfl⟩) ?_
    rintro p w ⟨name', n⟩ rfl hw hfound
    obtain ⟨rest', hafter, hvalid', -, rfl⟩ := dotted?_eq_some_iff.mp hfound
    obtain ⟨c, w, rfl⟩ := List.exists_cons_of_ne_nil hw
    obtain ⟨-, htail⟩ := List.cons.inj hafter
    -- A dot is no name character, so it stands behind the name that was found.
    rcases List.append_eq_append_iff.mp htail with ⟨m, hm, hrest⟩ | ⟨m, rfl, -⟩
    · cases m with
      | nil =>
          rw [List.append_nil] at hm
          rw [hm, List.length_cons, Nat.add_comm]
      | cons d m =>
          obtain ⟨rfl, -⟩ := List.cons.inj hrest
          have hdot := (isRun_of_isValid hvalid').isPart '.' (by rw [hm]; simp)
          exact absurd hdot (by decide)
    · simp only [List.length_append, List.length_cons]
      omega

/-! ## Clear texts -/

theorem introducedBy_iff {ps : List Piece} {name : List Char} :
    IntroducedBy ps name ↔
      (∃ k ∈ declarators, ∃ blanks, blanks ≠ [] ∧ IsBlank blanks ∧
        [.token .name k.toList, .gap blanks, .token .name name] <:+: ps) ∨
      (∃ k ∈ ["function"], ∃ blanks, blanks ≠ [] ∧ IsBlank blanks ∧
        [.token .name k.toList, .gap blanks, .token .name name] <:+: ps) ∨
      (∃ left right, IsBlank left ∧ IsBlank right ∧
        [.token .name name, .gap (left ++ '=' :: right), .token .name "function".toList] <:+: ps) ∨
      ∃ gap, [.gap (gap ++ ['.']), .token .name name] <:+: ps := by
  constructor
  · intro h
    cases h with
    | declared hk hne hblank hinfix => exact Or.inl ⟨_, hk, _, hne, hblank, hinfix⟩
    | function hne hblank hinfix =>
        exact Or.inr (Or.inl ⟨_, List.mem_singleton_self _, _, hne, hblank, hinfix⟩)
    | assigned hleft hright hinfix =>
        exact Or.inr (Or.inr (Or.inl ⟨_, _, hleft, hright, hinfix⟩))
    | property hinfix => exact Or.inr (Or.inr (Or.inr ⟨_, hinfix⟩))
  · rintro (⟨k, hk, blanks, hne, hblank, hinfix⟩ | ⟨k, hk, blanks, hne, hblank, hinfix⟩ |
      ⟨left, right, hleft, hright, hinfix⟩ | ⟨gap, hinfix⟩)
    · exact .declared hk hne hblank hinfix
    · obtain rfl := List.mem_singleton.mp hk
      exact .function hne hblank hinfix
    · exact .assigned hleft hright hinfix
    · exact .property hinfix

theorem mem_found_iff {text name : List Char} (hclear : Clear text)
    (hname : name ≠ "function".toList) :
    name ∈ declaredNames text ++ functionNames text ++ assignedNames text ++ propertyNames text ↔
      IntroducedBy (pieces text) name := by
  rw [introducedBy_iff, ← mem_introduced_iff hclear (by simp),
    ← mem_introduced_iff hclear (by simp), ← mem_assignedNames_iff hclear hname,
    ← mem_propertyNames_iff]
  simp only [List.mem_append, or_assoc]
  rfl

end Site

/-! ## Suspicious names -/

namespace Suspects

/-- The rule: the name may be replaced, and it is a numbered token, or a scrambled token that
the script introduces. -/
def ByTokens (protection : Protection) (source x : String) : Prop :=
  protection.allows x = true ∧
    ((x ∈ tokenTexts .name source ∧ Name.isNumbered x.toList = true) ∨
      (Name.looksScrambled x.toList = true ∧
        Site.IntroducedBy (pieces source.toList) x.toList))

theorem mem_introducedNames_iff {source x : String} :
    x ∈ introducedNames source ↔ Name.looksScrambled x.toList = true ∧
      x.toList ∈ Site.declaredNames source.toList ++ Site.functionNames source.toList ++
        Site.assignedNames source.toList ++ Site.propertyNames source.toList := by
  rw [introducedNames, List.mem_map]
  constructor
  · rintro ⟨name, hname, rfl⟩
    obtain ⟨hmem, hlooks⟩ := List.mem_filter.mp hname
    rw [String.toList_ofList]
    exact ⟨hlooks, hmem⟩
  · rintro ⟨hlooks, hmem⟩
    exact ⟨x.toList, List.mem_filter.mpr ⟨hmem, hlooks⟩, String.ofList_toList⟩

theorem infix_tokenTexts {a b source : String} {g : List Char}
    (h : [.token .name a.toList, .gap g, .token .name b.toList] <:+: pieces source.toList) :
    [a, b] <:+: tokenTexts .name source := by
  have hpair : [String.ofList a.toList, String.ofList b.toList] <:+: tokenTexts .name source :=
    h.filterMap (Piece.tokenText? .name)
  rwa [String.ofList_toList, String.ofList_toList] at hpair

/-- A text is clear if all its characters count alike, and no two keywords of a kind are
neighbours. -/
theorem clear_of_spelling {source : String}
    (hchars : ∀ c ∈ source.toList, isWordChar c = Name.isPart c)
    (hkeywords : ∀ ks ∈ [Site.declarators, ["function"]], ∀ k ∈ ks, ∀ k' ∈ ks,
      ¬ [k, k'] <:+: tokenTexts .name source) : Site.Clear source.toList where
  start := by
    intro k _ before blanks name rest hat c hc
    refine hchars c ?_
    rw [hat.eq]
    exact List.mem_append_left _ (List.mem_of_mem_getLast? hc)
  stop := by
    intro before name left right rest hat c hc
    refine hchars c ?_
    rw [hat.eq]
    simp [List.mem_of_mem_head? hc]
  single := by
    intro ks hks k hk k' hk' before blanks blanks' name rest rest' hbefore hat _
    have hvalid : ∀ ks ∈ [Site.declarators, ["function"]], ∀ k ∈ ks,
        Name.isValid k.toList = true := by decide
    have hinfix := (Site.pair_infix_iff hat.blank.isGap hat.ne_nil).mpr
      ⟨before, rest, hat.eq, hbefore, hvalid ks hks k hk, hat.valid, hat.ends⟩
    exact hkeywords ks hks k hk k' hk' (infix_tokenTexts hinfix)

theorem neighbours_of_introducedBy {source x : String}
    (h : Site.IntroducedBy (pieces source.toList) x.toList) :
    (∃ k ∈ Site.declarators ++ ["function"], [k, x] <:+: tokenTexts .name source) ∨
      [x, "function"] <:+: tokenTexts .name source ∨ '.' ∈ source.toList := by
  cases h with
  | @declared k _ hk _ _ hinfix =>
      exact Or.inl ⟨k, List.mem_append_left _ hk, infix_tokenTexts hinfix⟩
  | function _ _ hinfix =>
      exact Or.inl ⟨"function", List.mem_append_right _ (List.mem_singleton_self _),
        infix_tokenTexts hinfix⟩
  | assigned _ _ hinfix => exact Or.inr (Or.inl (infix_tokenTexts hinfix))
  | property hinfix =>
      obtain ⟨before, rest, htext, -⟩ := Site.dot_infix_iff.mp ⟨_, hinfix⟩
      refine Or.inr (Or.inr ?_)
      rw [htext]
      exact List.mem_append_right _ List.mem_cons_self

/-- In a clear text the names to replace are those of the rule. -/
theorem names_by_tokens (protection : Protection) (source x : String)
    (hclear : Site.Clear source.toList) :
    x ∈ (ofSource protection source).names ↔ ByTokens protection source x := by
  have hnames : x ∈ (ofSource protection source).names ↔ protection.allows x = true ∧
      (x ∈ numberedNames source ∨ x ∈ introducedNames source) := by
    rw [ofSource, mem_distinct, List.mem_filter, List.mem_append, and_comm]
  rw [hnames, ByTokens, mem_introducedNames_iff, numberedNames, List.mem_filter]
  refine and_congr_right fun hallow => or_congr_right (and_congr_right fun _ => ?_)
  refine Site.mem_found_iff hclear ?_
  -- No protection allows a keyword.
  intro hfunction
  obtain rfl : x = "function" := String.toList_inj.mp hfunction
  have hreserved : isReserved "function" = true := by decide
  rw [Protection.allows, hreserved] at hallow
  exact Bool.noConfusion hallow

theorem names_by_tokens_spaced :
    Site.Clear "var aB=1;\tlet\n qX = function () {}; o.zZ(_0x1a2b)".toList ∧
      ByTokens {} "var aB=1;\tlet\n qX = function () {}; o.zZ(_0x1a2b)" "zZ" ∧
      ¬ ByTokens {} "var aB=1;\tlet\n qX = function () {}; o.zZ(_0x1a2b)" "o" := by
  have hchars : "var aB=1;\tlet\n qX = function () {}; o.zZ(_0x1a2b)".toList.all
      (fun c => isWordChar c == Name.isPart c) = true := by decide +kernel
  have hclear : Site.Clear "var aB=1;\tlet\n qX = function () {}; o.zZ(_0x1a2b)".toList :=
    clear_of_spelling (fun c hc => eq_of_beq (List.all_eq_true.mp hchars c hc))
      (by decide +kernel)
  exact ⟨hclear, (names_by_tokens _ _ _ hclear).mp (by decide +kernel),
    fun h => absurd ((names_by_tokens _ _ _ hclear).mpr h) (by decide +kernel)⟩

/-- Texts that are not clear, and the search against the rule in each: a dollar sign in front
of a keyword, a letter outside ASCII there, a keyword behind a keyword, and a dollar sign
behind `function`. -/
theorem names_not_by_tokens :
    ("x" ∈ (ofSource {} "$var x").names ∧ ¬ ByTokens {} "$var x" "x") ∧
      ("x" ∉ (ofSource {} "évar x").names ∧ ByTokens {} "évar x" "x") ∧
      ("x" ∉ (ofSource {} "var let x").names ∧ ByTokens {} "var let x" "x") ∧
      ("x" ∈ (ofSource {} "x = function$f").names ∧ ¬ ByTokens {} "x = function$f" "x") := by
  have hblank : Site.IsBlank [' '] := by
    intro c hc
    obtain rfl := List.mem_singleton.mp hc
    decide
  have hrule : ∀ {source : String},
      (∃ k ∈ Site.declarators,
        [.token .name k.toList, .gap [' '], .token .name "x".toList] <:+: pieces source.toList) →
      ByTokens {} source "x" := by
    rintro source ⟨k, hk, hinfix⟩
    exact ⟨by decide +kernel, Or.inr ⟨by decide, .declared hk (by simp) hblank hinfix⟩⟩
  have hbroken : ∀ {source : String},
      ¬ ((∃ k ∈ Site.declarators ++ ["function"], [k, "x"] <:+: tokenTexts .name source) ∨
        ["x", "function"] <:+: tokenTexts .name source ∨ '.' ∈ source.toList) →
      ¬ ByTokens {} source "x" := by
    rintro source hno ⟨-, ⟨-, hnumbered⟩ | ⟨-, hintroduced⟩⟩
    · exact absurd hnumbered (by decide)
    · exact hno (neighbours_of_introducedBy hintroduced)
  refine ⟨⟨by decide +kernel, hbroken (by decide +kernel)⟩, ⟨by decide +kernel, hrule ?_⟩,
    ⟨by decide +kernel, hrule ?_⟩, by decide +kernel, hbroken (by decide +kernel)⟩
  · exact ⟨"var", by decide, by decide +kernel⟩
  · exact ⟨"let", by decide, by decide +kernel⟩

end Suspects

end Unmask
