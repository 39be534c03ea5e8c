/-
# `Unmask.Proofs.ProtectedNames` — what protecting a name changes

Names can be put under protection by the settings.  Two runs over one script are
compared here, one with fewer and one with more names under protection.

* The suspects of the second run are those of the first without the names that were
  added, in the same order; the numbers are the same.  The names come from five searches
  that share one set of names already seen, and the names under protection are left out
  before that set is asked; so it has to be shown that leaving out and dropping
  repetitions do not disturb each other (`firstOccurrences_filter`).  The two sets differ
  along the way, but never on a name that can still be listed.
* Protection is asked one question, whether it allows a name (`Protection.allows`), and
  the answer depends on which names are listed, not on their order or number.
* A name that is not allowed is no suspect, so it has no replacement, and a run copies it
  wherever it stands.

Where a name stands is said of the bytes of the script: `weave` puts texts in the places
of its tokens and leaves what is around them, and the text of a report is such a weaving
(`utf8_text_reportOf`).
-/
import Unmask.Proofs.ReplacedTokens
import Unmask.Proofs.SuspectTokens

namespace Unmask

/-! ## Leaving out and dropping repetitions -/

/-- The first of equal entries, among those that are wanted: it makes no difference
whether the others are left out before or after.  The two sets of names seen agree on
what is wanted. -/
theorem firstOccurrences_filter (wanted : String → Bool) (xs : List String) :
    ∀ {seen seen' : Std.TreeSet String}, (∀ x, wanted x = true → (x ∈ seen' ↔ x ∈ seen)) →
      firstOccurrences seen' (xs.filter wanted) = (firstOccurrences seen xs).filter wanted := by
  induction xs with
  | nil =>
      intro seen seen' _
      rfl
  | cons x xs ih =>
      intro seen seen' hseen
      by_cases hx : wanted x = true
      · have hcontains : seen'.contains x = seen.contains x := by
          rw [Bool.eq_iff_iff, Std.TreeSet.contains_iff_mem, Std.TreeSet.contains_iff_mem]
          exact hseen x hx
        rw [List.filter_cons_of_pos hx, firstOccurrences, firstOccurrences, hcontains]
        split_ifs
        · exact ih hseen
        · rw [List.filter_cons_of_pos hx, ih]
          intro y hy
          rw [Std.TreeSet.mem_insert, Std.TreeSet.mem_insert, hseen y hy]
      · rw [List.filter_cons_of_neg hx, firstOccurrences]
        split_ifs
        · exact ih hseen
        · rw [List.filter_cons_of_neg hx]
          refine ih fun y hy => ?_
          -- The name that is seen now is not wanted, so it is not `y`.
          have hxy : x ≠ y := by
            rintro rfl
            exact hx hy
          rw [Std.TreeSet.mem_insert, Std.LawfulEqCmp.compare_eq_iff_eq, hseen y hy]
          exact ⟨Or.inr, fun h => h.resolve_left hxy⟩

theorem distinct_filter (wanted : String → Bool) (xs : List String) :
    distinct (xs.filter wanted) = (distinct xs).filter wanted :=
  firstOccurrences_filter wanted xs fun _ _ => Iff.rfl

/-! ## What protection allows -/

theorem Protection.allows_append (P Q : List String) (name : String) :
    (Protection.mk (P ++ Q)).allows name =
      (decide (name ∉ Q) && (Protection.mk P).allows name) := by
  rw [Bool.eq_iff_iff, Bool.and_eq_true, decide_eq_true_eq, Protection.allows_iff,
    Protection.allows_iff, List.mem_append, not_or]
  exact ⟨fun ⟨hword, hhost, hP, hQ⟩ => ⟨hQ, hword, hhost, hP⟩,
    fun ⟨hQ, hword, hhost, hP⟩ => ⟨hword, hhost, hP, hQ⟩⟩

theorem Protection.allows_congr {P P' : List String} (h : ∀ x, x ∈ P' ↔ x ∈ P) :
    (Protection.mk P').allows = (Protection.mk P).allows := by
  funext name
  rw [Bool.eq_iff_iff, Protection.allows_iff, Protection.allows_iff, h]

section Congruence

variable {p p' : Protection}

theorem Suspects.ofSource_congr (h : p'.allows = p.allows) (source : String) :
    Suspects.ofSource p' source = Suspects.ofSource p source := by
  rw [Suspects.ofSource, Suspects.ofSource, h]

theorem Renaming.addNames_congr (h : p'.allows = p.allows) (r : Renaming) (source : String)
    (names : List String) : r.addNames source names p' = r.addNames source names p := by
  have hstep : addName p' = addName p := by
    funext callable r name
    rw [addName, addName, h]
  rw [addNames, addNames, hstep]

end Congruence

/-- A run asks no more of protection than what it allows. -/
theorem reportOf_congr {P P' : List String} (h : ∀ x, x ∈ P' ↔ x ∈ P)
    (decodeNumbers reserveSourceNames : Bool) (source : String) :
    reportOf ⟨decodeNumbers, P', reserveSourceNames⟩ source =
      reportOf ⟨decodeNumbers, P, reserveSourceNames⟩ source := by
  have hallows := Protection.allows_congr h
  have hrenaming : Renaming.ofSource ⟨decodeNumbers, P', reserveSourceNames⟩ source =
      Renaming.ofSource ⟨decodeNumbers, P, reserveSourceNames⟩ source := by
    simp only [Renaming.ofSource, Options.protection, Options.numberStyle,
      Suspects.ofSource_congr hallows, Renaming.addNames_congr hallows]
  rw [reportOf, reportOf, hrenaming]

theorem Suspects.names_append (P Q : List String) (source : String) :
    (ofSource ⟨P ++ Q⟩ source).names =
      (ofSource ⟨P⟩ source).names.filter fun name => name ∉ Q := by
  rw [ofSource, ofSource, ← distinct_filter, List.filter_filter]
  exact congrArg distinct (List.filter_congr fun name _ => Protection.allows_append P Q name)

/-! ## Texts in the places of tokens -/

def Token.rewritten (names numbers : Mapping) (t : Token) : String :=
  match t.kind with
  | .name => names[t.text]?.getD t.text
  | .number => numbers[t.text]?.getD t.text

/-- Stretches of text with other texts between them, by turns. -/
def weave : List (List UInt8) → List (List UInt8) → List UInt8
  | stretch :: stretches, text :: texts => stretch ++ text ++ weave stretches texts
  | stretches, [] => stretches.flatten
  | [], _ => []

theorem weave_modifyHead (g : List UInt8) {stretches : List (List UInt8)} (hne : stretches ≠ [])
    (texts : List (List UInt8)) :
    weave (stretches.modifyHead (g ++ ·)) texts = g ++ weave stretches texts := by
  obtain ⟨s, ss, rfl⟩ := List.exists_cons_of_ne_nil hne
  cases texts with
  | nil => simp [weave]
  | cons t ts => simp [weave]

theorem gapStretches_ne_nil (ps : List Piece) : gapStretches ps ≠ [] := by
  induction ps with
  | nil => exact List.cons_ne_nil _ _
  | cons p ps ih =>
      cases p with
      | gap t =>
          obtain ⟨s, ss, hps⟩ := List.exists_cons_of_ne_nil ih
          rw [gapStretches, hps]
          exact List.cons_ne_nil _ _
      | token k t => exact List.cons_ne_nil _ _

theorem encode_flatMap_rewritten (names numbers : Mapping) (ps : List Piece) : ∀ start,
    encode (ps.flatMap (Piece.rewritten names numbers)) =
      weave (gapStretches ps)
        ((locate start ps).map fun t => utf8 (t.rewritten names numbers)) := by
  induction ps with
  | nil =>
      intro start
      rfl
  | cons p ps ih =>
      intro start
      rw [List.flatMap_cons, encode_append]
      cases p with
      | gap t =>
          rw [gapStretches, weave_modifyHead _ (gapStretches_ne_nil ps), locate, ← ih]
          rfl
      | token k t =>
          have htoken : encode ((Piece.token k t).rewritten names numbers) =
              utf8 (Token.rewritten names numbers
                ⟨k, String.ofList t, start, start + byteLength t⟩) := by
            rw [utf8_eq_encode]
            cases k with
            | name => rfl
            | number => rfl
          rw [gapStretches, locate, List.map_cons, weave, List.nil_append, ← ih, htoken]

/-- The text of a report is the script with its tokens rewritten in their places. -/
theorem utf8_text_reportOf (o : Options) (source : String) :
    utf8 (reportOf o source).text =
      weave (surroundings source) ((tokens source).map fun t =>
        utf8 (t.rewritten (reportOf o source).names (reportOf o source).numbers)) := by
  rw [text_reportOf, rewriteOnce, utf8_ofList, surroundings_eq, tokens]
  exact encode_flatMap_rewritten _ _ _ 0

/-! ## What a run leaves alone -/

theorem not_mem_names_reportOf {o : Options} {source name : String}
    (h : o.protection.allows name = false) : name ∉ (reportOf o source).names := by
  intro hmem
  have hallow := (Suspects.names_ofSource_subset (mem_names_reportOf.mp hmem)).2
  rw [h] at hallow
  exact Bool.noConfusion hallow

theorem Token.rewritten_of_not_mem {names : Mapping} (numbers : Mapping) {t : Token}
    (hkind : t.kind = .name) (h : t.text ∉ names) : t.rewritten names numbers = t.text := by
  have hnone : names[t.text]? = none := Std.TreeMap.getElem?_eq_none h
  simp only [Token.rewritten, hkind, hnone, Option.getD_none]

/-- Protecting more names removes those names from the suspects and changes nothing else
about them, so the order of the names under protection and their repetitions do not
matter, neither for the suspects nor for a run.  In a run each token that spells a name
under protection, a keyword or a name of the host stays as it is, wherever it stands. -/
theorem protection_only_removes (source : String) (P Q : List String) :
    (Suspects.ofSource ⟨P ++ Q⟩ source).names =
      (Suspects.ofSource ⟨P⟩ source).names.filter (fun name => name ∉ Q) ∧
    (Suspects.ofSource ⟨P ++ Q⟩ source).numbers = (Suspects.ofSource ⟨P⟩ source).numbers ∧
    (∀ P' : List String, (∀ x, x ∈ P' ↔ x ∈ P) →
      Suspects.ofSource ⟨P'⟩ source = Suspects.ofSource ⟨P⟩ source ∧
      ∀ decodeNumbers reserveSourceNames : Bool,
        unmask ⟨decodeNumbers, P', reserveSourceNames⟩ source =
          unmask ⟨decodeNumbers, P, reserveSourceNames⟩ source) ∧
    ∀ decodeNumbers reserveSourceNames : Bool, isBlankText source = false →
      ∃ report, unmask ⟨decodeNumbers, P ++ Q, reserveSourceNames⟩ source = .ok report ∧
        utf8 report.text = weave (surroundings source) ((tokens source).map fun t =>
          utf8 (t.rewritten report.names report.numbers)) ∧
        ∀ t ∈ tokens source, t.kind = .name →
          t.text ∈ P ++ Q ∨ t.text ∈ reservedWords ∨ t.text ∈ hostNames →
          t.rewritten report.names report.numbers = t.text := by
  refine ⟨Suspects.names_append P Q source, rfl, ?_, ?_⟩
  · intro P' hsame
    refine ⟨Suspects.ofSource_congr (Protection.allows_congr hsame) source, ?_⟩
    intro decodeNumbers reserve
    rw [unmask, unmask, reportOf_congr hsame]
  · intro decodeNumbers reserve hsource
    refine ⟨_, unmask_eq_ok _ hsource, utf8_text_reportOf _ source, ?_⟩
    intro t _ hkind hspared
    refine Token.rewritten_of_not_mem _ hkind (not_mem_names_reportOf ?_)
    rw [Bool.eq_false_iff]
    intro hallow
    obtain ⟨hword, hhost, hextra⟩ := Protection.allows_iff.mp hallow
    rcases hspared with h | h | h
    · exact hextra h
    · exact hword h
    · exact hhost h

/-- A name that is added to the protection, declared twice and used as a property, beside
one that is listed there twice and one that is not listed. -/
theorem protection_only_removes_declared :
    (Suspects.ofSource ⟨["zZ"] ++ ["jQ"]⟩ "var jQ = zZ; var jQ; a.jQ = a.qW").names = ["qW"] ∧
      Suspects.ofSource ⟨["zZ", "zZ"]⟩ "var jQ = zZ; var jQ; a.jQ = a.qW" =
        Suspects.ofSource ⟨["zZ"]⟩ "var jQ = zZ; var jQ; a.jQ = a.qW" ∧
      isBlankText "var jQ = zZ; var jQ; a.jQ = a.qW" = false ∧
      Token.mk .name "jQ" 23 25 ∈ tokens "var jQ = zZ; var jQ; a.jQ = a.qW" ∧
      ∃ report, unmask ⟨true, ["zZ"] ++ ["jQ"], false⟩ "var jQ = zZ; var jQ; a.jQ = a.qW" =
          .ok report ∧
        (Token.mk .name "jQ" 23 25).rewritten report.names report.numbers = "jQ" := by
  have hfewer : (Suspects.ofSource ⟨["zZ"]⟩ "var jQ = zZ; var jQ; a.jQ = a.qW").names =
      ["jQ", "qW"] := by
    decide +kernel
  have hblank : isBlankText "var jQ = zZ; var jQ; a.jQ = a.qW" = false := by decide
  have htoken : Token.mk .name "jQ" 23 25 ∈ tokens "var jQ = zZ; var jQ; a.jQ = a.qW" := by
    decide +kernel
  obtain ⟨hnames, -, horder, hrun⟩ :=
    protection_only_removes "var jQ = zZ; var jQ; a.jQ = a.qW" ["zZ"] ["jQ"]
  obtain ⟨report, hreport, -, hspared⟩ := hrun true false hblank
  refine ⟨?_, (horder ["zZ", "zZ"] (by simp)).1, hblank, htoken, report, hreport, ?_⟩
  · rw [hnames, hfewer]
    decide
  · exact hspared _ htoken rfl (Or.inl (by decide))

end Unmask
