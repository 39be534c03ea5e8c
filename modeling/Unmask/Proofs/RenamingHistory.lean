/-
# `Unmask.Proofs.RenamingHistory` — what a run of operations leaves standing

`Unmask.Proofs.RenamingSteps` speaks about a renaming at one moment.  Here two
moments of the same run are compared: `Extends r r'` says what lies between an
earlier renaming and a later one, whatever operations were carried out in
between.

* Entries stay as they are, and what was taken stays taken.
* A name that got its word in between was allowed to have one, and the word was
  free at the earlier moment.

The relation is reflexive and transitive, and one entry at a time is an
instance of it; so it holds along every run (`extends_after`).  When all that
happens in between is that literals get letters, more can be said
(`ExtendsByLetters`): the new letters come from the stretch of their stream
that was passed in between, so they differ from each other and from all
letters handed out at any other time.

The main result, `renaming_run`, reads both relations over a whole run, with
the operations interleaved as one likes.
-/
import Unmask.Proofs.RenamingSteps

namespace Unmask

/-- The names that an operation keeps from being handed out. -/
def RenamingStep.withheld : RenamingStep → List String
  | .reserve source => tokenTexts .name source
  | .nameAll _ _ _ => []
  | .numberAll _ _ => []

/-- The names that a sequence of operations keeps from being handed out. -/
def withheldBy (steps : List RenamingStep) : List String := steps.flatMap RenamingStep.withheld

namespace Renaming

/-! ## Two moments of a run -/

/-- What lies between an earlier renaming and a later one. -/
structure Extends (r r' : Renaming) : Prop where
  names : ∀ {k v : String}, r.names[k]? = some v → r'.names[k]? = some v
  numbers : ∀ {l v : String}, r.numbers[l]? = some v → r'.numbers[l]? = some v
  issued : ∀ {x : String}, x ∈ r.supply.issued → x ∈ r'.supply.issued
  occupied : ∀ {x : String}, x ∈ r.supply.occupied → x ∈ r'.supply.occupied
  counter : r.supply.numbers ≤ r'.supply.numbers
  newKey : ∀ {k v : String}, k ∉ r.names → r'.names[k]? = some v →
    isReserved k = false ∧ k ∉ hostNames
  newWord : ∀ {k v : String}, k ∉ r.names → r'.names[k]? = some v →
    isReserved v = false ∧ v ∉ r.supply.issued

theorem exists_getElem? {m : Mapping} {k : String} (h : k ∈ m) : ∃ v, m[k]? = some v :=
  Option.isSome_iff_exists.mp (Std.TreeMap.mem_iff_isSome_getElem?.mp h)

/-- An entry of the later mapping stood in the earlier one, or its key is new. -/
theorem old_or_new {m m' : Mapping}
    (hkeep : ∀ {k v : String}, m[k]? = some v → m'[k]? = some v) {k v : String}
    (h : m'[k]? = some v) : m[k]? = some v ∨ k ∉ m := by
  by_cases hk : k ∈ m
  · obtain ⟨w, hw⟩ := exists_getElem? hk
    have hvw : some v = some w := by rw [← h, hkeep hw]
    exact Or.inl (hvw ▸ hw)
  · exact Or.inr hk

theorem Extends.refl (r : Renaming) : Extends r r where
  names h := h
  numbers h := h
  issued h := h
  occupied h := h
  counter := Nat.le_refl _
  newKey hk h := absurd (Mapping.mem_of_getElem? h) hk
  newWord hk h := absurd (Mapping.mem_of_getElem? h) hk

theorem Extends.trans {r r' r'' : Renaming} (h : Extends r r') (h' : Extends r' r'') :
    Extends r r'' where
  names hv := h'.names (h.names hv)
  numbers hv := h'.numbers (h.numbers hv)
  issued hx := h'.issued (h.issued hx)
  occupied hx := h'.occupied (h.occupied hx)
  counter := Nat.le_trans h.counter h'.counter
  newKey := by
    intro k v hk hv
    rcases old_or_new h'.names hv with hmid | hmid
    · exact h.newKey hk hmid
    · exact h'.newKey hmid hv
  newWord := by
    intro k v hk hv
    rcases old_or_new h'.names hv with hmid | hmid
    · exact h.newWord hk hmid
    · obtain ⟨hword, hfree⟩ := h'.newWord hmid hv
      exact ⟨hword, fun hx => hfree (h.issued hx)⟩

theorem getElem?_insert_of_not_mem {m : Mapping} {k v a w : String} (hk : k ∉ m)
    (h : m[a]? = some w) : (m.insert k v)[a]? = some w := by
  rw [Std.TreeMap.getElem?_insert, if_neg]
  · exact h
  · intro heq
    obtain rfl := Std.LawfulEqCmp.compare_eq_iff_eq.mp heq
    exact hk (Mapping.mem_of_getElem? h)

theorem extends_addName (protection : Protection) (callable : Std.TreeSet String) (r : Renaming)
    (name : String) : Extends r (addName protection callable r name) := by
  rcases addName_cases protection callable r name with ⟨heq, -⟩ | ⟨role, hnew, hallow, heq⟩
  · rw [heq]
    exact .refl r
  · obtain ⟨n, hfirst, hnext⟩ := r.supply.nextWord_spec role
    obtain ⟨hfree, hword⟩ := NameSupply.wordFree_iff.mp hfirst.isFree
    simp only [Protection.allows, Protection.covers, Bool.and_eq_true, Bool.not_eq_true',
      Bool.or_eq_false_iff] at hallow
    rw [heq, hnext]
    refine ⟨getElem?_insert_of_not_mem hnew, id,
      fun hx => Std.TreeSet.mem_insert.mpr (Or.inr hx), ?_, ?_, ?_, ?_⟩
    · intro x hx
      cases role with
      | value => exact hx
      | function => exact hx
    · cases role with
      | value => exact Nat.le_refl _
      | function => exact Nat.le_refl _
    · intro k v hk hv
      rcases getElem?_insert_cases hv with ⟨rfl, -⟩ | ⟨-, hv⟩
      · exact ⟨hallow.1, by simpa using hallow.2.1⟩
      · exact absurd (Mapping.mem_of_getElem? hv) hk
    · intro k v hk hv
      rcases getElem?_insert_cases hv with ⟨-, rfl⟩ | ⟨-, hv⟩
      · exact ⟨hword, hfree⟩
      · exact absurd (Mapping.mem_of_getElem? hv) hk

/-! ## Letters between two moments -/

/-- What lies between two moments when literals got letters and nothing else
happened: new letters come from the part of their stream between the two
counters, and were free. -/
structure ExtendsByLetters (r r' : Renaming) : Prop extends Extends r r' where
  newLetters : ∀ {l v : String}, l ∉ r.numbers → r'.numbers[l]? = some v →
    isReserved v = false ∧ v ∉ r.supply.occupied ∧
      ∃ n, v = String.ofList (letters n) ∧ r.supply.numbers ≤ n ∧ n < r'.supply.numbers
  distinct : ∀ {a b v : String}, a ∉ r.numbers → b ∉ r.numbers → r'.numbers[a]? = some v →
    r'.numbers[b]? = some v → a = b

theorem ExtendsByLetters.refl (r : Renaming) : ExtendsByLetters r r where
  toExtends := .refl r
  newLetters hl h := absurd (Mapping.mem_of_getElem? h) hl
  distinct ha _ h := absurd (Mapping.mem_of_getElem? h) ha

theorem letters_ne_of_lt {v w : String} {m i j : Nat} (hv : v = String.ofList (letters i))
    (hw : w = String.ofList (letters j)) (hi : i < m) (hj : m ≤ j) : v ≠ w := by
  rintro rfl
  have hij : i = j := letters_injective (hv.symm.trans hw)
  omega

theorem ExtendsByLetters.trans {r r' r'' : Renaming} (h : ExtendsByLetters r r')
    (h' : ExtendsByLetters r' r'') : ExtendsByLetters r r'' where
  toExtends := h.toExtends.trans h'.toExtends
  newLetters := by
    intro l v hl hv
    rcases old_or_new h'.numbers hv with hmid | hmid
    · obtain ⟨hword, hfree, n, hn, hle, hlt⟩ := h.newLetters hl hmid
      exact ⟨hword, hfree, n, hn, hle, Nat.lt_of_lt_of_le hlt h'.counter⟩
    · obtain ⟨hword, hfree, n, hn, hle, hlt⟩ := h'.newLetters hmid hv
      exact ⟨hword, fun hx => hfree (h.occupied hx), n, hn, Nat.le_trans h.counter hle, hlt⟩
  distinct := by
    intro a b v ha hb hav hbv
    -- One of the two before the middle and one after it would share no letters.
    have hcross : ∀ {a b : String}, a ∉ r.numbers → r'.numbers[a]? = some v → b ∉ r'.numbers →
        r''.numbers[b]? = some v → False := by
      intro a b ha hav hb hbv
      obtain ⟨-, -, i, hi, -, hlt⟩ := h.newLetters ha hav
      obtain ⟨-, -, j, hj, hle, -⟩ := h'.newLetters hb hbv
      exact letters_ne_of_lt hi hj hlt hle rfl
    rcases old_or_new h'.numbers hav with hamid | hamid
    · rcases old_or_new h'.numbers hbv with hbmid | hbmid
      · exact h.distinct ha hb hamid hbmid
      · exact (hcross ha hamid hbmid hbv).elim
    · rcases old_or_new h'.numbers hbv with hbmid | hbmid
      · exact (hcross hb hbmid hamid hav).elim
      · exact h'.distinct hamid hbmid hav hbv

theorem extendsByLetters_addNumber (r : Renaming) (literal : String) :
    ExtendsByLetters r (addNumber .letters r literal) := by
  rcases addNumber_cases .letters r literal with ⟨heq, -⟩ | ⟨hnew, ⟨-, heq⟩ | ⟨hstyle, -⟩⟩
  · rw [heq]
    exact .refl r
  · obtain ⟨n, hfirst, hnext⟩ := r.supply.nextLetters_spec
    obtain ⟨hfree, hword⟩ := NameSupply.lettersFree_iff.mp hfirst.isFree
    rw [heq, hnext]
    refine ⟨⟨id, getElem?_insert_of_not_mem hnew, id, id, Nat.le_succ_of_le hfirst.le, ?_, ?_⟩,
      ?_, ?_⟩
    · exact fun hk hv => absurd (Mapping.mem_of_getElem? hv) hk
    · exact fun hk hv => absurd (Mapping.mem_of_getElem? hv) hk
    · intro l v hl hv
      rcases getElem?_insert_cases hv with ⟨-, rfl⟩ | ⟨-, hv⟩
      · exact ⟨hword, hfree, n, rfl, hfirst.le, Nat.lt_succ_self n⟩
      · exact absurd (Mapping.mem_of_getElem? hv) hl
    · intro a b v ha hb hav hbv
      rcases getElem?_insert_cases hav with ⟨rfl, -⟩ | ⟨-, hav⟩
      · rcases getElem?_insert_cases hbv with ⟨rfl, -⟩ | ⟨-, hbv⟩
        · rfl
        · exact absurd (Mapping.mem_of_getElem? hbv) hb
      · exact absurd (Mapping.mem_of_getElem? hav) ha
  · exact NumberStyle.noConfusion hstyle

theorem extendsByLetters_addNumbers (r : Renaming) (literals : List String) :
    ExtendsByLetters r (r.addNumbers literals .letters) :=
  List.foldlRecOn literals _ (.refl r) fun r' hr literal _ =>
    hr.trans (extendsByLetters_addNumber r' literal)

theorem extends_addNumber (style : NumberStyle) (r : Renaming) (literal : String) :
    Extends r (addNumber style r literal) := by
  cases style with
  | letters => exact (extendsByLetters_addNumber r literal).toExtends
  | characters =>
      rcases addNumber_cases .characters r literal with ⟨heq, -⟩ | ⟨hnew, ⟨hstyle, -⟩ | ⟨-, heq⟩⟩
      · rw [heq]
        exact .refl r
      · exact NumberStyle.noConfusion hstyle
      · rw [heq]
        refine ⟨id, getElem?_insert_of_not_mem hnew, id, id, Nat.le_refl _, ?_, ?_⟩
        · exact fun hk hv => absurd (Mapping.mem_of_getElem? hv) hk
        · exact fun hk hv => absurd (Mapping.mem_of_getElem? hv) hk

/-! ## Along a run -/

theorem extends_reserveNames (r : Renaming) (source : String) :
    Extends r (r.reserveNames source) where
  names h := h
  numbers h := h
  issued hx := Std.TreeSet.mem_insertMany_list.mpr (Or.inl hx)
  occupied hx := Std.TreeSet.mem_insertMany_list.mpr (Or.inl hx)
  counter := Nat.le_refl _
  newKey hk h := absurd (Mapping.mem_of_getElem? h) hk
  newWord hk h := absurd (Mapping.mem_of_getElem? h) hk

theorem extends_step (r : Renaming) (s : RenamingStep) : Extends r (r.step s) := by
  cases s with
  | reserve source => exact extends_reserveNames r source
  | nameAll source names protection =>
      exact List.foldlRecOn names _ (.refl r) fun r' hr name _ =>
        hr.trans (extends_addName protection _ r' name)
  | numberAll literals style =>
      exact List.foldlRecOn literals _ (.refl r) fun r' hr literal _ =>
        hr.trans (extends_addNumber style r' literal)

theorem after_append (steps later : List RenamingStep) :
    after (steps ++ later) = later.foldl step (after steps) :=
  List.foldl_append

theorem after_concat (steps : List RenamingStep) (s : RenamingStep) :
    after (steps ++ [s]) = (after steps).step s :=
  after_append steps [s]

theorem extends_after (steps later : List RenamingStep) :
    Extends (after steps) (after (steps ++ later)) := by
  rw [after_append]
  exact List.foldlRecOn later _ (.refl _) fun r hr s _ => hr.trans (extends_step r s)

theorem taken_of_mem_withheldBy {steps : List RenamingStep} {x : String}
    (h : x ∈ withheldBy steps) :
    x ∈ (after steps).supply.issued ∧ x ∈ (after steps).supply.occupied := by
  obtain ⟨s, hs, hx⟩ := List.mem_flatMap.mp h
  obtain ⟨earlier, later, rfl⟩ := List.append_of_mem hs
  have hlater := extends_after (earlier ++ [s]) later
  rw [List.append_assoc, List.singleton_append, after_concat] at hlater
  cases s with
  | reserve source =>
      exact ⟨hlater.issued (mem_insertMany_nameSet hx), hlater.occupied (mem_insertMany_nameSet hx)⟩
  | nameAll source names protection => exact absurd hx List.not_mem_nil
  | numberAll literals style => exact absurd hx List.not_mem_nil

/-! ## The invariant of a run -/

/-- Letters are what a run gave to the literal: an operation of the run that
hands out letters made the entry. -/
def GaveLetters (steps : List RenamingStep) (literal given : String) : Prop :=
  ∃ earlier literals later, steps = earlier ++ .numberAll literals .letters :: later ∧
    literal ∉ (after earlier).numbers ∧
    (after (earlier ++ [.numberAll literals .letters])).numbers[literal]? = some given

/-- Letters that a run gave came from the part of their stream that the operation
passed, and were free when it began. -/
theorem letters_of_split {earlier : List RenamingStep} {literals : List String} {l v : String}
    (hl : l ∉ (after earlier).numbers)
    (hv : (after (earlier ++ [.numberAll literals .letters])).numbers[l]? = some v) :
    isReserved v = false ∧ v ∉ (after earlier).supply.occupied ∧
      ∃ n, v = String.ofList (letters n) ∧ (after earlier).supply.numbers ≤ n ∧
        n < (after (earlier ++ [.numberAll literals .letters])).supply.numbers := by
  rw [after_concat] at hv ⊢
  exact (extendsByLetters_addNumbers _ literals).newLetters hl hv

/-- What holds of a run when it has come to an end.  An entry is made later than
a given moment if its key has none at that moment. -/
structure Orderly (steps : List RenamingStep) : Prop where
  injective : (after steps).names.Injective
  words : ∀ {k v : String}, (after steps).names[k]? = some v →
    Name.isValid v.toList = true ∧ isReserved v = false ∧
      ∀ earlier later, steps = earlier ++ later → k ∉ (after earlier).names →
        v ∉ withheldBy earlier
  keys : ∀ {k : String}, k ∈ (after steps).names → isReserved k = false ∧ k ∉ hostNames
  distinct : ∀ {a b v : String}, GaveLetters steps a v → GaveLetters steps b v → a = b
  letters : ∀ {l v : String}, GaveLetters steps l v →
    isReserved v = false ∧
      ∀ earlier later, steps = earlier ++ later → l ∉ (after earlier).numbers →
        v ∉ withheldBy earlier

theorem withheldBy_append (earlier later : List RenamingStep) :
    withheldBy (earlier ++ later) = withheldBy earlier ++ withheldBy later :=
  List.flatMap_append

/-- Of two moments of a run one comes first: the moment before `s` is not later
than the other, or the other is not earlier than the moment after `s`. -/
theorem moments {earlier later earlier' later' : List RenamingStep} {s : RenamingStep}
    (h : earlier ++ s :: later = earlier' ++ later') :
    (∃ between, earlier = earlier' ++ between) ∨
      ∃ between, earlier' = earlier ++ [s] ++ between := by
  rcases List.append_eq_append_iff.mp h with ⟨between, rfl, hrest⟩ | ⟨between, rfl, -⟩
  · cases between with
    | nil => exact Or.inl ⟨[], by simp⟩
    | cons s' between =>
        obtain ⟨rfl, -⟩ := List.cons.inj hrest
        exact Or.inr ⟨between, by simp⟩
  · exact Or.inl ⟨between, rfl⟩

/-- Two operations of a run do not hand out the same letters. -/
theorem GaveLetters.unique {steps : List RenamingStep} {a b v : String}
    (ha : GaveLetters steps a v) (hb : GaveLetters steps b v) : a = b := by
  obtain ⟨earlier, literals, later, hsteps, hnew, hv⟩ := ha
  obtain ⟨earlier', literals', later', hsteps', hnew', hv'⟩ := hb
  -- The counter does not go back, so the later operation passes another part of the stream.
  have hcross : ∀ {a b : String} {earlier between : List RenamingStep}
      {literals literals' : List String}, a ∉ (after earlier).numbers →
      (after (earlier ++ [.numberAll literals .letters])).numbers[a]? = some v →
      b ∉ (after (earlier ++ [.numberAll literals .letters] ++ between)).numbers →
      (after (earlier ++ [.numberAll literals .letters] ++ between ++
        [.numberAll literals' .letters])).numbers[b]? = some v → False := by
    intro a b earlier between literals literals' ha hav hb hbv
    obtain ⟨-, -, i, hi, -, hlt⟩ := letters_of_split ha hav
    obtain ⟨-, -, j, hj, hle, -⟩ := letters_of_split hb hbv
    have hcounter := (extends_after (earlier ++ [.numberAll literals .letters]) between).counter
    exact letters_ne_of_lt hi hj hlt (Nat.le_trans hcounter hle) rfl
  have hsplit := hsteps.symm.trans hsteps'
  rcases moments hsplit with ⟨between, hbetween⟩ | ⟨between, rfl⟩
  · rcases moments hsplit.symm with ⟨between', hbetween'⟩ | ⟨between', rfl⟩
    · have hsame : earlier = earlier' := by
        have hlen := congrArg List.length hbetween
        have hlen' := congrArg List.length hbetween'
        simp only [List.length_append] at hlen hlen'
        have hnil : between = [] := List.length_eq_zero_iff.mp (by omega)
        rw [hbetween, hnil, List.append_nil]
      subst hsame
      obtain ⟨hs, -⟩ := List.cons.inj (List.append_cancel_left hsplit)
      rw [after_concat] at hv
      rw [← hs, after_concat] at hv'
      exact (extendsByLetters_addNumbers _ literals).distinct hnew hnew' hv hv'
    · exact (hcross hnew' hv' hnew hv).elim
  · exact (hcross hnew hv hnew' hv').elim

theorem orderly (steps : List RenamingStep) : Orderly steps where
  injective := (sound_after steps).injective
  words := by
    intro k v hv
    have hstart := (extends_after [] steps).newWord (by simp [after]) hv
    refine ⟨(sound_after steps).valid k v hv, hstart.1, ?_⟩
    rintro earlier later rfl hk hmem
    exact ((extends_after earlier later).newWord hk hv).2 (taken_of_mem_withheldBy hmem).1
  keys := by
    intro k hk
    obtain ⟨v, hv⟩ := exists_getElem? hk
    exact (extends_after [] steps).newKey (by simp [after]) hv
  distinct := GaveLetters.unique
  letters := by
    rintro l v ⟨earlier, literals, later, rfl, hnew, hv⟩
    obtain ⟨hword, hfree, -⟩ := letters_of_split hnew hv
    refine ⟨hword, fun earlier' later' hsplit hl hmem => ?_⟩
    rcases moments hsplit with ⟨between, rfl⟩ | ⟨between, rfl⟩
    · refine hfree (taken_of_mem_withheldBy ?_).2
      rw [withheldBy_append]
      exact List.mem_append_left _ hmem
    · exact hl (Mapping.mem_of_getElem? ((extends_after _ between).numbers hv))

/-- Whatever the operations of a run, each of them leaves the entries of both
mappings as they are, and after each of them the run is orderly. -/
theorem renaming_run (steps : List RenamingStep) (s : RenamingStep) :
    (∀ k v : String, (after steps).names[k]? = some v →
      (after (steps ++ [s])).names[k]? = some v) ∧
    (∀ l v : String, (after steps).numbers[l]? = some v →
      (after (steps ++ [s])).numbers[l]? = some v) ∧
    Orderly (steps ++ [s]) := by
  have hextends := extends_after steps [s]
  exact ⟨fun _ _ h => hextends.names h, fun _ _ h => hextends.numbers h, orderly _⟩

/-- Letters are handed out, the same letters and a word are withheld, and only
then a name gets a word. -/
def interleavedRun : List RenamingStep :=
  [.numberAll ["0x41"] .letters, .reserve "a = element;", .nameAll "var q;" ["q", "window"] {}]

theorem renaming_run_interleaved :
    (after interleavedRun).names["q"]? = some "container" ∧
      (after interleavedRun).numbers["0x41"]? = some "a" ∧
      GaveLetters (interleavedRun ++ [.numberAll ["0x41", "66"] .letters]) "66" "b" ∧
      (after (interleavedRun ++ [.numberAll ["0x41", "66"] .letters])).numbers["0x41"]? =
        some "a" ∧
      "container" ∉ withheldBy (interleavedRun.take 2) ∧
      "b" ∉ withheldBy interleavedRun := by
  have hq : (after interleavedRun).names["q"]? = some "container" := by decide +kernel
  have ha : (after interleavedRun).numbers["0x41"]? = some "a" := by decide +kernel
  have hb : GaveLetters (interleavedRun ++ [.numberAll ["0x41", "66"] .letters]) "66" "b" :=
    ⟨interleavedRun, _, [], rfl, by decide +kernel, by decide +kernel⟩
  obtain ⟨hnames, hnumbers, horderly⟩ :=
    renaming_run interleavedRun (.numberAll ["0x41", "66"] .letters)
  refine ⟨hq, ha, hb, hnumbers _ _ ha, ?_, ?_⟩
  · exact (horderly.words (hnames _ _ hq)).2.2 (interleavedRun.take 2) _ rfl (by decide +kernel)
  · exact (horderly.letters hb).2 interleavedRun _ rfl (by decide +kernel)

end Renaming

end Unmask
