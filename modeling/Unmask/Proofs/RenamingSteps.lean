/-
# `Unmask.Proofs.RenamingSteps` — what holds of every renaming under construction

A renaming is built by three operations, in any order and any number of times:
names of a script are reserved, names are given words, numbers are given
replacements.  Each operation is a fold of steps for one name or one literal,
and such a step either changes nothing or makes one entry.  That is said once
(`addName_cases`, `addNumber_cases`); what follows is proved from it.

* `Sound` holds of every renaming that can be reached (`sound_after`): the
  replacements of names are valid names, they are issued, and no two names
  share one.
* The names that have a replacement are those that had one and those that were
  asked for and allowed (`mem_names_addNames`); the numbers are those that had one
  and those that were asked for (`mem_numbers_addNumbers`).
-/
import Mathlib.Data.List.Basic
import Unmask.Proofs.NameStreams

namespace Unmask

/-- One operation on a renaming under construction. -/
inductive RenamingStep where
  | reserve (source : String)
  | nameAll (source : String) (names : List String) (protection : Protection)
  | numberAll (literals : List String) (style : NumberStyle)

namespace Renaming

def step (r : Renaming) : RenamingStep → Renaming
  | .reserve source => r.reserveNames source
  | .nameAll source names protection => r.addNames source names protection
  | .numberAll literals style => r.addNumbers literals style

/-- The renaming that a sequence of operations leads to. -/
def after (steps : List RenamingStep) : Renaming := steps.foldl step {}

/-! ## One entry at a time -/

theorem addName_cases (protection : Protection) (callable : Std.TreeSet String) (r : Renaming)
    (name : String) :
    (addName protection callable r name = r ∧
      (name ∈ r.names ∨ protection.allows name = false)) ∨
    ∃ role, name ∉ r.names ∧ protection.allows name = true ∧
      addName protection callable r name =
        { r with
          supply := (r.supply.nextWord role).2
          names := r.names.insert name (r.supply.nextWord role).1 } := by
  by_cases h : (r.names.contains name || !protection.allows name) = true
  · refine Or.inl ⟨by rw [addName, if_pos h], ?_⟩
    simpa [Std.TreeMap.contains_iff_mem] using h
  · refine Or.inr ⟨if callable.contains name then .function else .value, ?_, ?_, ?_⟩
    · intro hmem
      exact h (by simp [Std.TreeMap.contains_iff_mem, hmem])
    · by_contra hallow
      exact h (by simp [hallow])
    · rw [addName, if_neg h]

theorem addNumber_cases (style : NumberStyle) (r : Renaming) (literal : String) :
    (addNumber style r literal = r ∧ literal ∈ r.numbers) ∨
    (literal ∉ r.numbers ∧
      (style = .letters ∧ addNumber style r literal =
        { r with
          supply := r.supply.nextLetters.2
          numbers := r.numbers.insert literal r.supply.nextLetters.1 } ∨
      style = .characters ∧ addNumber style r literal =
        { r with numbers := r.numbers.insert literal (decodedNumber literal) })) := by
  by_cases h : r.numbers.contains literal = true
  · exact Or.inl ⟨by unfold addNumber; rw [if_pos h], Std.TreeMap.contains_iff_mem.mp h⟩
  · refine Or.inr ⟨fun hmem => h (Std.TreeMap.contains_iff_mem.mpr hmem), ?_⟩
    cases style with
    | letters => exact Or.inl ⟨rfl, by rw [addNumber, if_neg h]⟩
    | characters => exact Or.inr ⟨rfl, by rw [addNumber, if_neg h]⟩

end Renaming

/-- Different spellings have different replacements. -/
def Mapping.Injective (m : Mapping) : Prop :=
  ∀ {a b v : String}, m[a]? = some v → m[b]? = some v → a = b

theorem Mapping.mem_of_getElem? {m : Mapping} {k v : String} (h : m[k]? = some v) : k ∈ m := by
  rw [Std.TreeMap.mem_iff_isSome_getElem?, h]
  rfl

namespace Renaming

/-! ## Soundness of every reachable renaming -/

/-- The replacements of names are valid, issued and different for different names. -/
structure Sound (r : Renaming) : Prop where
  valid : r.names.Valid
  issued : ∀ {k v : String}, r.names[k]? = some v → v ∈ r.supply.issued
  injective : r.names.Injective

theorem sound_empty : Sound {} where
  valid := fun k v h => by simp at h
  issued := fun h => by simp at h
  injective := fun h => by simp at h

theorem getElem?_insert_cases {m : Mapping} {k v a w : String}
    (h : (m.insert k v)[a]? = some w) : (a = k ∧ w = v) ∨ (a ≠ k ∧ m[a]? = some w) := by
  rw [Std.TreeMap.getElem?_insert] at h
  split_ifs at h with hk
  · exact Or.inl ⟨(Std.LawfulEqCmp.compare_eq_iff_eq.mp hk).symm, (Option.some.inj h).symm⟩
  · exact Or.inr ⟨fun heq => hk (Std.LawfulEqCmp.compare_eq_iff_eq.mpr heq.symm), h⟩

/-- What one new entry keeps: the word was free, so it is nobody's replacement. -/
theorem Sound.addName {r : Renaming} (h : Sound r) (protection : Protection)
    (callable : Std.TreeSet String) (name : String) :
    Sound (addName protection callable r name) := by
  rcases addName_cases protection callable r name with ⟨heq, -⟩ | ⟨role, -, -, heq⟩
  · rw [heq]
    exact h
  · obtain ⟨n, hfirst, hnext⟩ := r.supply.nextWord_spec role
    have hfresh : role.nameAt n ∉ r.supply.issued :=
      (NameSupply.wordFree_iff.mp hfirst.isFree).1
    rw [heq, hnext]
    constructor
    · intro k v hv
      rcases getElem?_insert_cases hv with ⟨-, rfl⟩ | ⟨-, hv⟩
      · exact isValid_nameAt role n
      · exact h.valid k v hv
    · intro k v hv
      refine Std.TreeSet.mem_insert.mpr ?_
      rcases getElem?_insert_cases hv with ⟨-, rfl⟩ | ⟨-, hv⟩
      · exact Or.inl (Std.LawfulEqCmp.compare_eq_iff_eq.mpr rfl)
      · exact Or.inr (h.issued hv)
    · intro a b v ha hb
      rcases getElem?_insert_cases ha with ⟨rfl, rfl⟩ | ⟨-, ha⟩
      · rcases getElem?_insert_cases hb with ⟨rfl, -⟩ | ⟨-, hb⟩
        · rfl
        · exact absurd (h.issued hb) hfresh
      · rcases getElem?_insert_cases hb with ⟨-, rfl⟩ | ⟨-, hb⟩
        · exact absurd (h.issued ha) hfresh
        · exact h.injective ha hb

theorem Sound.addNumber {r : Renaming} (h : Sound r) (style : NumberStyle) (literal : String) :
    Sound (addNumber style r literal) := by
  rcases addNumber_cases style r literal with ⟨heq, -⟩ | ⟨-, ⟨-, heq⟩ | ⟨-, heq⟩⟩
  · rw [heq]
    exact h
  · obtain ⟨n, -, hnext⟩ := r.supply.nextLetters_spec
    rw [heq, hnext]
    exact ⟨h.valid, h.issued, h.injective⟩
  · rw [heq]
    exact ⟨h.valid, h.issued, h.injective⟩

theorem Sound.step {r : Renaming} (h : Sound r) (s : RenamingStep) : Sound (r.step s) := by
  cases s with
  | reserve source =>
      refine ⟨h.valid, fun hv => ?_, h.injective⟩
      exact Std.TreeSet.mem_insertMany_list.mpr (Or.inl (h.issued hv))
  | nameAll source names protection =>
      exact List.foldlRecOn names _ h fun _ hr name _ => hr.addName protection _ name
  | numberAll literals style =>
      exact List.foldlRecOn literals _ h fun _ hr literal _ => hr.addNumber style literal

theorem sound_after (steps : List RenamingStep) : Sound (after steps) :=
  List.foldlRecOn steps _ sound_empty fun _ hr s _ => hr.step s

/-! ## Names of a script -/

theorem mem_toList_nameSet {source x : String} :
    x ∈ (nameSet source).toList ↔ x ∈ tokenTexts .name source := by
  rw [Std.TreeSet.mem_toList, nameSet, Std.TreeSet.mem_ofList, List.contains_iff_mem]

theorem mem_insertMany_nameSet {source x : String} {t : Std.TreeSet String}
    (h : x ∈ tokenTexts .name source) : x ∈ t.insertMany (nameSet source).toList :=
  Std.TreeSet.mem_insertMany_list.mpr
    (Or.inr (List.contains_iff_mem.mpr (mem_toList_nameSet.mpr h)))

/-! ## What has a replacement -/

theorem mem_names_addName {protection : Protection} {callable : Std.TreeSet String}
    {r : Renaming} {name k : String} :
    k ∈ (addName protection callable r name).names ↔
      k ∈ r.names ∨ (k = name ∧ protection.allows name = true) := by
  rcases addName_cases protection callable r name with ⟨heq, hno⟩ | ⟨role, -, hallow, heq⟩
  · rw [heq]
    refine ⟨Or.inl, ?_⟩
    rintro (hk | ⟨rfl, hallow⟩)
    · exact hk
    · rcases hno with hmem | hdeny
      · exact hmem
      · rw [hallow] at hdeny
        exact Bool.noConfusion hdeny
  · rw [heq, Std.TreeMap.mem_insert, Std.LawfulEqCmp.compare_eq_iff_eq]
    constructor
    · rintro (rfl | hk)
      · exact Or.inr ⟨rfl, hallow⟩
      · exact Or.inl hk
    · rintro (hk | ⟨rfl, -⟩)
      · exact Or.inr hk
      · exact Or.inl rfl

theorem mem_names_addNames {source : String} {protection : Protection} {k : String} :
    ∀ {names : List String} {r : Renaming},
      k ∈ (r.addNames source names protection).names ↔
        k ∈ r.names ∨ (k ∈ names ∧ protection.allows k = true) := by
  intro names
  induction names with
  | nil =>
      intro r
      simp [addNames]
  | cons name names ih =>
      intro r
      have hstep : r.addNames source (name :: names) protection =
          (addName protection (callableNames source) r name).addNames source names protection :=
        rfl
      rw [hstep, ih, mem_names_addName, List.mem_cons]
      constructor
      · rintro ((hk | ⟨rfl, hallow⟩) | ⟨hk, hallow⟩)
        · exact Or.inl hk
        · exact Or.inr ⟨Or.inl rfl, hallow⟩
        · exact Or.inr ⟨Or.inr hk, hallow⟩
      · rintro (hk | ⟨rfl | hk, hallow⟩)
        · exact Or.inl (Or.inl hk)
        · exact Or.inl (Or.inr ⟨rfl, hallow⟩)
        · exact Or.inr ⟨hk, hallow⟩

theorem mem_numbers_addNumber {style : NumberStyle} {r : Renaming} {literal k : String} :
    k ∈ (addNumber style r literal).numbers ↔ k ∈ r.numbers ∨ k = literal := by
  have hinsert : ∀ v : String,
      k ∈ r.numbers.insert literal v ↔ k ∈ r.numbers ∨ k = literal := by
    intro v
    rw [Std.TreeMap.mem_insert, Std.LawfulEqCmp.compare_eq_iff_eq, or_comm, eq_comm]
  rcases addNumber_cases style r literal with ⟨heq, hmem⟩ | ⟨-, ⟨-, heq⟩ | ⟨-, heq⟩⟩
  · rw [heq]
    refine ⟨Or.inl, ?_⟩
    rintro (hk | rfl)
    · exact hk
    · exact hmem
  · rw [heq]
    exact hinsert _
  · rw [heq]
    exact hinsert _

theorem mem_numbers_addNumbers {style : NumberStyle} {k : String} :
    ∀ {literals : List String} {r : Renaming},
      k ∈ (r.addNumbers literals style).numbers ↔ k ∈ r.numbers ∨ k ∈ literals := by
  intro literals
  induction literals with
  | nil =>
      intro r
      simp [addNumbers]
  | cons literal literals ih =>
      intro r
      have hstep : r.addNumbers (literal :: literals) style =
          (addNumber style r literal).addNumbers literals style := rfl
      rw [hstep, ih, mem_numbers_addNumber, List.mem_cons, or_assoc]

theorem numbers_addNames (source : String) (names : List String) (protection : Protection)
    (r : Renaming) : (r.addNames source names protection).numbers = r.numbers := by
  refine List.foldlRecOn names _ (motive := fun r' : Renaming => r'.numbers = r.numbers) rfl
    fun r' hr name _ => ?_
  rcases addName_cases protection (callableNames source) r' name with ⟨heq, -⟩ | ⟨role, -, -, heq⟩
  · rw [heq]
    exact hr
  · rw [heq]
    exact hr

theorem names_addNumbers (literals : List String) (style : NumberStyle) (r : Renaming) :
    (r.addNumbers literals style).names = r.names := by
  refine List.foldlRecOn literals _ (motive := fun r' : Renaming => r'.names = r.names) rfl
    fun r' hr literal _ => ?_
  rcases addNumber_cases style r' literal with ⟨heq, -⟩ | ⟨-, ⟨-, heq⟩ | ⟨-, heq⟩⟩
  · rw [heq]
    exact hr
  · rw [heq]
    exact hr
  · rw [heq]
    exact hr

end Renaming

end Unmask
