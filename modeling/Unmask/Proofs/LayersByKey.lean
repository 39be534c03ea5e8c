/-
# `Unmask.Proofs.LayersByKey` — layers laid over each other, seen at one key

A layer is laid over a table entry by entry, and an entry may reach into what stands
there: its key is a path, and a table is merged and not put in place of what it finds.
At one key of the table all this is simpler.  An entry changes the key that its path
starts with and no other (`put_eq`), so that what stands at a key comes from the
entries that concern it (`standing`), and all the others may as well be left out:

    `merged_about`             what stands at a key, without the entries on other keys
    `merged_eq_none_iff`       the layers cannot be merged iff they cannot be at some key
    `standing_congr`           the entries on a key decide, in the order they come in

Among the entries that concern a key, those that spell a longer path work on parts of its
value.  Where there are none, the layers compete for the key, and the highest layer with an
entry of that key wins, unless the entry is a table without fields, which changes nothing
(`seen_of_highest`).  A table with fields is merged with what stands below it, but what
comes of it is a table again, and no setting is read from a table.  Hence the statement is
about what is read and not about what stands there.
-/
import Mathlib.Data.List.TakeWhile
import Mathlib.Data.String.Basic
import Unmask.Settings

namespace Unmask

namespace Value

/-! ## Fields -/

theorem field?_cons (f : String × Value) (fs : List (String × Value)) (key : String) :
    field? (f :: fs) key = if f.1 = key then some f.2 else field? fs key := by
  by_cases h : f.1 = key
  · simp [field?, h]
  · simp [field?, h]

theorem field?_putField (word key : String) (v : Value) (fs : List (String × Value)) :
    field? (putField word v fs) key = if key = word then some v else field? fs key := by
  induction fs with
  | nil => simp only [putField, field?_cons, eq_comm]
  | cons f fs ih =>
      by_cases hword : f.1 = word
      · simp only [putField, hword, beq_self_eq_true, if_true, field?_cons]
        by_cases hkey : key = word
        · rw [if_pos hkey.symm, if_pos hkey]
        · rw [if_neg (Ne.symm hkey), if_neg hkey, if_neg (Ne.symm hkey)]
      · simp only [putField, beq_eq_false_iff_ne.mpr hword, Bool.false_eq_true, if_false,
          field?_cons, ih]
        by_cases hkey : key = word
        · rw [if_pos hkey, if_pos hkey, if_neg (hkey ▸ hword)]
        · rw [if_neg hkey, if_neg hkey]

theorem field?_eq_some_iff {fs : List (String × Value)} (hkeys : (fs.map Prod.fst).Nodup)
    {key : String} {v : Value} : field? fs key = some v ↔ (key, v) ∈ fs := by
  induction fs with
  | nil => simp [field?]
  | cons f fs ih =>
      rw [List.map_cons, List.nodup_cons] at hkeys
      rw [field?_cons, List.mem_cons]
      by_cases hkey : f.1 = key
      · have hlater : (key, v) ∉ fs := fun hmem => hkeys.1 (hkey ▸ List.mem_map_of_mem hmem)
        rw [if_pos hkey, Option.some.injEq]
        constructor
        · intro hv
          exact Or.inl (Prod.ext hkey.symm hv.symm)
        · rintro (hmem | hmem)
          · exact (congrArg Prod.snd hmem).symm
          · exact absurd hmem hlater
      · rw [if_neg hkey, ih hkeys.2]
        constructor
        · exact Or.inr
        · rintro (hmem | hmem)
          · exact absurd (congrArg Prod.fst hmem).symm hkey
          · exact hmem

/-! ## One entry -/

/-- What a value makes of the one that it is set on. -/
def joined (old : Option Value) : Value → Value
  | .table fs => (old.getD (.table [])).withFields fs
  | v => v

/-- What a value set behind the first word of a path makes of what stands at that word. -/
def laid (old : Option Value) : List Step → Value → Option Value
  | [], v => some (joined old v)
  | step :: steps, v => (old.getD .null).put (step :: steps) v

theorem withField_eq (target : Value) (key : String) (v : Value) :
    target.withField key v =
      .table (putField key (joined (field? target.fields key) v) target.fields) := by
  cases v <;> rfl

/-- An entry changes the key that its path starts with, and no other. -/
theorem put_eq (target : Value) (word : String) (steps : List Step) (v : Value) :
    target.put (.field word :: steps) v =
      (laid (field? target.fields word) steps v).map fun part =>
        .table (putField word part target.fields) := by
  cases steps with
  | nil =>
      rw [put, withField_eq]
      rfl
  | cons step steps =>
      rw [put]
      · exact Option.map_eq_bind.symm
      · exact List.cons_ne_nil _ _

theorem position?_eq_none {index : Int} {length : Nat} (h : position? index length = none) :
    index < 0 := by
  rw [position?] at h
  split_ifs at h with hpos
  exact Int.not_le.mp hpos

/-- Only a step to an item that is counted from the end can fail. -/
theorem exists_item_of_put {target : Value} {steps : List Step} {v : Value}
    (h : target.put steps v = none) : ∃ index < 0, .item index ∈ steps := by
  induction steps generalizing target with
  | nil => cases h
  | cons step steps ih =>
      cases step with
      | field word =>
          rw [put_eq, Option.map_eq_none_iff] at h
          cases steps with
          | nil => cases h
          | cons step steps =>
              obtain ⟨index, hneg, hmem⟩ := ih h
              exact ⟨index, hneg, List.mem_cons_of_mem _ hmem⟩
      | item index =>
          rw [put] at h
          cases hplace : position? index target.items.length with
          | none => exact ⟨index, position?_eq_none hplace, List.mem_cons_self⟩
          | some n =>
              have hpart : (target.items[n]?.getD .null).put steps v = none := by
                rw [hplace] at h
                exact Option.map_eq_none_iff.mp (Option.map_eq_bind.trans h)
              obtain ⟨index', hneg, hmem⟩ := ih hpart
              exact ⟨index', hneg, List.mem_cons_of_mem _ hmem⟩

theorem exists_withFields_cons (target : Value) (f : String × Value)
    (fs : List (String × Value)) : ∃ gs, target.withFields (f :: fs) = .table gs := by
  induction fs generalizing target f with
  | nil => exact ⟨_, withField_eq target f.1 f.2⟩
  | cons g fs ih => exact ih (target.withField f.1 f.2) g

end Value

/-! ## Paths -/

theorem exists_keyPath_eq (key : String) : ∃ word steps, keyPath key = .field word :: steps := by
  simp only [keyPath]
  split
  · split_ifs
    · exact ⟨_, _, rfl⟩
    · exact ⟨_, _, rfl⟩
  · exact ⟨_, _, rfl⟩

theorem eq_nil_of_steps?_eq {fuel : Nat} {cs : List Char} (h : steps? fuel cs = some []) :
    cs = [] := by
  fun_cases steps? fuel cs <;> simp_all [steps?, Option.bind_eq_some_iff]

theorem eq_of_keyPath_eq {key word : String} (h : keyPath key = [.field word]) : key = word := by
  simp only [keyPath] at h
  split at h
  · next steps hsteps =>
      split_ifs at h with hempty
      · simpa using h
      · simp only [List.cons.injEq, Step.field.injEq] at h
        obtain ⟨rfl, rfl⟩ := h
        have hall := List.takeWhile_append_dropWhile (p := isKeyChar) (l := key.toList)
        rw [eq_nil_of_steps?_eq hsteps, List.append_nil] at hall
        rw [hall, String.ofList_toList]
  · simpa using h

/-- The key of an entry is a path that starts at a key of the settings. -/
def concerns (key : String) (e : String × Value) : Bool :=
  (keyPath e.1).head? == some (.field key)

/-- A key is another, or spells a path into its value. -/
def StartsAt (key path : String) : Prop := ∃ steps, keyPath path = .field key :: steps

theorem startsAt_of_concerns {key : String} {e : String × Value} (h : concerns key e = true) :
    StartsAt key e.1 := by
  obtain ⟨word, steps, hpath⟩ := exists_keyPath_eq e.1
  have hword : word = key := by simpa [concerns, hpath] using h
  exact ⟨steps, hword ▸ hpath⟩

/-- A key spells a path into the value of another, by a field or an item of it. -/
def LeadsInto (key path : String) : Prop :=
  ∃ step steps, keyPath path = .field key :: step :: steps

/-- A key spells a path that counts items from the end of a list. -/
def CountsBack (path : String) : Prop := ∃ index < 0, .item index ∈ keyPath path

/-- Where no path leads into its value, a key is concerned by its own entries only. -/
theorem concerns_iff {key : String} (hkey : keyPath key = [.field key]) {e : String × Value}
    (hfree : ¬ LeadsInto key e.1) : concerns key e = true ↔ e.1 = key := by
  constructor
  · intro h
    obtain ⟨steps, hpath⟩ := startsAt_of_concerns h
    cases steps with
    | nil => exact eq_of_keyPath_eq hpath
    | cons step steps => exact absurd ⟨step, steps, hpath⟩ hfree
  · intro h
    rw [concerns, h, hkey]
    exact beq_self_eq_true _

/-! ## One layer -/

namespace Layer

def about (key : String) (l : Layer) : Layer := l.filter (concerns key)

theorem mem_of_mem_settled {l : Layer} {e : String × Value} (h : e ∈ l.settled) : e ∈ l := by
  induction l with
  | nil => exact h
  | cons f l ih =>
      rw [settled] at h
      split_ifs at h
      · exact List.mem_cons_of_mem f (ih h)
      · rcases List.mem_cons.mp h with rfl | h
        · exact List.mem_cons_self
        · exact List.mem_cons_of_mem f (ih h)

theorem nodup_keys_settled (l : Layer) : (l.settled.map Prod.fst).Nodup := by
  induction l with
  | nil => exact List.nodup_nil
  | cons e l ih =>
      rw [settled]
      split_ifs with hany
      · exact ih
      · rw [List.map_cons, List.nodup_cons]
        refine ⟨?_, ih⟩
        intro hmem
        obtain ⟨f, hf, hkey⟩ := List.mem_map.mp hmem
        exact hany (List.any_eq_true.mpr ⟨f, mem_of_mem_settled hf, beq_iff_eq.mpr hkey⟩)

/-- Of equal keys the last counts. -/
theorem field?_settled_eq_some_iff {l : Layer} {key : String} {v : Value} :
    Value.field? l.settled key = some v ↔
      ∃ front back, l = front ++ (key, v) :: back ∧ ∀ e ∈ back, e.1 ≠ key := by
  induction l with
  | nil => simp [settled, Value.field?]
  | cons e l ih =>
      -- The first entry is the last of its key, or a later one takes its place.
      have hany : (l.any fun f => f.1 == e.1) = true ↔ ∃ f ∈ l, f.1 = e.1 := by simp
      constructor
      · intro h
        rw [settled] at h
        by_cases hkey : e.1 = key ∧ ¬ ∃ f ∈ l, f.1 = e.1
        · rw [if_neg (hany.not.mpr hkey.2), Value.field?_cons, if_pos hkey.1] at h
          refine ⟨[], l, ?_, ?_⟩
          · rw [← hkey.1, ← Option.some.inj h]
            rfl
          · intro f hf hfe
            exact hkey.2 ⟨f, hf, hfe.trans hkey.1.symm⟩
        · have hlater : Value.field? (settled l) key = some v := by
            split_ifs at h with hmem
            · exact h
            · have hne : e.1 ≠ key := fun hek => hkey ⟨hek, hany.not.mp hmem⟩
              rwa [Value.field?_cons, if_neg hne] at h
          obtain ⟨front, back, rfl, hback⟩ := ih.mp hlater
          exact ⟨e :: front, back, rfl, hback⟩
      · rintro ⟨front, back, heq, hback⟩
        rw [settled]
        cases front with
        | nil =>
            obtain ⟨rfl, rfl⟩ := List.cons.inj heq
            have hnone : ¬ ∃ f ∈ l, f.1 = key := by
              rintro ⟨f, hf, hfk⟩
              exact hback f hf hfk
            rw [if_neg (hany.not.mpr hnone), Value.field?_cons, if_pos rfl]
        | cons f front =>
            obtain ⟨rfl, rfl⟩ := List.cons.inj heq
            have hlater := ih.mpr ⟨front, back, rfl, hback⟩
            split_ifs with hmem
            · exact hlater
            · have hne : e.1 ≠ key := by
                intro hek
                refine hmem (hany.mpr ⟨(key, v), ?_, hek.symm⟩)
                exact List.mem_append_right _ List.mem_cons_self
              rw [Value.field?_cons, if_neg hne]
              exact hlater

theorem settled_about (key : String) (l : Layer) :
    (l.about key).settled = l.settled.filter (concerns key) := by
  induction l with
  | nil => rfl
  | cons e l ih =>
      rw [about] at ih ⊢
      by_cases he : concerns key e = true
      · -- Entries of one key concern it alike, so none that counts is left out.
        have hany : ((l.filter (concerns key)).any fun f => f.1 == e.1) =
            l.any fun f => f.1 == e.1 := by
          rw [List.any_filter]
          refine List.any_congr rfl ?_
          intro f
          by_cases hf : f.1 = e.1
          · have hconcerns : concerns key f = true := by rwa [concerns, hf]
            rw [hconcerns, Bool.true_and]
          · simp [hf]
        rw [List.filter_cons_of_pos he, settled, settled, hany]
        split_ifs
        · exact ih
        · rw [List.filter_cons_of_pos he, ih]
      · rw [List.filter_cons_of_neg he, settled, ih]
        split_ifs
        · rfl
        · rw [List.filter_cons_of_neg he]

/-- What entries make of what stands at a key, from those that concern it. -/
def laidAt (key : String) (entries : Layer) (old : Option Value) : Option (Option Value) :=
  (entries.filter (concerns key)).foldlM
    (fun old e => (Value.laid old (keyPath e.1).tail e.2).map some) old

theorem laidAt_cons {e : String × Value} {below table : Value}
    (hput : below.put (keyPath e.1) e.2 = some table) (entries : Layer) (key : String) :
    laidAt key (e :: entries) (Value.field? below.fields key) =
      laidAt key entries (Value.field? table.fields key) := by
  obtain ⟨word, steps, hpath⟩ := exists_keyPath_eq e.1
  rw [hpath, Value.put_eq] at hput
  obtain ⟨part, hpart, rfl⟩ := Option.map_eq_some_iff.mp hput
  have hfield := Value.field?_putField word key part below.fields
  by_cases hkey : key = word
  · subst hkey
    have hconcerns : concerns key e = true := by simp [concerns, hpath]
    rw [if_pos rfl] at hfield
    show _ = laidAt key entries (Value.field? (Value.putField key part below.fields) key)
    rw [laidAt, List.filter_cons_of_pos hconcerns, List.foldlM_cons, hpath, List.tail_cons,
      hpart, hfield]
    rfl
  · have hconcerns : ¬ concerns key e = true := by simp [concerns, hpath, Ne.symm hkey]
    rw [if_neg hkey] at hfield
    show _ = laidAt key entries (Value.field? (Value.putField word part below.fields) key)
    rw [laidAt, List.filter_cons_of_neg hconcerns, hfield]
    rfl

theorem exists_laidAt_cons {e : String × Value} {below : Value}
    (hput : below.put (keyPath e.1) e.2 = none) (entries : Layer) :
    ∃ key, laidAt key (e :: entries) (Value.field? below.fields key) = none := by
  obtain ⟨word, steps, hpath⟩ := exists_keyPath_eq e.1
  rw [hpath, Value.put_eq, Option.map_eq_none_iff] at hput
  have hconcerns : concerns word e = true := by simp [concerns, hpath]
  refine ⟨word, ?_⟩
  rw [laidAt, List.filter_cons_of_pos hconcerns, List.foldlM_cons, hpath, List.tail_cons, hput]
  rfl

theorem laidAt_of_setAll {entries : Layer} {below table : Value}
    (h : entries.setAll below = some table) (key : String) :
    laidAt key entries (Value.field? below.fields key) = some (Value.field? table.fields key) := by
  induction entries generalizing below with
  | nil =>
      cases h
      rfl
  | cons e entries ih =>
      rw [setAll, List.foldlM_cons] at h
      obtain ⟨middle, hput, hrest⟩ := Option.bind_eq_some_iff.mp h
      rw [laidAt_cons hput]
      exact ih hrest

/-- Where entries cannot all be set, there is a first one that cannot. -/
theorem exists_first_of_setAll {entries : Layer} {below : Value}
    (h : entries.setAll below = none) :
    ∃ (front : Layer) (e : String × Value) (back : Layer) (table : Value),
      entries = front ++ e :: back ∧ front.setAll below = some table ∧
        table.put (keyPath e.1) e.2 = none := by
  induction entries generalizing below with
  | nil => cases h
  | cons e entries ih =>
      rw [setAll, List.foldlM_cons] at h
      cases hput : below.put (keyPath e.1) e.2 with
      | none => exact ⟨[], e, entries, below, rfl, rfl, hput⟩
      | some middle =>
          obtain ⟨front, f, back, table, rfl, hfront, hstop⟩ :=
            ih (Option.bind_eq_none_iff.mp h middle hput)
          refine ⟨e :: front, f, back, table, rfl, ?_, hstop⟩
          rw [setAll, List.foldlM_cons, hput]
          exact hfront

theorem exists_laidAt_of_setAll {entries : Layer} {below : Value}
    (h : entries.setAll below = none) :
    ∃ key, laidAt key entries (Value.field? below.fields key) = none := by
  obtain ⟨front, e, back, table, rfl, hfront, hstop⟩ := exists_first_of_setAll h
  obtain ⟨key, hkey⟩ := exists_laidAt_cons hstop back
  refine ⟨key, ?_⟩
  have hbefore := laidAt_of_setAll hfront key
  rw [laidAt] at hbefore hkey ⊢
  rw [List.filter_append, List.foldlM_append, hbefore]
  exact hkey

theorem exists_countsBack_of_setAll {entries : Layer} {below : Value}
    (h : entries.setAll below = none) : ∃ e ∈ entries, CountsBack e.1 := by
  obtain ⟨front, e, back, table, rfl, -, hstop⟩ := exists_first_of_setAll h
  exact ⟨e, List.mem_append_right front List.mem_cons_self, Value.exists_item_of_put hstop⟩

theorem filter_concerns_of_perm {key : String} {l l' : Layer} (hperm : l'.settled.Perm l.settled)
    (hone : ∀ e ∈ l.settled, ∀ f ∈ l.settled,
      concerns key e = true → concerns key f = true → e.1 = f.1) :
    l'.settled.filter (concerns key) = l.settled.filter (concerns key) := by
  have hfilter := hperm.filter (concerns key)
  have hkeys : ((l.settled.filter (concerns key)).map Prod.fst).Nodup :=
    l.nodup_keys_settled.sublist (List.filter_sublist.map Prod.fst)
  have hmem : ∀ e ∈ l.settled.filter (concerns key), e ∈ l.settled ∧ concerns key e = true :=
    fun e he => List.mem_filter.mp he
  generalize l.settled.filter (concerns key) = about at hfilter hkeys hmem ⊢
  match about with
  | [] => exact hfilter.eq_nil
  | [e] => exact List.perm_singleton.mp hfilter
  | e :: f :: rest =>
      obtain ⟨he, hconcerns⟩ := hmem e List.mem_cons_self
      obtain ⟨hf, hconcerns'⟩ := hmem f (List.mem_cons_of_mem e List.mem_cons_self)
      have hsame := hone e he f hf hconcerns hconcerns'
      simp [hsame] at hkeys

end Layer

/-! ## All layers -/

/-- What layers leave at a key, from the entries that concern it, the topmost first. -/
def standing (key : String) : List Layer → Option (Option Value)
  | [] => some none
  | l :: below => (standing key below).bind (Layer.laidAt key l.settled)

theorem standing_of_merged {layers : List Layer} {table : Value} (h : merged layers = some table)
    (key : String) : standing key layers = some (Value.field? table.fields key) := by
  induction layers generalizing table with
  | nil =>
      cases h
      rfl
  | cons l layers ih =>
      obtain ⟨below, hbelow, hover⟩ := Option.bind_eq_some_iff.mp h
      rw [standing, ih hbelow]
      exact Layer.laidAt_of_setAll hover key

theorem exists_standing_of_merged {layers : List Layer} (h : merged layers = none) :
    ∃ key, standing key layers = none := by
  induction layers with
  | nil => cases h
  | cons l layers ih =>
      cases hbelow : merged layers with
      | none =>
          obtain ⟨key, hkey⟩ := ih hbelow
          refine ⟨key, ?_⟩
          rw [standing, hkey]
          rfl
      | some below =>
          obtain ⟨key, hkey⟩ :=
            Layer.exists_laidAt_of_setAll (Option.bind_eq_none_iff.mp h below hbelow)
          refine ⟨key, ?_⟩
          rw [standing, standing_of_merged hbelow]
          exact hkey

theorem standing_congr {ι : Type} {key : String} (is : List ι) {f g : ι → Layer}
    (h : ∀ i ∈ is, (f i).settled.filter (concerns key) = (g i).settled.filter (concerns key)) :
    standing key (is.map f) = standing key (is.map g) := by
  induction is with
  | nil => rfl
  | cons i is ih =>
      have hlater : standing key (is.map f) = standing key (is.map g) := by
        refine ih ?_
        intro j hj
        exact h j (List.mem_cons_of_mem i hj)
      have hlaid : Layer.laidAt key (f i).settled = Layer.laidAt key (g i).settled := by
        funext old
        rw [Layer.laidAt, h i List.mem_cons_self]
        rfl
      rw [List.map_cons, List.map_cons, standing, standing, hlater, hlaid]

theorem standing_about (key : String) (layers : List Layer) :
    standing key (layers.map (Layer.about key)) = standing key layers := by
  have hsame : ∀ l ∈ layers, (l.about key).settled.filter (concerns key) =
      (id l).settled.filter (concerns key) := by
    intro l _
    rw [Layer.settled_about, List.filter_filter]
    simp only [Bool.and_self, id]
  have h := standing_congr layers hsame
  rwa [List.map_id] at h

theorem standing_about_of_ne {key other : String} (h : other ≠ key) (layers : List Layer) :
    standing other (layers.map (Layer.about key)) = some none := by
  induction layers with
  | nil => rfl
  | cons l layers ih =>
      have hnil : (l.settled.filter (concerns key)).filter (concerns other) = [] := by
        rw [List.filter_filter, List.filter_eq_nil_iff]
        intro e _ he
        simp only [concerns, Bool.and_eq_true, beq_iff_eq] at he
        have hsame := he.1.symm.trans he.2
        simp only [Option.some.injEq, Step.field.injEq] at hsame
        exact h hsame
      rw [List.map_cons, standing, ih]
      show Layer.laidAt other (l.about key).settled none = some none
      rw [Layer.laidAt, Layer.settled_about, hnil]
      rfl

/-- What stands at a key is the same when the entries on other keys are left out. -/
theorem merged_about (layers : List Layer) (key : String) :
    (merged (layers.map (Layer.about key))).map (fun table => Value.field? table.fields key) =
      standing key layers := by
  rw [← standing_about]
  cases h : merged (layers.map (Layer.about key)) with
  | none =>
      obtain ⟨other, hother⟩ := exists_standing_of_merged h
      have hkey : other = key := by
        by_contra hne
        cases (standing_about_of_ne hne layers).symm.trans hother
      exact (hkey ▸ hother).symm
  | some table => exact (standing_of_merged h key).symm

/-- The layers cannot be merged iff they cannot be merged at some key. -/
theorem merged_eq_none_iff (layers : List Layer) :
    merged layers = none ↔ ∃ key, merged (layers.map (Layer.about key)) = none := by
  constructor
  · intro h
    obtain ⟨key, hkey⟩ := exists_standing_of_merged h
    rw [← merged_about, Option.map_eq_none_iff] at hkey
    exact ⟨key, hkey⟩
  · rintro ⟨key, hkey⟩
    cases h : merged layers with
    | none => rfl
    | some table =>
        have hstanding := (merged_about layers key).trans (standing_of_merged h key)
        rw [hkey] at hstanding
        cases hstanding

theorem exists_countsBack_of_merged {layers : List Layer} (h : merged layers = none) :
    ∃ l ∈ layers, ∃ e ∈ l.settled, CountsBack e.1 := by
  induction layers with
  | nil => cases h
  | cons l layers ih =>
      cases hbelow : merged layers with
      | none =>
          obtain ⟨l', hl', hback⟩ := ih hbelow
          exact ⟨l', List.mem_cons_of_mem l hl', hback⟩
      | some below =>
          have hover : l.over below = none := Option.bind_eq_none_iff.mp h below hbelow
          exact ⟨l, List.mem_cons_self, Layer.exists_countsBack_of_setAll hover⟩

/-! ## Layers that compete for a key -/

section Competition

variable {α : Type} {as? : Value → Option α} {key : String}

def seenAt (as? : Value → Option α) (key : String) (table : Value) : Option α :=
  (Value.field? table.fields key).bind as?

theorem filter_concerns (hkey : keyPath key = [.field key]) {entries : Layer}
    (hkeys : (entries.map Prod.fst).Nodup) (hfree : ∀ e ∈ entries, ¬ LeadsInto key e.1) :
    entries.filter (concerns key) =
      ((Value.field? entries key).map fun v => (key, v)).toList := by
  have hown : ∀ e ∈ entries, concerns key e = true ↔ e.1 = key := by
    intro e he
    exact concerns_iff hkey (hfree e he)
  clear hfree
  induction entries with
  | nil => rfl
  | cons e entries ih =>
      rw [List.map_cons, List.nodup_cons] at hkeys
      have hlater : ∀ f ∈ entries, concerns key f = true ↔ f.1 = key := by
        intro f hf
        exact hown f (List.mem_cons_of_mem e hf)
      have he := hown e List.mem_cons_self
      rw [Value.field?_cons]
      split_ifs with hek
      · have hnil : entries.filter (concerns key) = [] := by
          refine List.filter_eq_nil_iff.mpr ?_
          intro f hf hfk
          exact hkeys.1 (hek.trans ((hlater f hf).mp hfk).symm ▸ List.mem_map_of_mem hf)
        rw [List.filter_cons_of_pos (he.mpr hek), hnil, ← hek]
        rfl
      · rw [List.filter_cons_of_neg (mt he.mp hek)]
        exact ih hkeys.2 hlater

theorem laidAt_of_free (hkey : keyPath key = [.field key]) {l : Layer}
    (hfree : ∀ e ∈ l.settled, ¬ LeadsInto key e.1) (old : Option Value) :
    Layer.laidAt key l.settled old =
      match Value.field? l.settled key with
      | some v => some (some (Value.joined old v))
      | none => some old := by
  rw [Layer.laidAt, filter_concerns hkey l.nodup_keys_settled hfree]
  cases Value.field? l.settled key with
  | none => rfl
  | some v =>
      show (Value.laid old (keyPath key).tail v).map some >>= pure = _
      rw [hkey]
      rfl

theorem as?_joined (htable : ∀ fs, as? (.table fs) = none) {v : Value} (hv : v ≠ .table [])
    (old : Option Value) : as? (Value.joined old v) = as? v := by
  cases v with
  | table fs =>
      cases fs with
      | nil => exact absurd rfl hv
      | cons f fs =>
          -- The merged value is another table, and neither is read.
          obtain ⟨gs, hgs⟩ := Value.exists_withFields_cons (old.getD (.table [])) f fs
          rw [Value.joined, hgs, htable, htable]
  | null => rfl
  | bool b => rfl
  | int n => rfl
  | real negative m => rfl
  | notANumber => rfl
  | text s => rfl
  | list items => rfl

theorem as?_joined_nil (htable : ∀ fs, as? (.table fs) = none) (old : Option Value) :
    as? (Value.joined old (.table [])) = old.bind as? := by
  rw [Value.joined, Value.withFields]
  cases old with
  | none => exact htable []
  | some v => rfl

/-- The highest layer that sets a key decides what is read there. -/
theorem seen_of_highest (htable : ∀ fs, as? (.table fs) = none)
    (hkey : keyPath key = [.field key]) {above below : List Layer} {l : Layer} {v : Value}
    (habove : ∀ l' ∈ above, (∀ e ∈ l'.settled, ¬ LeadsInto key e.1) ∧
      ∀ w, Value.field? l'.settled key = some w → w = .table [])
    (hfree : ∀ e ∈ l.settled, ¬ LeadsInto key e.1)
    (hset : Value.field? l.settled key = some v) (hv : v ≠ .table [])
    {old : Option Value} (hstands : standing key (above ++ l :: below) = some old) :
    old.bind as? = as? v := by
  induction above generalizing old with
  | nil =>
      obtain ⟨lower, -, hlaid⟩ := Option.bind_eq_some_iff.mp hstands
      rw [laidAt_of_free hkey hfree, hset, Option.some.injEq] at hlaid
      rw [← hlaid]
      exact as?_joined htable hv lower
  | cons l' above ih =>
      obtain ⟨hfree', hunset⟩ := habove l' List.mem_cons_self
      obtain ⟨lower, hlower, hlaid⟩ := Option.bind_eq_some_iff.mp hstands
      have hread := ih (fun l'' hl'' => habove l'' (List.mem_cons_of_mem l' hl'')) hlower
      rw [laidAt_of_free hkey hfree'] at hlaid
      -- A layer that does not set the key lets through what is below.
      cases hl' : Value.field? l'.settled key with
      | none =>
          rw [hl', Option.some.injEq] at hlaid
          exact hlaid ▸ hread
      | some w =>
          rw [hl', hunset w hl', Option.some.injEq] at hlaid
          rw [← hlaid]
          exact (as?_joined_nil htable lower).trans hread

end Competition

end Unmask
