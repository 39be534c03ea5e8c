/-
# `Unmask.Proofs.Layering` — which origin decides a setting

Settings come from the command line, the environment, a file, and what is built in, the
higher origin before the lower.  `load_by_layers` says what is loaded from them, key by
key:

* A key is read from the entries that concern it, as if there were no other keys; a key
  that cannot be read is an error of the settings, and nothing else is
  (`SettingKey.reading`).
* The highest origin that sets a key decides it.  What the lower ones have for the key is
  not looked at, be it readable or not (`Origins.Wins`).
* A time limit on the command line passes through a signed word, and comes out as it went
  in or not at all.

Two things stand in the way of saying that an origin sets a key if it has an entry of
that name.  The keys of a file and of the environment are paths, and `extra_protected[0]`
works on what is there for `extra_protected`, whichever origin that comes from: hence the
second point is about keys that no such path leads into (`Origins.PathFree`).  And a table
is merged field by field, so that one without fields sets nothing.  The rule without these
two is `HighestDecides`, and `highest_not_decides` has a file for each that breaks it.

The entries of a layer come in no fixed order, so all this is said of every order
(`Origins.Arrangement`).  What a key is read as may differ between two orders only if an
origin has two keys for it, as `bind` and `bind.x` are (`Origins.Alone`).  And nothing can
be set before the start of a list: a path such as `extra_protected[-1]` that asks for it
leaves no settings at all, and no other path does.
-/
import Mathlib.Data.List.Nodup
import Mathlib.Data.Set.Finite.Lemmas
import Unmask.Proofs.LayersByKey
import Unmask.Settings.File

namespace Unmask

/-! ## The keys -/

/-- The settings, each with its key. -/
inductive SettingKey where
  | decodeNumbers
  | protectedNames
  | reserveSourceNames
  | timeLimit
  | address
  | bodyLimit
deriving Repr, DecidableEq

namespace SettingKey

def name : SettingKey → String
  | .decodeNumbers => "decode_numbers_as_chars"
  | .protectedNames => "extra_protected"
  | .reserveSourceNames => "seed_source_identifiers"
  | .timeLimit => "timeout_secs"
  | .address => "bind"
  | .bodyLimit => "body_limit"

def Target : SettingKey → Type
  | .decodeNumbers => Bool
  | .protectedNames => List String
  | .reserveSourceNames => Bool
  | .timeLimit => Nat
  | .address => String
  | .bodyLimit => Nat

def convert? : (k : SettingKey) → Value → Option k.Target
  | .decodeNumbers => Value.toBool?
  | .protectedNames => Value.toTexts?
  | .reserveSourceNames => Value.toBool?
  | .timeLimit => Value.toUInt64?
  | .address => Value.toText?
  | .bodyLimit => Value.toUInt64?

def get : (k : SettingKey) → Settings → k.Target
  | .decodeNumbers => fun s => s.options.decodeNumbers
  | .protectedNames => fun s => s.options.protectedNames
  | .reserveSourceNames => fun s => s.options.reserveSourceNames
  | .timeLimit => Settings.timeLimit
  | .address => Settings.address
  | .bodyLimit => Settings.bodyLimit

theorem keyPath_name (k : SettingKey) : keyPath k.name = [.field k.name] := by
  cases k <;> decide +kernel

theorem convert?_table (k : SettingKey) (fs : List (String × Value)) :
    k.convert? (.table fs) = none := by
  cases k <;> rfl

theorem eq_of_get_eq {s t : Settings} (h : ∀ k : SettingKey, k.get s = k.get t) : s = t := by
  obtain ⟨⟨_, _, _⟩, _, _, _⟩ := s
  obtain ⟨⟨_, _, _⟩, _, _, _⟩ := t
  have h₁ := h .decodeNumbers
  have h₂ := h .protectedNames
  have h₃ := h .reserveSourceNames
  have h₄ := h .timeLimit
  have h₅ := h .address
  have h₆ := h .bodyLimit
  simp only [get] at h₁ h₂ h₃ h₄ h₅ h₆
  subst h₁ h₂ h₃ h₄ h₅ h₆
  rfl

def read (k : SettingKey) (table : Value) : Option k.Target := seenAt k.convert? k.name table

/-- What a setting is read as when the entries that concern its key are all there is. -/
def reading (k : SettingKey) (layers : List Layer) : Option k.Target :=
  (merged (layers.map (Layer.about k.name))).bind k.read

theorem reading_eq (k : SettingKey) (layers : List Layer) :
    k.reading layers = (standing k.name layers).bind fun old => old.bind k.convert? := by
  rw [← merged_about, Option.bind_map]
  rfl

theorem reading_of_merged (k : SettingKey) {layers : List Layer} {table : Value}
    (h : merged layers = some table) : k.reading layers = k.read table := by
  rw [reading_eq, standing_of_merged h]
  rfl

end SettingKey

/-! ## Settings from a table -/

theorem convert_bind {α β : Type} (table : Value) (key : String) (as? : Value → Option α)
    (next : α → Except SettingsError β) :
    (seenAt as? key table = none ∧
        ∃ m, (convert table key as? >>= next) = .error (.invalid m)) ∨
      ∃ a, seenAt as? key table = some a ∧ (convert table key as? >>= next) = next a := by
  rw [seenAt, convert]
  cases (Value.field? table.fields key).bind as? with
  | none => exact Or.inl ⟨rfl, _, rfl⟩
  | some a => exact Or.inr ⟨a, rfl, rfl⟩

/-- Either all keys are read and are the settings, or one of them is not, and the error
is one of the settings. -/
theorem ofTable_cases (table : Value) :
    (∃ s, Settings.ofTable table = .ok s ∧ ∀ k : SettingKey, k.read table = some (k.get s)) ∨
      ∃ m, Settings.ofTable table = .error (.invalid m) ∧
        ∃ k : SettingKey, k.read table = none := by
  rw [Settings.ofTable]
  obtain ⟨hnone, m, hm⟩ | ⟨decodeNumbers, h₁, hnext⟩ :=
    convert_bind table "decode_numbers_as_chars" Value.toBool? _
  · exact Or.inr ⟨m, hm, .decodeNumbers, hnone⟩
  rw [hnext]
  obtain ⟨hnone, m, hm⟩ | ⟨protectedNames, h₂, hnext⟩ :=
    convert_bind table "extra_protected" Value.toTexts? _
  · exact Or.inr ⟨m, hm, .protectedNames, hnone⟩
  rw [hnext]
  obtain ⟨hnone, m, hm⟩ | ⟨reserveSourceNames, h₃, hnext⟩ :=
    convert_bind table "seed_source_identifiers" Value.toBool? _
  · exact Or.inr ⟨m, hm, .reserveSourceNames, hnone⟩
  rw [hnext]
  obtain ⟨hnone, m, hm⟩ | ⟨timeLimit, h₄, hnext⟩ :=
    convert_bind table "timeout_secs" Value.toUInt64? _
  · exact Or.inr ⟨m, hm, .timeLimit, hnone⟩
  rw [hnext]
  obtain ⟨hnone, m, hm⟩ | ⟨address, h₅, hnext⟩ := convert_bind table "bind" Value.toText? _
  · exact Or.inr ⟨m, hm, .address, hnone⟩
  rw [hnext]
  obtain ⟨hnone, m, hm⟩ | ⟨bodyLimit, h₆, hnext⟩ :=
    convert_bind table "body_limit" Value.toUInt64? _
  · exact Or.inr ⟨m, hm, .bodyLimit, hnone⟩
  rw [hnext]
  refine Or.inl ⟨_, rfl, fun k => ?_⟩
  cases k with
  | decodeNumbers => exact h₁
  | protectedNames => exact h₂
  | reserveSourceNames => exact h₃
  | timeLimit => exact h₄
  | address => exact h₅
  | bodyLimit => exact h₆

theorem ofTable_eq_ok_iff {table : Value} {s : Settings} :
    Settings.ofTable table = .ok s ↔ ∀ k : SettingKey, k.read table = some (k.get s) := by
  obtain ⟨t, hok, hread⟩ | ⟨m, herr, k, hnone⟩ := ofTable_cases table
  · rw [hok, Except.ok.injEq]
    constructor
    · rintro rfl
      exact hread
    · intro h
      exact SettingKey.eq_of_get_eq fun k => Option.some.inj ((hread k).symm.trans (h k))
  · rw [herr]
    constructor
    · intro h
      cases h
    · intro h
      cases hnone.symm.trans (h k)

theorem ofTable_eq_error_iff {table : Value} :
    (∃ m, Settings.ofTable table = .error (.invalid m)) ↔
      ∃ k : SettingKey, k.read table = none := by
  obtain ⟨t, hok, hread⟩ | ⟨m, herr, hnone⟩ := ofTable_cases table
  · constructor
    · rintro ⟨m, herr⟩
      cases hok.symm.trans herr
    · rintro ⟨k, hnone⟩
      cases hnone.symm.trans (hread k)
  · exact ⟨fun _ => hnone, fun _ => ⟨m, herr⟩⟩

/-! ## The origins -/

/-- Where a value of a setting comes from. -/
inductive Origin where
  | builtIn
  | file
  | environment
  | commandLine
deriving Repr, DecidableEq

def Origin.rank : Origin → Nat
  | .builtIn => 0
  | .file => 1
  | .environment => 2
  | .commandLine => 3

/-- The origins, the highest first. -/
def Origin.descending : List Origin := [.commandLine, .environment, .file, .builtIn]

theorem Origin.exists_descending_eq (o : Origin) :
    ∃ above below, descending = above ++ o :: below ∧ ∀ o' ∈ above, o.rank < o'.rank := by
  cases o with
  | commandLine => exact ⟨[], _, rfl, by decide⟩
  | environment => exact ⟨[.commandLine], _, rfl, by decide⟩
  | file => exact ⟨[.commandLine, .environment], _, rfl, by decide⟩
  | builtIn => exact ⟨[.commandLine, .environment, .file], _, rfl, by decide⟩

instance : Fintype Origin :=
  ⟨{.builtIn, .file, .environment, .commandLine}, fun o => by cases o <;> decide⟩

/-- The highest origin that has a value, and the value. -/
def Origin.Highest (has : Origin → Value → Prop) (o : Origin) (v : Value) : Prop :=
  has o v ∧ ∀ o' v', o.rank < o'.rank → ¬ has o' v'

/-- What the origins have, the built-in settings apart. -/
structure Origins where
  commandLine : Overrides
  environment : List (String × String)
  file : Layer

/-- The value that the command line has for a setting. -/
def Overrides.value? (o : Overrides) : SettingKey → Option Value
  | .decodeNumbers => o.decodeNumbers.map Value.bool
  | .timeLimit => o.timeLimit.map fun n => .int (asSigned64 n)
  | .address => o.address.map Value.text
  | _ => none

namespace Origins

variable (s : Origins)

/-- An origin has a value by the key of a setting.  In a file the last entry of a key
counts; a variable of the environment has the key in any case, behind the mark. -/
inductive Gives (k : SettingKey) : Origin → Value → Prop
  | override {v : Value} : s.commandLine.value? k = some v → Gives k .commandLine v
  | marked {name text : String} : (name, text) ∈ s.environment →
      lowerAscii name = environmentMark ++ k.name → Gives k .environment (.text text)
  | entry {front back : Layer} {v : Value} : s.file = front ++ (k.name, v) :: back →
      (∀ e ∈ back, e.1 ≠ k.name) → Gives k .file v
  | builtIn {v : Value} : (k.name, v) ∈ defaultLayer → Gives k .builtIn v

/-- An origin has a key that may be a path. -/
inductive HasKey : Origin → String → Prop
  | marked {name text key : String} : (name, text) ∈ s.environment →
      lowerAscii name = environmentMark ++ key → HasKey .environment key
  | entry {key : String} {v : Value} : (key, v) ∈ s.file → HasKey .file key

/-- The highest origin that sets a key, and the value; a table without fields sets
nothing. -/
def Wins (k : SettingKey) : Origin → Value → Prop :=
  Origin.Highest fun o v => s.Gives k o v ∧ v ≠ .table []

/-- No path leads into the value of a key, neither in an origin nor in a higher one. -/
def PathFree (k : SettingKey) (o : Origin) : Prop :=
  ∀ o' path, o.rank ≤ o'.rank → s.HasKey o' path → ¬ LeadsInto k.name path

def layer : Origin → Layer
  | .builtIn => defaultLayer
  | .file => s.file
  | .environment => environmentLayer s.environment
  | .commandLine => s.commandLine.layer

/-- No origin has two keys for a setting, its own beside a path into its value or two
such paths. -/
def Alone (k : SettingKey) : Prop :=
  ∀ o path path', s.HasKey o path → s.HasKey o path' →
    StartsAt k.name path → StartsAt k.name path' → path = path'

/-- The layers with their entries in some order; those that count are the same. -/
structure Arrangement where
  layer : Origin → Layer
  settled_perm : ∀ o, (layer o).settled.Perm (s.layer o).settled

namespace Arrangement

/-- The entries in the order in which they are listed. -/
def listed : s.Arrangement := ⟨s.layer, fun _ => .refl _⟩

variable {s} (a : s.Arrangement)

def layers : List Layer := Origin.descending.map a.layer

end Arrangement

end Origins

/-! ## What the layers of the origins hold -/

theorem settled_eq_self {l : Layer} (h : (l.map Prod.fst).Nodup) : l.settled = l := by
  induction l with
  | nil => rfl
  | cons e l ih =>
      rw [List.map_cons, List.nodup_cons] at h
      have hany : ¬ (l.any fun f => f.1 == e.1) = true := by
        intro hmem
        obtain ⟨f, hf, hkey⟩ := List.any_eq_true.mp hmem
        exact h.1 (beq_iff_eq.mp hkey ▸ List.mem_map_of_mem hf)
      rw [Layer.settled, if_neg hany, ih h.2]

theorem field?_settled_of_nodup {l : Layer} (h : (l.map Prod.fst).Nodup) {key : String}
    {v : Value} : Value.field? l.settled key = some v ↔ (key, v) ∈ l := by
  rw [settled_eq_self h, Value.field?_eq_some_iff h]

theorem mem_environmentLayer {environment : List (String × String)} {key : String} {v : Value} :
    (key, v) ∈ environmentLayer environment ↔
      ∃ name text, (name, text) ∈ environment ∧
        lowerAscii name = environmentMark ++ key ∧ v = .text text := by
  simp only [environmentLayer, List.mem_filterMap, Option.map_eq_some_iff,
    List.isPrefixOf?_eq_some_iff_append_eq, Prod.mk.injEq, Prod.exists]
  constructor
  · rintro ⟨name, text, hmem, rest, hrest, rfl, rfl⟩
    refine ⟨name, text, hmem, ?_, rfl⟩
    rw [← String.toList_inj, String.toList_append, String.toList_ofList]
    exact hrest.symm
  · rintro ⟨name, text, hmem, hname, rfl⟩
    refine ⟨name, text, hmem, key.toList, ?_, String.ofList_toList, rfl⟩
    rw [hname, String.toList_append]

theorem nodup_environmentLayer {environment : List (String × String)}
    (h : (environment.map fun e => lowerAscii e.1).Nodup) :
    ((environmentLayer environment).map Prod.fst).Nodup := by
  have hkeys : (environmentLayer environment).map Prod.fst =
      (environment.map fun e => lowerAscii e.1).filterMap fun name =>
        (environmentMark.toList.isPrefixOf? name.toList).map String.ofList := by
    rw [environmentLayer, List.map_filterMap, List.filterMap_map]
    refine List.filterMap_congr ?_
    intro e _
    simp only [Option.map_map, Function.comp_def]
  rw [hkeys]
  refine List.Nodup.filterMap ?_ h
  intro a b key ha hb
  simp only [Option.mem_def, Option.map_eq_some_iff,
    List.isPrefixOf?_eq_some_iff_append_eq] at ha hb
  obtain ⟨x, hx, rfl⟩ := ha
  obtain ⟨y, hy, hyx⟩ := hb
  rw [← String.toList_inj, ← hx, ← hy, String.ofList_injective hyx]

theorem mem_overridesLayer {o : Overrides} {k : SettingKey} {v : Value} :
    (k.name, v) ∈ o.layer ↔ o.value? k = some v := by
  cases k <;> simp [Overrides.layer, Overrides.value?, SettingKey.name]

theorem nodup_overridesLayer (o : Overrides) : (o.layer.map Prod.fst).Nodup := by
  obtain ⟨_ | _, _ | _, _ | _⟩ := o <;> simp [Overrides.layer]

theorem exists_name_of_mem_overridesLayer {o : Overrides} {e : String × Value} (h : e ∈ o.layer) :
    ∃ k : SettingKey, e.1 = k.name := by
  simp only [Overrides.layer, List.mem_append, Option.mem_toList,
    Option.map_eq_some_iff] at h
  obtain (⟨b, _, rfl⟩ | ⟨n, _, rfl⟩) | ⟨t, _, rfl⟩ := h
  · exact ⟨.decodeNumbers, rfl⟩
  · exact ⟨.timeLimit, rfl⟩
  · exact ⟨.address, rfl⟩

theorem exists_name_of_mem_defaultLayer {e : String × Value} (h : e ∈ defaultLayer) :
    ∃ k : SettingKey, e.1 = k.name := by
  simp only [defaultLayer, List.mem_cons, List.not_mem_nil, or_false] at h
  obtain rfl | rfl | rfl | rfl | rfl | rfl := h
  · exact ⟨.decodeNumbers, rfl⟩
  · exact ⟨.protectedNames, rfl⟩
  · exact ⟨.reserveSourceNames, rfl⟩
  · exact ⟨.timeLimit, rfl⟩
  · exact ⟨.address, rfl⟩
  · exact ⟨.bodyLimit, rfl⟩

namespace Origins

variable {s : Origins}

/-- What an origin gives is what its layer has settled. -/
theorem gives_iff (hdistinct : (s.environment.map fun e => lowerAscii e.1).Nodup)
    {k : SettingKey} {o : Origin} {v : Value} :
    s.Gives k o v ↔ Value.field? (s.layer o).settled k.name = some v := by
  cases o with
  | commandLine =>
      rw [layer, field?_settled_of_nodup (nodup_overridesLayer _), mem_overridesLayer]
      constructor
      · intro h
        cases h with
        | override hv => exact hv
      · exact .override
  | environment =>
      rw [layer, field?_settled_of_nodup (nodup_environmentLayer hdistinct),
        mem_environmentLayer]
      constructor
      · intro h
        cases h with
        | marked hmem hname => exact ⟨_, _, hmem, hname, rfl⟩
      · rintro ⟨name, text, hmem, hname, rfl⟩
        exact .marked hmem hname
  | file =>
      rw [layer, Layer.field?_settled_eq_some_iff]
      constructor
      · intro h
        cases h with
        | entry heq hback => exact ⟨_, _, heq, hback⟩
      · rintro ⟨front, back, heq, hback⟩
        exact .entry heq hback
  | builtIn =>
      rw [layer, field?_settled_of_nodup (by decide +kernel)]
      constructor
      · intro h
        cases h with
        | builtIn hmem => exact hmem
      · exact .builtIn

/-- A file and the environment have keys of their own, the others those of settings. -/
theorem hasKey_or_name (s : Origins) (o : Origin) :
    (∀ e ∈ s.layer o, s.HasKey o e.1) ∨ ∀ e ∈ s.layer o, ∃ k : SettingKey, e.1 = k.name := by
  cases o with
  | commandLine => exact Or.inr fun e => exists_name_of_mem_overridesLayer
  | environment =>
      refine Or.inl fun e he => ?_
      obtain ⟨name, text, hmem, hname, -⟩ := mem_environmentLayer.mp he
      exact .marked hmem hname
  | file => exact Or.inl fun e he => .entry he
  | builtIn => exact Or.inr fun e => exists_name_of_mem_defaultLayer

theorem hasKey_of_leadsInto {o : Origin} {e : String × Value} (he : e ∈ s.layer o)
    {key : String} (h : LeadsInto key e.1) : s.HasKey o e.1 := by
  obtain hkey | hname := s.hasKey_or_name o
  · exact hkey e he
  · obtain ⟨k, hk⟩ := hname e he
    obtain ⟨step, steps, hpath⟩ := h
    rw [hk, k.keyPath_name] at hpath
    cases hpath

theorem hasKey_of_countsBack {o : Origin} {e : String × Value} (he : e ∈ s.layer o)
    (h : CountsBack e.1) : s.HasKey o e.1 := by
  obtain hkey | hname := s.hasKey_or_name o
  · exact hkey e he
  · obtain ⟨k, hk⟩ := hname e he
    obtain ⟨index, -, hmem⟩ := h
    rw [hk, k.keyPath_name] at hmem
    cases List.mem_singleton.mp hmem

theorem eq_of_alone {k : SettingKey} (halone : s.Alone k) {o : Origin} {e f : String × Value}
    (he : e ∈ s.layer o) (hf : f ∈ s.layer o) (hke : StartsAt k.name e.1)
    (hkf : StartsAt k.name f.1) : e.1 = f.1 := by
  obtain hkey | hname := s.hasKey_or_name o
  · exact halone o e.1 f.1 (hkey e he) (hkey f hf) hke hkf
  · have hown : ∀ e ∈ s.layer o, StartsAt k.name e.1 → e.1 = k.name := by
      rintro e he ⟨steps, hpath⟩
      obtain ⟨k', hk'⟩ := hname e he
      rw [hk', k'.keyPath_name] at hpath
      rw [hk']
      exact Step.field.inj (List.cons.inj hpath).1
    exact (hown e he hke).trans (hown f hf hkf).symm

namespace Arrangement

variable (a : s.Arrangement)

theorem mem_layer {o : Origin} {e : String × Value} (h : e ∈ (a.layer o).settled) :
    e ∈ s.layer o :=
  Layer.mem_of_mem_settled ((a.settled_perm o).mem_iff.mp h)

theorem field?_settled (o : Origin) (key : String) (v : Value) :
    Value.field? (a.layer o).settled key = some v ↔
      Value.field? (s.layer o).settled key = some v := by
  rw [Value.field?_eq_some_iff (a.layer o).nodup_keys_settled,
    Value.field?_eq_some_iff (s.layer o).nodup_keys_settled]
  exact (a.settled_perm o).mem_iff

theorem reading_of_alone {k : SettingKey} (halone : s.Alone k) :
    k.reading a.layers = k.reading (listed s).layers := by
  have hsame : standing k.name a.layers = standing k.name (listed s).layers := by
    refine standing_congr Origin.descending ?_
    intro o _
    refine Layer.filter_concerns_of_perm (a.settled_perm o) ?_
    intro e he f hf hke hkf
    exact eq_of_alone halone (Layer.mem_of_mem_settled he) (Layer.mem_of_mem_settled hf)
      (startsAt_of_concerns hke) (startsAt_of_concerns hkf)
  rw [k.reading_eq, k.reading_eq, hsame]

/-- The highest origin that sets a key decides it. -/
theorem reading_of_wins (hdistinct : (s.environment.map fun e => lowerAscii e.1).Nodup)
    {table : Value} (hmerged : merged a.layers = some table) {k : SettingKey} {o : Origin}
    {v : Value} (hwins : s.Wins k o v) (hfree : s.PathFree k o) :
    k.reading a.layers = k.convert? v := by
  obtain ⟨⟨hgives, hv⟩, hhigher⟩ := hwins
  obtain ⟨above, below, hall, habove⟩ := o.exists_descending_eq
  have hlayer : ∀ o', o.rank ≤ o'.rank → ∀ e ∈ (a.layer o').settled, ¬ LeadsInto k.name e.1 := by
    intro o' hrank e he hleads
    exact hfree o' e.1 hrank (hasKey_of_leadsInto (a.mem_layer he) hleads) hleads
  have hset : Value.field? (a.layer o).settled k.name = some v :=
    (a.field?_settled o k.name v).mpr ((gives_iff hdistinct).mp hgives)
  have hstands := standing_of_merged hmerged k.name
  rw [layers, hall, List.map_append, List.map_cons] at hstands
  rw [k.reading_of_merged hmerged]
  refine seen_of_highest k.convert?_table k.keyPath_name ?_ (hlayer o le_rfl) hset hv hstands
  intro l hl
  obtain ⟨o', ho', rfl⟩ := List.mem_map.mp hl
  have hrank := habove o' ho'
  refine ⟨hlayer o' hrank.le, ?_⟩
  intro w hw
  by_contra hne
  exact hhigher o' w hrank ⟨(gives_iff hdistinct).mpr ((a.field?_settled o' k.name w).mp hw), hne⟩

/-- Nothing stands above the command line, and no path is spelled there. -/
theorem reading_of_override (hdistinct : (s.environment.map fun e => lowerAscii e.1).Nodup)
    {table : Value} (hmerged : merged a.layers = some table) {k : SettingKey} {v : Value}
    (hgives : s.commandLine.value? k = some v) (hv : v ≠ .table []) :
    k.reading a.layers = k.convert? v := by
  have hwins : s.Wins k .commandLine v := by
    refine ⟨⟨.override hgives, hv⟩, ?_⟩
    intro o' _ hrank
    cases o' <;> simp [Origin.rank] at hrank
  refine a.reading_of_wins hdistinct hmerged hwins ?_
  intro o' _ hrank hkey
  cases hkey <;> simp [Origin.rank] at hrank

theorem exists_countsBack (h : merged a.layers = none) :
    ∃ o path, s.HasKey o path ∧ CountsBack path := by
  obtain ⟨l, hl, e, he, hback⟩ := exists_countsBack_of_merged h
  obtain ⟨o, -, rfl⟩ := List.mem_map.mp hl
  exact ⟨o, e.1, hasKey_of_countsBack (a.mem_layer he) hback, hback⟩

end Arrangement

/-- Every key is set by some origin, if only by what is built in. -/
theorem exists_wins (s : Origins) (k : SettingKey) : ∃ o v, s.Wins k o v := by
  obtain ⟨v, hmem, hv⟩ : ∃ v, (k.name, v) ∈ defaultLayer ∧ v ≠ .table [] := by
    cases k <;> simp [defaultLayer, SettingKey.name]
  obtain ⟨o, ⟨w, hw⟩, hmax⟩ := Set.exists_max_image
    {o | ∃ v, s.Gives k o v ∧ v ≠ .table []} Origin.rank (Set.toFinite _)
    ⟨.builtIn, v, .builtIn hmem, hv⟩
  refine ⟨o, w, hw, ?_⟩
  intro o' w' hrank hw'
  exact absurd (hmax o' ⟨w', hw'⟩) (Nat.not_le.mpr hrank)

end Origins

theorem toUInt64?_asSigned64 {n : Nat} (h : n < 2 ^ 64) :
    Value.toUInt64? (.int (asSigned64 n)) = if n < 2 ^ 63 then some n else none := by
  have hmod : n % 0x10000000000000000 = n := Nat.mod_eq_of_lt h
  simp only [asSigned64, hmod, Value.toUInt64?]
  split_ifs <;> simp_all <;> omega

theorem Origins.Arrangement.reading_timeLimit {s : Origins} (a : s.Arrangement)
    (hdistinct : (s.environment.map fun e => lowerAscii e.1).Nodup) {table : Value}
    (hmerged : merged a.layers = some table) {n : Nat}
    (hn : s.commandLine.timeLimit = some n) (hlt : n < 2 ^ 64) :
    SettingKey.timeLimit.reading a.layers = if n < 2 ^ 63 then some n else none := by
  have hgives : s.commandLine.value? .timeLimit = some (.int (asSigned64 n)) := by
    rw [Overrides.value?, hn]
    rfl
  exact (a.reading_of_override hdistinct hmerged hgives (by simp)).trans
    (toUInt64?_asSigned64 hlt)

/-! ## What is loaded -/

theorem ofLayers_eq_beforeStart_iff {layers : List Layer} :
    Settings.ofLayers layers = .error .beforeStart ↔ merged layers = none := by
  rw [Settings.ofLayers]
  cases merged layers with
  | none => exact ⟨fun _ => rfl, fun _ => rfl⟩
  | some table =>
      constructor
      · intro h
        obtain ⟨settings, hok, -⟩ | ⟨m, hm, -⟩ := ofTable_cases table
        · cases hok.symm.trans h
        · cases hm.symm.trans h
      · intro h
        cases h

/-- What settings are, loaded from origins whose entries are laid in some order. -/
structure ByLayers (s : Origins) (a : s.Arrangement) (loaded : Except SettingsError Settings) :
    Prop where
  /-- Every key is read from what concerns it. -/
  ok_iff : ∀ settings, loaded = .ok settings ↔
    ∀ k : SettingKey, k.reading a.layers = some (k.get settings)
  /-- A key that cannot be read is an error of the settings, and nothing else is. -/
  error_iff : (∃ m, loaded = .error (.invalid m)) ↔
    ∃ k : SettingKey, k.reading a.layers = none
  error_invalid : ∀ e, loaded = .error e → ∃ m, e = .invalid m
  /-- Every key has a highest origin that sets it. -/
  exists_wins : ∀ k, ∃ o v, s.Wins k o v
  /-- That origin decides the key. -/
  reading_of_wins : ∀ k o v, s.Wins k o v → s.PathFree k o →
    k.reading a.layers = k.convert? v
  /-- The order matters only for a key that is not alone. -/
  reading_of_alone : ∀ k, s.Alone k →
    k.reading a.layers = k.reading (Origins.Arrangement.listed s).layers
  /-- A time limit on the command line is kept as it is, or refused. -/
  timeLimit_kept : ∀ n, s.commandLine.timeLimit = some n → n < 2 ^ 63 →
    SettingKey.timeLimit.reading a.layers = some n ∧
      ∀ settings, loaded = .ok settings → settings.timeLimit = n
  timeLimit_refused : ∀ n, s.commandLine.timeLimit = some n → 2 ^ 63 ≤ n → n < 2 ^ 64 →
    ∃ m, loaded = .error (.invalid m)

theorem byLayers_of_merged {s : Origins} (a : s.Arrangement)
    (hdistinct : (s.environment.map fun e => lowerAscii e.1).Nodup) {table : Value}
    (hmerged : merged a.layers = some table) : ByLayers s a (Settings.ofTable table) := by
  have hok : ∀ settings, Settings.ofTable table = .ok settings ↔
      ∀ k : SettingKey, k.reading a.layers = some (k.get settings) := by
    intro settings
    simp only [SettingKey.reading_of_merged _ hmerged]
    exact ofTable_eq_ok_iff
  have herror : (∃ m, Settings.ofTable table = .error (.invalid m)) ↔
      ∃ k : SettingKey, k.reading a.layers = none := by
    simp only [SettingKey.reading_of_merged _ hmerged]
    exact ofTable_eq_error_iff
  exact {
    ok_iff := hok
    error_iff := herror
    error_invalid := by
      intro e he
      obtain ⟨settings, hsettings, -⟩ | ⟨m, hm, -⟩ := ofTable_cases table
      · cases hsettings.symm.trans he
      · exact ⟨m, (Except.error.inj (hm.symm.trans he)).symm⟩
    exists_wins := s.exists_wins
    reading_of_wins := fun _ _ _ => a.reading_of_wins hdistinct hmerged
    reading_of_alone := fun _ => a.reading_of_alone
    timeLimit_kept := by
      intro n hn hlt
      have hread := a.reading_timeLimit hdistinct hmerged hn (by omega)
      rw [if_pos hlt] at hread
      refine ⟨hread, fun settings hsettings => ?_⟩
      have hsame := hread.symm.trans ((hok settings).mp hsettings .timeLimit)
      exact (Option.some.inj hsame).symm
    timeLimit_refused := by
      intro n hn hle hlt
      have hread := a.reading_timeLimit hdistinct hmerged hn hlt
      rw [if_neg (Nat.not_lt.mpr hle)] at hread
      exact herror.mpr ⟨.timeLimit, hread⟩ }

/-- Settings are loaded key by key, and the highest origin that sets a key decides it.
This holds for every order of the entries, the listed one being one of them, unless
something was to be set before the start of a list. -/
theorem load_by_layers (s : Origins)
    (hdistinct : (s.environment.map fun e => lowerAscii e.1).Nodup) :
    (∀ file : SettingsFile, file.layer = .ok s.file →
        Settings.load file s.environment s.commandLine =
          Settings.ofLayers (Origins.Arrangement.listed s).layers) ∧
      ∀ a : s.Arrangement,
        (Settings.ofLayers a.layers = .error .beforeStart ↔
            ∃ key, merged (a.layers.map (Layer.about key)) = none) ∧
          ((∀ o path, s.HasKey o path → ¬ CountsBack path) →
            Settings.ofLayers a.layers ≠ .error .beforeStart) ∧
          (Settings.ofLayers a.layers ≠ .error .beforeStart →
            ByLayers s a (Settings.ofLayers a.layers)) := by
  refine ⟨?_, fun a => ⟨?_, ?_, ?_⟩⟩
  · intro file hfile
    rw [Settings.load, hfile]
    rfl
  · exact ofLayers_eq_beforeStart_iff.trans (merged_eq_none_iff a.layers)
  · intro hforward hstop
    obtain ⟨o, path, hkey, hback⟩ := a.exists_countsBack (ofLayers_eq_beforeStart_iff.mp hstop)
    exact hforward o path hkey hback
  · intro hreturns
    cases hmerged : merged a.layers with
    | none => exact absurd (ofLayers_eq_beforeStart_iff.mpr hmerged) hreturns
    | some table =>
        have hloaded : Settings.ofLayers a.layers = Settings.ofTable table := by
          rw [Settings.ofLayers, hmerged]
        rw [hloaded]
        exact byLayers_of_merged a hdistinct hmerged

/-- A file whose time limit is no number. -/
def unreadableLimit : SettingsFile :=
  .found "s.json" (some "\x7b\"timeout_secs\": \"soon\", \"bind\": \"::1\"\x7d")

/-- That file below an environment and a command line. -/
def maskedLimit : Origins where
  commandLine := { decodeNumbers := some true }
  environment := [("JSDEOB_TIMEOUT_SECS", "7"), ("HOME", "/")]
  file := [("timeout_secs", .text "soon"), ("bind", .text "::1")]

/-- Under a time limit in the environment, the one in the file need not be a number. -/
theorem load_by_layers_masked :
    unreadableLimit.layer = .ok maskedLimit.file ∧
      (maskedLimit.environment.map fun e => lowerAscii e.1).Nodup ∧
      Settings.load unreadableLimit maskedLimit.environment maskedLimit.commandLine =
        .ok { options := { decodeNumbers := true }, timeLimit := 7, address := "::1" } ∧
      ByLayers maskedLimit (.listed maskedLimit)
        (Settings.load unreadableLimit maskedLimit.environment maskedLimit.commandLine) := by
  have hfile : unreadableLimit.layer = .ok maskedLimit.file := by decide +kernel
  have hdistinct : (maskedLimit.environment.map fun e => lowerAscii e.1).Nodup := by
    decide +kernel
  have hload : Settings.load unreadableLimit maskedLimit.environment maskedLimit.commandLine =
      .ok { options := { decodeNumbers := true }, timeLimit := 7, address := "::1" } := by
    decide +kernel
  obtain ⟨hlisted, hevery⟩ := load_by_layers maskedLimit hdistinct
  refine ⟨hfile, hdistinct, hload, ?_⟩
  have hreturns := hlisted unreadableLimit hfile
  rw [hreturns]
  refine (hevery (.listed maskedLimit)).2.2 ?_
  intro hstop
  cases hload.symm.trans (hreturns.trans hstop)

-- The order shows where a key stands beside a path into its value.
example :
    Settings.ofLayers [[("bind.y", .text "z"), ("bind", .text "a")], defaultLayer] =
        .ok { address := "a" } ∧
      Settings.ofLayers [[("bind", .text "a"), ("bind.y", .text "z")], defaultLayer] =
        .error (.invalid "invalid value for key bind") := by
  decide +kernel

-- What counts back needs a list that is long enough, be it from a lower layer.
example :
    Settings.ofLayers [[("extra_protected[-1]", .text "x")], defaultLayer] =
        .error .beforeStart ∧
      Settings.ofLayers [[("extra_protected[-1]", .text "x")],
          [("extra_protected", .list [.text "a", .text "b"])], defaultLayer] =
        .ok { options := { protectedNames := ["a", "x"] } } := by
  decide +kernel

/-! ## The rule without paths and tables -/

/-- The rule that the highest origin with a value by the very key decides, whatever the
value and whatever other keys there are. -/
def HighestDecides (s : Origins) (loaded : Except SettingsError Settings) : Prop :=
  (∀ settings k o v, loaded = .ok settings → Origin.Highest (s.Gives k) o v →
      k.convert? v = some (k.get settings)) ∧
    ((∃ m, loaded = .error (.invalid m)) ↔
      ∃ k o v, Origin.Highest (s.Gives k) o v ∧ k.convert? v = none)

/-- A file with a path into the list of protected names. -/
def pathIntoList : SettingsFile :=
  .found "s.json" (some "\x7b\"extra_protected[0]\": \"x\"\x7d")

/-- A file with a table without fields for a time limit. -/
def emptyTable : SettingsFile := .found "s.json" (some "\x7b\"timeout_secs\": \x7b\x7d\x7d")

/-- The rule fails where a path leads into a list that nothing sets but what is built in,
and where a table without fields stands by a key, whose built-in value is kept. -/
theorem highest_not_decides :
    pathIntoList.layer = .ok [("extra_protected[0]", .text "x")] ∧
      Settings.load pathIntoList [] {} = .ok { options := { protectedNames := ["x"] } } ∧
      ¬ HighestDecides ⟨{}, [], [("extra_protected[0]", .text "x")]⟩
        (Settings.load pathIntoList [] {}) ∧
      emptyTable.layer = .ok [("timeout_secs", .table [])] ∧
      Settings.load emptyTable [] {} = .ok {} ∧
      ¬ HighestDecides ⟨{}, [], [("timeout_secs", .table [])]⟩
        (Settings.load emptyTable [] {}) := by
  have hpath : Settings.load pathIntoList [] {} =
      .ok { options := { protectedNames := ["x"] } } := by decide +kernel
  have htable : Settings.load emptyTable [] {} = .ok {} := by decide +kernel
  refine ⟨by decide +kernel, hpath, ?_, by decide +kernel, htable, ?_⟩
  · intro hrule
    have hhighest : Origin.Highest (Origins.Gives
        ⟨{}, [], [("extra_protected[0]", .text "x")]⟩ .protectedNames) .builtIn (.list []) := by
      refine ⟨.builtIn (by simp [defaultLayer, SettingKey.name]), ?_⟩
      intro o v hrank hgives
      cases hgives with
      | override hv => cases hv
      | marked hmem _ => cases hmem
      | entry heq _ =>
          have hmem : (SettingKey.protectedNames.name, v) ∈
              [("extra_protected[0]", Value.text "x")] := by
            rw [show [("extra_protected[0]", Value.text "x")] = _ from heq]
            exact List.mem_append_right _ List.mem_cons_self
          simp [SettingKey.name] at hmem
      | builtIn _ => exact Nat.lt_irrefl _ hrank
    cases hrule.1 _ _ _ _ hpath hhighest
  · intro hrule
    have hhighest : Origin.Highest (Origins.Gives
        ⟨{}, [], [("timeout_secs", .table [])]⟩ .timeLimit) .file (.table []) := by
      refine ⟨.entry (List.nil_append _).symm (by simp), ?_⟩
      intro o v hrank hgives
      cases hgives with
      | override hv => cases hv
      | marked hmem _ => cases hmem
      | entry _ _ => exact Nat.lt_irrefl _ hrank
      | builtIn _ => exact absurd hrank (by decide)
    cases hrule.1 _ _ _ _ htable hhighest

end Unmask
