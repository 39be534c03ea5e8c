/-
# `Unmask.Proofs.ByOffset.Names` — suspects and functions, by offsets

Where a name stands is told by offsets here.  Whether a site's name begins a run is
read off the byte in front of it (`startsRun`); whether a name is used as a function
is read off the bytes behind it, and off the text in front of it once the blanks at
its end are cut away (`isFunction`).

The places are those of the tokens and of the finds of the searches, so every offset
lies between two characters of the text.  For the finds that is said by walking
through the text with the two searches side by side, one that tells offsets and one
that does not (`filterMapM_findAll`).
-/
import Mathlib.Data.List.DropRight
import Unmask.Proofs.ByOffset.Numbers
import Unmask.Proofs.ByOffset.Tokens
import Unmask.Proofs.FunctionRoles
import Unmask.Proofs.SuspectTokens

namespace Unmask.ByOffset

/-! ## Definitions -/

/-- No name byte stands in front of an offset. -/
def startsRun (text : List Char) (i : Nat) : Checked Bool :=
  if i = 0 then .ok true
  else do
    let j ← minus i 1
    let b ← octetAt (octets text) j
    .ok (!Name.isPart b)

/-- The keyword and plain blanks stand in front of an offset. -/
def followsFunction (text : List Char) (i : Nat) : Checked Bool := do
  let before ← takeBytes i text
  let trimmed := before.rdropWhile isPlainBlank
  if byteLength trimmed < byteLength before && "function".toList.isSuffixOf trimmed then do
    let j ← minus (byteLength trimmed) (byteLength "function".toList)
    startsRun trimmed j
  else .ok false

/-- The token is called, or it stands behind the keyword. -/
def isFunction (text : List Char) (t : Token) : Checked Bool := do
  let rest ← octetsFrom (octets text) t.stop
  if opensCall rest then .ok true else followsFunction text t.start

def functionName? (text : List Char) (t : Token) : Checked (Option String) := do
  let function ← isFunction text t
  .ok (if function then some t.text else none)

def callableNames (source : String) : Checked (Std.TreeSet String) := do
  let ts ← tokens source
  let names ← (ts.filter fun t => t.kind = .name).filterMapM (functionName? source.toList)
  .ok (Std.TreeSet.ofList names)

/-- A name behind a keyword and where it starts, told by what is left of the text. -/
def introducedAt? (total : Nat) (keywords : List String) (before : Option Char)
    (text : List Char) : Option ((List Char × Nat) × Nat) :=
  match Site.introduced? keywords before text with
  | some (name, n) => some ((name, total - byteLength (text.drop (n - name.length))), n)
  | none => none

/-- A name that a function is assigned to and where it starts, be it a whole run or the
tail of one. -/
def assignedAt? (total : Nat) (before : Option Char) (text : List Char) :
    Option ((List Char × Nat) × Nat) :=
  match Site.assigned? before text, Site.leadingName? text with
  | some (_, n), some name => some ((name, total - byteLength text), n)
  | _, _ => none

/-- The name of a find, if it begins a run and looks scrambled. -/
def suspectAt (text : List Char) (found : List Char × Nat) : Checked (Option String) := do
  let begins ← startsRun text found.2
  .ok (if begins && Name.looksScrambled found.1 then some (String.ofList found.1) else none)

def scrambledNames (names : List (List Char)) : List String :=
  (names.filter Name.looksScrambled).map String.ofList

def introducedNames (source : String) : Checked (List String) := do
  let text := source.toList
  let total := byteLength text
  let declared ← (findAll (introducedAt? total ["var", "let", "const"]) text).filterMapM
    (suspectAt text)
  let functions ← (findAll (introducedAt? total ["function"]) text).filterMapM (suspectAt text)
  let assigned ← (findAll (assignedAt? total) text).filterMapM (suspectAt text)
  let properties := scrambledNames (Site.propertyNames text)
  .ok (declared ++ functions ++ assigned ++ properties)

def scrambledNumber? (t : Token) : Checked (Option String) := do
  let scrambled ← looksScrambled t.text.toList
  .ok (if scrambled then some t.text else none)

def suspects (protection : Protection) (source : String) : Checked Suspects := do
  let ts ← tokens source
  let numbered := ((ts.filter fun t => t.kind = .name).map Token.text).filter fun t =>
    Name.isNumbered t.toList
  let introduced ← introducedNames source
  let numbers ← (ts.filter fun t => t.kind = .number).filterMapM scrambledNumber?
  .ok ⟨distinct ((numbered ++ introduced).filter protection.allows), distinct numbers⟩

/-! ## The byte in front of a place -/

theorem byteClass_isPart : ByteClass Name.isPart :=
  byteClass_of_ascii false fun _ hc => isPart_eq_false_of_le hc

theorem startsRun_append (front rest : List Char) :
    startsRun (front ++ rest) (byteLength front) = .ok (Site.startsRun front.getLast?) := by
  rcases List.eq_nil_or_concat front with rfl | ⟨v, c, rfl⟩
  · rfl
  · rw [List.concat_eq_append, List.getLast?_concat]
    -- The byte in front of the place is the last one of `c`.
    obtain ⟨bs, b, hbytes⟩ : ∃ bs b, octets [c] = bs ++ [b] := by
      rcases List.eq_nil_or_concat (octets [c]) with h | ⟨bs, b, h⟩
      · exact absurd h (octets_ne_nil c)
      · exact ⟨bs, b, by rw [h, List.concat_eq_append]⟩
    have hpart : Name.isPart b = Name.isPart c := byteClass_isPart (by rw [hbytes]; simp)
    have hlen : byteLength (v ++ [c]) = (octets v ++ bs).length + 1 := by
      rw [← length_octets, octets_append, hbytes]
      simp only [List.length_append, List.length_singleton, Nat.add_assoc]
    have hget : octetAt (octets (v ++ [c] ++ rest)) (octets v ++ bs).length = .ok b := by
      refine octetAt_of_getElem? ?_
      rw [octets_append, octets_append, hbytes, ← List.append_assoc, List.append_assoc _ [b]]
      simp
    rw [startsRun, hlen, if_neg (Nat.succ_ne_zero _), minus, if_pos (Nat.le_add_left 1 _), ok_bind,
      Nat.add_sub_cancel, hget, ok_bind, hpart]
    rfl

/-! ## Functions -/

theorem lt_of_isPlainBlank {c : Char} (h : isPlainBlank c = true) : c.toNat < 128 := by
  simp only [isPlainBlank, Bool.or_eq_true, beq_iff_eq] at h
  rcases h with (((rfl | rfl) | rfl) | rfl) | rfl <;> decide

theorem byteClass_isPlainBlank : ByteClass isPlainBlank :=
  byteClass_of_lt fun _ => lt_of_isPlainBlank

theorem opensCall_octets (rest : List Char) : opensCall (octets rest) = opensCall rest := by
  rw [opensCall, opensCall, dropWhile_octets byteClass_isPlainBlank, Bool.eq_iff_iff, beq_iff_eq,
    beq_iff_eq, head?_octets (by decide)]

theorem byteLength_pos {text : List Char} (h : text ≠ []) : 0 < byteLength text := by
  rw [← length_encode]
  exact List.length_pos_of_ne_nil (encode_ne_nil h)

theorem rdropWhile_split (P : Char → Bool) (text : List Char) :
    ∃ blanks, text = text.rdropWhile P ++ blanks ∧ ∀ c ∈ blanks, P c = true := by
  refine ⟨(text.reverse.takeWhile P).reverse, ?_, ?_⟩
  · rw [List.rdropWhile, ← List.reverse_append, List.takeWhile_append_dropWhile,
      List.reverse_reverse]
  · intro c hc
    exact List.mem_takeWhile_imp (List.mem_reverse.mp hc)

theorem rdropWhile_append {P : Char → Bool} {text blanks : List Char}
    (htext : ∀ c ∈ text.getLast?, P c = false) (hblank : ∀ c ∈ blanks, P c = true) :
    (text ++ blanks).rdropWhile P = text := by
  rw [List.rdropWhile, List.reverse_append, List.dropWhile_append_of_pos]
  · rcases List.eq_nil_or_concat text with rfl | ⟨v, c, rfl⟩
    · rfl
    · have hc : P c = false := htext c (by simp)
      simp [hc]
  · intro c hc
    exact hblank c (List.mem_reverse.mp hc)

theorem afterFunction_iff {front : List Char} :
    AfterFunction front ↔ ∃ before, front.rdropWhile isPlainBlank = before ++ "function".toList ∧
      BeginsRun before ∧ byteLength (front.rdropWhile isPlainBlank) < byteLength front := by
  constructor
  · rintro ⟨before, blanks, rfl, hbegins, hne, hblank⟩
    have hlast : ∀ c ∈ (before ++ "function".toList).getLast?, isPlainBlank c = false := by
      intro c hc
      rw [List.getLast?_append] at hc
      obtain rfl := Option.some.inj hc
      decide
    rw [← List.append_assoc, rdropWhile_append hlast hblank]
    refine ⟨before, rfl, hbegins, ?_⟩
    have hpos := byteLength_pos hne
    rw [byteLength_append _ blanks]
    omega
  · rintro ⟨before, hbefore, hbegins, hlt⟩
    obtain ⟨blanks, hsplit, hblank⟩ := rdropWhile_split isPlainBlank front
    refine ⟨before, blanks, ?_, hbegins, ?_, hblank⟩
    · rw [← List.append_assoc, ← hbefore]
      exact hsplit
    · rintro rfl
      rw [List.append_nil] at hsplit
      rw [← hsplit] at hlt
      exact Nat.lt_irrefl _ hlt

theorem followsFunction_append (front rest : List Char) :
    ∃ k, followsFunction (front ++ rest) (byteLength front) = .ok k ∧
      (k = true ↔ AfterFunction front) := by
  rw [followsFunction, takeBytes_append, ok_bind, afterFunction_iff]
  simp only [Bool.and_eq_true, decide_eq_true_eq, List.isSuffixOf_iff_suffix]
  split_ifs with h
  · obtain ⟨hlt, before, hbefore⟩ := h
    rw [← hbefore, byteLength_append, minus, if_pos (Nat.le_add_left _ _), ok_bind,
      Nat.add_sub_cancel, startsRun_append, ← byteLength_append, hbefore]
    refine ⟨_, rfl, ?_⟩
    constructor
    · intro hstarts
      exact ⟨before, hbefore.symm, Site.beginsRun_of_startsRun hstarts, hlt⟩
    · rintro ⟨before', heq, hbegins, -⟩
      rw [← hbefore] at heq
      rw [List.append_cancel_right heq]
      exact Site.startsRun_of_beginsRun hbegins
  · refine ⟨false, rfl, ?_⟩
    constructor
    · intro hfalse
      exact Bool.noConfusion hfalse
    · rintro ⟨before, heq, -, hlt⟩
      exact absurd ⟨hlt, before, heq.symm⟩ h

def nameToken (before name : List Char) : Token :=
  ⟨.name, String.ofList name, byteLength before, byteLength (before ++ name)⟩

theorem mem_name_tokens_iff {source : String} {t : Token} :
    t ∈ (Unmask.tokens source).filter (fun t => t.kind = .name) ↔
      ∃ before name rest, NameAt source.toList before name rest ∧ t = nameToken before name := by
  constructor
  · intro h
    obtain ⟨ht, hkind⟩ := List.mem_filter.mp h
    obtain ⟨x, z, -, hx, hstop⟩ := (maximalRun_of_mem_locate .start ht).2
    obtain ⟨front, back, hpieces, hstart⟩ := piece_of_mem_locate ht
    rw [of_decide_eq_true hkind] at hpieces
    refine ⟨_, _, _, NameAt.of_pieces hpieces, ?_⟩
    rw [List.length_append, hx, utf8_eq_encode, length_encode, hstart, Nat.zero_add,
      ← byteLength_append] at hstop
    rw [Nat.zero_add] at hstart
    rw [nameToken, String.ofList_toList, hstop, ← hstart, ← of_decide_eq_true hkind]
  · rintro ⟨before, name, rest, h, rfl⟩
    refine List.mem_filter.mpr ⟨?_, rfl⟩
    rw [Unmask.tokens, h.cut, locate_append, flatMap_text_cut, Nat.zero_add, nameToken,
      byteLength_append]
    exact List.mem_append_right _ List.mem_cons_self

theorem isFunction_nameToken {text before name rest : List Char}
    (h : NameAt text before name rest) :
    ∃ k, isFunction text (nameToken before name) = .ok k ∧
      (k = true ↔ opensCall rest = true ∨ AfterFunction before) := by
  have hbytes : octetsFrom (octets text) (nameToken before name).stop = .ok (octets rest) := by
    rw [h.eq, ← List.append_assoc]
    exact octetsFrom_append (before ++ name) rest
  rw [isFunction, hbytes, ok_bind, opensCall_octets]
  split_ifs with hopens
  · exact ⟨true, rfl, by simp [hopens]⟩
  · obtain ⟨k, hk, hiff⟩ := followsFunction_append before (name ++ rest)
    rw [← h.eq] at hk
    refine ⟨k, hk, ?_⟩
    rw [hiff, or_iff_right hopens]

theorem functionName?_nameToken {text before name rest : List Char}
    (h : NameAt text before name rest) :
    ∃ found, functionName? text (nameToken before name) = .ok found ∧
      ∀ x, found = some x ↔
        x = String.ofList name ∧ (opensCall rest = true ∨ AfterFunction before) := by
  obtain ⟨k, hk, hiff⟩ := isFunction_nameToken h
  rw [functionName?, hk, ok_bind]
  refine ⟨_, rfl, fun x => ?_⟩
  rw [← hiff, Option.ite_none_right_eq_some, Option.some.injEq, and_comm, eq_comm]
  rfl

theorem callableNames_eq (source : String) :
    ∃ s, callableNames source = .ok s ∧ ∀ x, x ∈ s ↔ x ∈ Unmask.callableNames source := by
  have hfound : ∀ t ∈ (Unmask.tokens source).filter (fun t => t.kind = .name),
      ∃ found, functionName? source.toList t = .ok found := by
    intro t ht
    obtain ⟨before, name, rest, hat, rfl⟩ := mem_name_tokens_iff.mp ht
    obtain ⟨found, hname, -⟩ := functionName?_nameToken hat
    exact ⟨found, hname⟩
  obtain ⟨names, hnames, hmem⟩ := exists_filterMapM hfound
  rw [callableNames, tokens_eq, ok_bind, hnames, ok_bind]
  refine ⟨_, rfl, fun x => ?_⟩
  rw [Std.TreeSet.mem_ofList, List.contains_iff_mem, hmem, mem_callableNames_iff]
  constructor
  · rintro ⟨t, ht, hx⟩
    obtain ⟨before, name, rest, hat, rfl⟩ := mem_name_tokens_iff.mp ht
    obtain ⟨found, hname, hiff⟩ := functionName?_nameToken hat
    obtain ⟨rfl, hfunction⟩ := (hiff x).mp (Except.ok.inj (hname.symm.trans hx))
    exact ⟨before, rest, by rw [String.toList_ofList]; exact hat, hfunction⟩
  · rintro ⟨before, rest, hat, hfunction⟩
    obtain ⟨found, hname, hiff⟩ := functionName?_nameToken hat
    refine ⟨nameToken before x.toList, mem_name_tokens_iff.mpr ⟨before, _, rest, hat, rfl⟩, ?_⟩
    rw [hname, (hiff x).mpr ⟨String.ofList_toList.symm, hfunction⟩]

/-! ## Two searches side by side -/

/-- Two recognisers answer together, with answers of the same length; what a check makes
of the first answer is what a function makes of the second. -/
def Alike {α β γ : Type} (f : α → Checked (Option γ)) (g : β → Option γ) :
    Option (α × Nat) → Option (β × Nat) → Prop
  | some (a, n), some (b, m) => n = m ∧ f a = .ok (g b)
  | none, none => True
  | _, _ => False

section Search

variable {α β γ : Type} {f : α → Checked (Option γ)} {g : β → Option γ}
  {at₁ : Option Char → List Char → Option (α × Nat)}
  {at₂ : Option Char → List Char → Option (β × Nat)} {text : List Char}

theorem filterMapM_scan
    (h : ∀ front rest, text = front ++ rest →
      Alike f g (at₁ front.getLast? rest) (at₂ front.getLast? rest)) :
    ∀ (rest front : List Char) (k : Nat), text = front ++ rest →
      (scan at₁ k front.getLast? rest).filterMapM f =
        .ok ((scan at₂ k front.getLast? rest).filterMap g) := by
  intro rest
  induction rest with
  | nil =>
      intro front k _
      cases k <;> rfl
  | cons c rest ih =>
      intro front k htext
      have hlater : ∀ k, (scan at₁ k (some c) rest).filterMapM f =
          .ok ((scan at₂ k (some c) rest).filterMap g) := by
        intro k
        have hnext := ih (front ++ [c]) k (by rw [htext, List.append_assoc]; rfl)
        rwa [List.getLast?_concat] at hnext
      cases k with
      | succ k => exact hlater k
      | zero =>
          have hhere := h front (c :: rest) htext
          rw [scan, scan]
          cases h₁ : at₁ front.getLast? (c :: rest) with
          | none =>
              cases h₂ : at₂ front.getLast? (c :: rest) with
              | none => exact hlater 0
              | some found =>
                  rw [h₁, h₂] at hhere
                  exact hhere.elim
          | some found =>
              cases h₂ : at₂ front.getLast? (c :: rest) with
              | none =>
                  rw [h₁, h₂] at hhere
                  exact hhere.elim
              | some found' =>
                  rw [h₁, h₂] at hhere
                  obtain ⟨hlen, hcheck⟩ : found.2 = found'.2 ∧ f found.1 = .ok (g found'.1) := hhere
                  simp only [List.filterMapM_cons, hcheck, ok_bind, hlater, hlen,
                    List.filterMap_cons]
                  cases g found'.1 with
                  | none => rfl
                  | some x => rfl

/-- A search that checks its finds one by one keeps what the other search keeps. -/
theorem filterMapM_findAll
    (h : ∀ front rest, text = front ++ rest →
      Alike f g (at₁ front.getLast? rest) (at₂ front.getLast? rest)) :
    (findAll at₁ text).filterMapM f = .ok ((findAll at₂ text).filterMap g) :=
  filterMapM_scan h text [] 0 rfl

end Search

/-! ## Sites -/

def scrambledName? (name : List Char) : Option String :=
  if Name.looksScrambled name then some (String.ofList name) else none

theorem filterMap_scrambledName? (names : List (List Char)) :
    names.filterMap scrambledName? = scrambledNames names := by
  induction names with
  | nil => rfl
  | cons name names ih =>
      rw [List.filterMap_cons, scrambledNames, List.filter_cons, scrambledName?, ih]
      split_ifs <;> rfl

theorem suspectAt_append (front rest name : List Char) :
    suspectAt (front ++ rest) (name, byteLength front) =
      .ok (if Site.startsRun front.getLast? then scrambledName? name else none) := by
  rw [suspectAt, startsRun_append, ok_bind, scrambledName?]
  cases Site.startsRun front.getLast? with
  | false => rfl
  | true => rfl

/-- The name behind a keyword begins a run: a blank stands in front of it. -/
theorem alike_introduced {keywords : List String}
    (hkeywords : ∀ k ∈ keywords, Name.isValid k.toList = true) (text front rest : List Char)
    (htext : text = front ++ rest) :
    Alike (suspectAt text) scrambledName?
      (introducedAt? (byteLength text) keywords front.getLast? rest)
      (Site.introduced? keywords front.getLast? rest) := by
  rw [introducedAt?]
  cases hfound : Site.introduced? keywords front.getLast? rest with
  | none => exact trivial
  | some found =>
      obtain ⟨name, n⟩ := found
      obtain ⟨-, k, -, blanks, after, hat, rfl⟩ := (Site.introduced?_eq_some_iff hkeywords).mp hfound
      have hname := (hat.shift front).nameAt
      rw [← htext] at hname
      have hdrop : rest.drop (k.toList.length + blanks.length + name.length - name.length) =
          name ++ after := by
        rw [hat.eq, List.nil_append, ← List.append_assoc, Nat.add_sub_cancel, ← List.length_append,
          List.drop_left]
      refine ⟨rfl, ?_⟩
      have hkept := suspectAt_append (front ++ (k.toList ++ blanks)) (name ++ after) name
      rw [← hname.eq, if_pos (Site.startsRun_of_beginsRun hname.begins)] at hkept
      rw [hdrop, hname.eq, byteLength_append, Nat.add_sub_cancel, ← hname.eq]
      exact hkept

theorem alike_assigned (text front rest : List Char) (htext : text = front ++ rest) :
    Alike (suspectAt text) (fun found => found.bind scrambledName?)
      (assignedAt? (byteLength text) front.getLast? rest)
      (Site.assigned? front.getLast? rest) := by
  rw [assignedAt?]
  cases hfound : Site.assigned? front.getLast? rest with
  | none => exact trivial
  | some found =>
      obtain ⟨kept, n⟩ := found
      obtain ⟨name, left, right, after, hat, -, rfl, -⟩ := Site.assigned?_eq_some_iff.mp hfound
      have hleading : Site.leadingName? rest = some name := by
        rw [hat.eq]
        exact Site.leadingName?_append hat.valid hat.endsRun
      simp only [hleading]
      refine ⟨rfl, ?_⟩
      rw [htext, byteLength_append, Nat.add_sub_cancel, suspectAt_append]
      split_ifs <;> rfl

theorem filterMapM_introduced (text : List Char) (keywords : List String)
    (hkeywords : ∀ k ∈ keywords, Name.isValid k.toList = true) :
    (findAll (introducedAt? (byteLength text) keywords) text).filterMapM (suspectAt text) =
      .ok (scrambledNames (findAll (Site.introduced? keywords) text)) := by
  rw [filterMapM_findAll (alike_introduced hkeywords text), filterMap_scrambledName?]

theorem filterMapM_assigned (text : List Char) :
    (findAll (assignedAt? (byteLength text)) text).filterMapM (suspectAt text) =
      .ok (scrambledNames (Site.assignedNames text)) := by
  rw [filterMapM_findAll (alike_assigned text), ← filterMap_scrambledName?,
    Site.assignedNames, List.filterMap_filterMap]
  rfl

theorem introducedNames_eq (source : String) :
    introducedNames source = .ok (Suspects.introducedNames source) := by
  have hsplit : Suspects.introducedNames source =
      scrambledNames (Site.declaredNames source.toList) ++
        scrambledNames (Site.functionNames source.toList) ++
        scrambledNames (Site.assignedNames source.toList) ++
        scrambledNames (Site.propertyNames source.toList) := by
    simp only [Suspects.introducedNames, scrambledNames, List.filter_append, List.map_append]
  have hdeclared := filterMapM_introduced source.toList ["var", "let", "const"] (by decide)
  have hfunction := filterMapM_introduced source.toList ["function"] (by decide)
  rw [introducedNames, hdeclared, ok_bind, hfunction, ok_bind, filterMapM_assigned, ok_bind, hsplit]
  rfl

/-- No access of the search for suspects faults, and it finds the suspects. -/
theorem suspects_eq (protection : Protection) (source : String) :
    suspects protection source = .ok (Suspects.ofSource protection source) := by
  have hnumbers : ∀ l : List Token, l.filterMapM scrambledNumber? =
      .ok ((l.map Token.text).filter fun t => Literal.looksScrambled t.toList) := by
    intro l
    rw [← List.filterMap_eq_filter, List.filterMap_map]
    refine filterMapM_ok fun t _ => ?_
    rw [scrambledNumber?, looksScrambled_eq, ok_bind]
    rfl
  rw [suspects, tokens_eq, ok_bind, introducedNames_eq, ok_bind, hnumbers, ok_bind,
    ← tokenTexts_eq_map, ← tokenTexts_eq_map]
  rfl

end Unmask.ByOffset
