/-
# `Unmask.Proofs.NameDraws` — names drawn one after another

A supply has three streams of names: two of words, one of letters.  All three are
drawn from in the same way.  A stream is looked at from its position on, name
after name, and what is looked at is passed; the first free name is handed out.

* `Search` is this search round by round, with nothing that bounds it.  It comes to
  an end, and what it ends with is what a supply computes (`search_iff`).
* A word costs few rounds.  All names of a stream differ, and no keyword but
  `delete` is a word, so at most one round more is lost than names are issued
  (`nextWord_first_free`).
* The streams do not disturb each other.  Words of the two roles share the set of
  issued names, but no name belongs to both roles: the lists have no word in
  common, and a number behind a word can be told from it.  So whatever was drawn
  from the other streams, the names ahead in a stream are free exactly if they were
  free at the beginning (`OnCourse`), and the names drawn from it are the open ones
  in order (`drawnFrom_eq`).
-/
import Mathlib.Data.Nat.Nth
import Mathlib.Order.Bounds.Basic
import Unmask.Proofs.NameStreams

namespace Unmask

/-! ## The three streams -/

inductive NameStream where
  | words (role : Role)
  | letters
deriving Repr, DecidableEq

def NameStream.nameAt : NameStream → Nat → String
  | .words role, n => role.nameAt n
  | .letters, n => String.ofList (Unmask.letters n)

theorem NameStream.nameAt_injective (k : NameStream) : Function.Injective k.nameAt := by
  cases k with
  | words role => exact Unmask.nameAt_injective role
  | letters => exact letters_injective

/-- The name at position `n` of a role, by the list: the word at `n` modulo the
length of the list, and from the second round on the number of the round. -/
def Role.Spells (role : Role) (n : Nat) (name : String) : Prop :=
  ∃ word, role.words[n % role.words.length]? = some word ∧
    ((n / role.words.length = 0 ∧ name = word) ∨
      (0 < n / role.words.length ∧ name = word ++ toString (n / role.words.length + 1)))

theorem spells_iff {role : Role} {n : Nat} {name : String} :
    role.Spells n name ↔ name = role.nameAt n := by
  have hlt : n % role.words.length < role.words.length := Nat.mod_lt _ (words_length_pos role)
  have hword : role.words[n % role.words.length]? =
      some (role.words.getD (n % role.words.length) "") := by
    rw [List.getD_eq_getElem _ _ hlt, List.getElem?_eq_getElem hlt]
  simp only [Role.nameAt]
  constructor
  · rintro ⟨word, hget, ⟨hround, rfl⟩ | ⟨hround, rfl⟩⟩
    · rw [if_pos hround]
      exact Option.some.inj (hget.symm.trans hword)
    · rw [if_neg (Nat.pos_iff_ne_zero.mp hround), Option.some.inj (hget.symm.trans hword)]
      rfl
  · rintro rfl
    refine ⟨_, hword, ?_⟩
    rcases Nat.eq_zero_or_pos (n / role.words.length) with hround | hround
    · exact Or.inl ⟨hround, if_pos hround⟩
    · exact Or.inr ⟨hround, if_neg (Nat.pos_iff_ne_zero.mp hround)⟩

theorem notMem_reservedWords_iff {name : String} :
    name ∉ reservedWords ↔ isReserved name = false := by
  simp [isReserved]

theorem IsFirstFree.isLeast {free : Nat → Bool} {P : Nat → Prop} {n i : Nat}
    (h : IsFirstFree free n i) (hP : ∀ m, P m ↔ free m = true) : IsLeast {m | n ≤ m ∧ P m} i := by
  refine ⟨⟨h.le, (hP i).mpr h.isFree⟩, ?_⟩
  rintro m ⟨hle, hm⟩
  by_contra hlt
  have hfalse := h.least m hle (Nat.not_le.mp hlt)
  rw [(hP m).mp hm] at hfalse
  exact Bool.noConfusion hfalse

namespace NameSupply

def position (s : NameSupply) : NameStream → Nat
  | .words role => s.counter role
  | .letters => s.numbers

/-- The names that a stream passes, keywords apart. -/
def taken (s : NameSupply) : NameStream → Std.TreeSet String
  | .words _ => s.issued
  | .letters => s.occupied

/-- A name that a stream may hand out. -/
def IsFree (s : NameSupply) (k : NameStream) (name : String) : Prop :=
  name ∉ s.taken k ∧ name ∉ reservedWords

def moveTo (s : NameSupply) (k : NameStream) (n : Nat) : NameSupply :=
  match k with
  | .words role => s.advance role n
  | .letters => { s with numbers := n }

/-- The supply after a name was handed out: words are issued, letters leave no trace. -/
def record (s : NameSupply) (k : NameStream) (name : String) : NameSupply :=
  match k with
  | .words _ => { s with issued := s.issued.insert name }
  | .letters => s

def draw (s : NameSupply) : NameStream → String × NameSupply
  | .words role => s.nextWord role
  | .letters => s.nextLetters

theorem position_moveTo (s : NameSupply) (k : NameStream) (n : Nat) :
    (s.moveTo k n).position k = n := by
  cases k with
  | words role => cases role <;> rfl
  | letters => rfl

theorem position_moveTo_of_ne (s : NameSupply) {k other : NameStream} (h : other ≠ k) (n : Nat) :
    (s.moveTo k n).position other = s.position other := by
  cases k with
  | words role =>
      cases other with
      | words role' =>
          cases role with
          | value =>
              cases role' with
              | value => exact absurd rfl h
              | function => rfl
          | function =>
              cases role' with
              | value => rfl
              | function => exact absurd rfl h
      | letters => cases role <;> rfl
  | letters =>
      cases other with
      | words role' => cases role' <;> rfl
      | letters => exact absurd rfl h

theorem taken_moveTo (s : NameSupply) (k other : NameStream) (n : Nat) :
    (s.moveTo k n).taken other = s.taken other := by
  cases k with
  | words role => cases role <;> cases other <;> rfl
  | letters => cases other <;> rfl

theorem moveTo_moveTo (s : NameSupply) (k : NameStream) (n m : Nat) :
    (s.moveTo k n).moveTo k m = s.moveTo k m := by
  cases k with
  | words role => cases role <;> rfl
  | letters => rfl

theorem position_record (s : NameSupply) (k other : NameStream) (name : String) :
    (s.record k name).position other = s.position other := by
  cases k with
  | words role =>
      cases other with
      | words role' => cases role' <;> rfl
      | letters => rfl
  | letters => rfl

theorem mem_taken_record (s : NameSupply) (k other : NameStream) (name x : String) :
    x ∈ (s.record k name).taken other ↔
      x ∈ s.taken other ∨
        ((∃ role, k = .words role) ∧ (∃ role, other = .words role) ∧ x = name) := by
  cases k with
  | words role =>
      cases other with
      | words role' =>
          show x ∈ s.issued.insert name ↔ _
          rw [Std.TreeSet.mem_insert, Std.LawfulEqCmp.compare_eq_iff_eq, or_comm, eq_comm]
          simp [taken]
      | letters => simp [record, taken]
  | letters => simp [record]

/-! ## The search without a bound -/

/-- The search for the next name, round by round: a round looks at the name at the
position of the stream and passes it, and the first name that is free is handed
out.  The number counts the rounds. -/
inductive Search (k : NameStream) : NameSupply → Nat → String → NameSupply → Prop
  | found {s : NameSupply} : s.IsFree k (k.nameAt (s.position k)) →
      Search k s 1 (k.nameAt (s.position k))
        ((s.moveTo k (s.position k + 1)).record k (k.nameAt (s.position k)))
  | passed {s s' : NameSupply} {rounds : Nat} {name : String} :
      ¬ s.IsFree k (k.nameAt (s.position k)) →
      Search k (s.moveTo k (s.position k + 1)) rounds name s' →
      Search k s (rounds + 1) name s'

/-- The positions from that of the stream on where a free name stands. -/
def freeAhead (s : NameSupply) (k : NameStream) : Set Nat :=
  {m | s.position k ≤ m ∧ s.IsFree k (k.nameAt m)}

theorem isFree_moveTo {s : NameSupply} {k : NameStream} {n : Nat} {name : String} :
    (s.moveTo k n).IsFree k name ↔ s.IsFree k name := by
  rw [IsFree, IsFree, taken_moveTo]

/-- A round that finds no free name has nothing to lose by passing it. -/
theorem freeAhead_passed {s : NameSupply} {k : NameStream}
    (h : ¬ s.IsFree k (k.nameAt (s.position k))) :
    (s.moveTo k (s.position k + 1)).freeAhead k = s.freeAhead k := by
  ext m
  simp only [freeAhead, Set.mem_ofPred_eq, position_moveTo, isFree_moveTo]
  refine and_congr_left fun hfree => ⟨Nat.le_of_succ_le, fun hle => ?_⟩
  refine Nat.lt_of_le_of_ne hle ?_
  rintro rfl
  exact h hfree

theorem Search.ends {k : NameStream} {s s' : NameSupply} {rounds : Nat} {name : String}
    (h : Search k s rounds name s') :
    ∃ n, IsLeast (s.freeAhead k) n ∧ n + 1 = s.position k + rounds ∧ name = k.nameAt n ∧
      s' = (s.moveTo k (n + 1)).record k (k.nameAt n) := by
  induction h with
  | @found s hfree =>
      exact ⟨s.position k, ⟨⟨Nat.le_refl _, hfree⟩, fun m hm => hm.1⟩, rfl, rfl, rfl⟩
  | @passed s s' rounds name hpass _ ih =>
      obtain ⟨n, hleast, hrounds, hname, hs'⟩ := ih
      rw [position_moveTo] at hrounds
      rw [moveTo_moveTo] at hs'
      rw [freeAhead_passed hpass] at hleast
      exact ⟨n, hleast, by omega, hname, hs'⟩

theorem search_of_isLeast {k : NameStream} : ∀ {rounds n : Nat} {s : NameSupply},
    n = s.position k + rounds → IsLeast (s.freeAhead k) n →
    Search k s (rounds + 1) (k.nameAt n) ((s.moveTo k (n + 1)).record k (k.nameAt n)) := by
  intro rounds
  induction rounds with
  | zero =>
      rintro n s rfl hleast
      exact .found hleast.1.2
  | succ rounds ih =>
      intro n s hn hleast
      have hpass : ¬ s.IsFree k (k.nameAt (s.position k)) := by
        intro hfree
        have hle : n ≤ s.position k := hleast.2 ⟨Nat.le_refl _, hfree⟩
        omega
      rw [← freeAhead_passed hpass] at hleast
      have hposition : n = (s.moveTo k (s.position k + 1)).position k + rounds := by
        rw [position_moveTo]
        omega
      have hrest := ih hposition hleast
      rw [moveTo_moveTo] at hrest
      exact .passed hpass hrest

/-- What a draw gives: the name at the least position ahead where a free one stands. -/
theorem draw_spec (s : NameSupply) (k : NameStream) :
    ∃ n, IsLeast (s.freeAhead k) n ∧
      s.draw k = (k.nameAt n, (s.moveTo k (n + 1)).record k (k.nameAt n)) := by
  cases k with
  | words role =>
      obtain ⟨n, hfirst, hnext⟩ := s.nextWord_spec role
      refine ⟨n, hfirst.isLeast fun m => ?_, ?_⟩
      · rw [wordFree_iff, ← notMem_reservedWords_iff]
        rfl
      · show s.nextWord role = _
        rw [hnext]
        cases role <;> rfl
  | letters =>
      obtain ⟨n, hfirst, hnext⟩ := s.nextLetters_spec
      refine ⟨n, hfirst.isLeast fun m => ?_, hnext⟩
      rw [lettersFree_iff, ← notMem_reservedWords_iff]
      rfl

/-- The search ends, in one way only, and the supply computes its end. -/
theorem search_iff {s s' : NameSupply} {k : NameStream} {n rounds : Nat} {name : String}
    (hleast : IsLeast (s.freeAhead k) n) :
    Search k s rounds name s' ↔ rounds = n - s.position k + 1 ∧ s.draw k = (name, s') := by
  obtain ⟨m, hm, hdraw⟩ := s.draw_spec k
  obtain rfl := hm.unique hleast
  have hle : s.position k ≤ m := hm.1.1
  constructor
  · intro h
    obtain ⟨i, hi, hrounds, rfl, rfl⟩ := h.ends
    obtain rfl := hi.unique hleast
    exact ⟨by omega, hdraw⟩
  · rintro ⟨rfl, heq⟩
    obtain ⟨rfl, rfl⟩ := Prod.mk.inj (hdraw.symm.trans heq)
    exact search_of_isLeast (by omega) hm

end NameSupply

/-! ## Rounds that are lost -/

/-- The only keyword among the words is `delete`, in the first round. -/
theorem eq_delete_of_nameAt_mem {role : Role} {n : Nat} (h : role.nameAt n ∈ reservedWords) :
    role.nameAt n = "delete" := by
  have hkeywords : ∀ w ∈ reservedWords, IsWord w.toList := by decide +kernel
  have hwords : ∀ w ∈ role.words, w ∈ reservedWords → w = "delete" := by
    cases role with
    | value => exact (by decide +kernel : ∀ w ∈ valueWords, w ∈ reservedWords → w = "delete")
    | function =>
        exact (by decide +kernel : ∀ w ∈ functionWords, w ∈ reservedWords → w = "delete")
  rcases Nat.eq_zero_or_pos (n / role.words.length) with hround | hround
  · have hname : role.nameAt n = role.words.getD (n % role.words.length) "" := if_pos hround
    rw [hname] at h ⊢
    exact hwords _ (getD_mem_words role n) h
  · -- A round number is made of digits, and no keyword has one.
    obtain ⟨d, ds, hdigits⟩ : ∃ d ds, roundDigits (n / role.words.length) = d :: ds := by
      refine List.exists_cons_of_ne_nil ?_
      rw [roundDigits, if_neg (Nat.pos_iff_ne_zero.mp hround)]
      exact Nat.toDigits_ne_nil
    have hd : d ∈ roundDigits (n / role.words.length) := by
      rw [hdigits]
      exact List.mem_cons_self
    have hmem : d ∈ (role.nameAt n).toList := by
      rw [toList_nameAt]
      exact List.mem_append_right _ hd
    have hno := isDigit_eq_false_of_isAlpha ((hkeywords _ h).2 d hmem)
    rw [isDigit_of_mem_roundDigits hd] at hno
    exact Bool.noConfusion hno

namespace NameSupply

/-- A free word stands at most one place further than names are issued. -/
theorem exists_free_word (s : NameSupply) (role : Role) :
    ∃ m, m ∈ s.freeAhead (.words role) ∧ m ≤ s.counter role + (s.issued.size + 1) := by
  obtain ⟨m, hle, hbound, hfree⟩ := exists_not_mem (nameAt_injective role)
    (s.issued.toList ++ ["delete"]) (s.counter role)
  rw [List.length_append, Std.TreeSet.length_toList] at hbound
  rw [List.mem_append, not_or, Std.TreeSet.mem_toList] at hfree
  refine ⟨m, ⟨hle, hfree.1, ?_⟩, hbound⟩
  intro hreserved
  exact hfree.2 (List.mem_singleton.mpr (eq_delete_of_nameAt_mem hreserved))

/-- What handing out a word changes, and what it leaves as it is. -/
structure IssuesWord (s : NameSupply) (role : Role) (n : Nat) (name : String)
    (s' : NameSupply) : Prop where
  counter : s'.counter role = n + 1
  otherCounter : ∀ other, other ≠ role → s'.counter other = s.counter other
  numbers : s'.numbers = s.numbers
  issued : ∀ x, x ∈ s'.issued ↔ x ∈ s.issued ∨ x = name
  occupied : s'.occupied = s.occupied

theorem issuesWord_record (s : NameSupply) (role : Role) (n : Nat) (name : String) :
    IssuesWord s role n name ((s.moveTo (.words role) (n + 1)).record (.words role) name) where
  counter := by cases role <;> rfl
  otherCounter other hne := by
    have hstream : NameStream.words other ≠ .words role := fun h => hne (NameStream.words.inj h)
    exact (position_record _ _ (.words other) _).trans (s.position_moveTo_of_ne hstream (n + 1))
  numbers := by cases role <;> rfl
  issued x := by
    have h := mem_taken_record (s.moveTo (.words role) (n + 1)) (.words role) (.words role) name x
    rw [taken_moveTo] at h
    simpa [taken] using h
  occupied := by cases role <;> rfl

/-- The next word of a role.  It is the one at the least position from the counter on
whose name is neither issued nor a keyword; the counter moves behind that position,
the name is issued, and nothing else changes.  The search for it, which has no bound
of its own, ends there and nowhere else, after at most one name more has been passed
than are issued. -/
theorem nextWord_first_free (s : NameSupply) (role : Role) :
    ∃ n, IsLeast {m | s.counter role ≤ m ∧
        ∃ name, role.Spells m name ∧ name ∉ s.issued ∧ name ∉ reservedWords} n ∧
      n - s.counter role ≤ s.issued.size + 1 ∧
      role.Spells n (s.nextWord role).1 ∧
      IssuesWord s role n (s.nextWord role).1 (s.nextWord role).2 ∧
      ∀ rounds name s', Search (.words role) s rounds name s' ↔
        rounds = n - s.counter role + 1 ∧ s.nextWord role = (name, s') := by
  obtain ⟨n, hleast, hdraw⟩ := s.draw_spec (.words role)
  have hnext : s.nextWord role = (role.nameAt n, _) := hdraw
  have hset : {m | s.counter role ≤ m ∧
      ∃ name, role.Spells m name ∧ name ∉ s.issued ∧ name ∉ reservedWords} =
        s.freeAhead (.words role) := by
    ext m
    simp only [spells_iff, exists_eq_left]
    rfl
  obtain ⟨m, hm, hbound⟩ := s.exists_free_word role
  have hle : n ≤ m := hleast.2 hm
  refine ⟨n, hset ▸ hleast, by omega, ?_, ?_, fun rounds name s' => search_iff hleast⟩
  · rw [hnext]
    exact spells_iff.mpr rfl
  · rw [hnext]
    exact issuesWord_record s role n _

/-! ## Draws in a row -/

def drawAll (s : NameSupply) : List NameStream → List (NameStream × String)
  | [] => []
  | k :: calls => (k, (s.draw k).1) :: (s.draw k).2.drawAll calls

def drawnFrom (s : NameSupply) (k : NameStream) (calls : List NameStream) : List String :=
  ((s.drawAll calls).filter fun drawn => drawn.1 = k).map Prod.snd

theorem drawnFrom_cons_self (s : NameSupply) (k : NameStream) (calls : List NameStream) :
    s.drawnFrom k (k :: calls) = (s.draw k).1 :: (s.draw k).2.drawnFrom k calls := by
  simp [drawnFrom, drawAll]

theorem drawnFrom_cons_of_ne (s : NameSupply) {k other : NameStream} (h : other ≠ k)
    (calls : List NameStream) :
    s.drawnFrom k (other :: calls) = (s.draw other).2.drawnFrom k calls := by
  simp [drawnFrom, drawAll, h]

end NameSupply

/-- The position holds a name that is open from the beginning: neither reserved by the
caller nor a keyword. -/
def NameStream.Open (k : NameStream) (reserved : List String) (n : Nat) : Prop :=
  k.nameAt n ∉ reserved ∧ k.nameAt n ∉ reservedWords

instance (k : NameStream) (reserved : List String) : DecidablePred (k.Open reserved) :=
  fun n => inferInstanceAs (Decidable (k.nameAt n ∉ reserved ∧ k.nameAt n ∉ reservedWords))

theorem nameAt_ne_of_ne {role other : Role} (h : role ≠ other) (m n : Nat) :
    role.nameAt m ≠ other.nameAt n := by
  intro heq
  have hlist : (role.nameAt m).toList = (other.nameAt n).toList := by rw [heq]
  rw [toList_nameAt, toList_nameAt] at hlist
  obtain ⟨hword, -⟩ := letters_digits_inj
    (isWord_of_mem_words (getD_mem_words role m)).2
    (isWord_of_mem_words (getD_mem_words other n)).2
    (fun _ => isDigit_of_mem_roundDigits) (fun _ => isDigit_of_mem_roundDigits) hlist
  have hdisjoint : ∀ w ∈ valueWords, w ∉ functionWords := by decide +kernel
  have hrole := getD_mem_words role m
  have hother := getD_mem_words other n
  rw [String.toList_inj.mp hword] at hrole
  cases role with
  | value =>
      cases other with
      | value => exact h rfl
      | function => exact hdisjoint _ hrole hother
  | function =>
      cases other with
      | value => exact hdisjoint _ hother hrole
      | function => exact h rfl

namespace NameSupply

/-- A stream from which a number of names was drawn: so many of the names behind it were
open, and of those ahead the open ones are still free. -/
structure OnCourse (reserved : List String) (k : NameStream) (s : NameSupply)
    (drawn : Nat) : Prop where
  behind : Nat.count (k.Open reserved) (s.position k) = drawn
  ahead : ∀ m, s.position k ≤ m → (s.IsFree k (k.nameAt m) ↔ k.Open reserved m)

theorem onCourse_reserve (reserved : List String) (k : NameStream) :
    OnCourse reserved k (({} : NameSupply).reserve reserved) 0 where
  behind := by
    cases k with
    | words role => cases role <;> rfl
    | letters => rfl
  ahead m _ := by
    have htaken : k.nameAt m ∈ (({} : NameSupply).reserve reserved).taken k ↔
        k.nameAt m ∈ reserved := by
      cases k <;> simp [taken, reserve]
    rw [IsFree, NameStream.Open, htaken]

theorem OnCourse.isNext {reserved : List String} {k : NameStream} {s : NameSupply} {drawn n : Nat}
    (h : OnCourse reserved k s drawn) (hleast : IsLeast (s.freeAhead k) n) :
    Nat.nth (k.Open reserved) drawn = n ∧ Nat.count (k.Open reserved) (n + 1) = drawn + 1 := by
  obtain ⟨⟨hle, hfree⟩, hmin⟩ := hleast
  have hopen : k.Open reserved n := (h.ahead n hle).mp hfree
  have hcount : Nat.count (k.Open reserved) n = drawn := by
    refine Nat.le_antisymm ?_ (h.behind ▸ Nat.count_monotone _ hle)
    by_contra hlt
    obtain ⟨m, ⟨hm, hmn⟩, hmopen⟩ := Nat.exists_of_count_lt_count
      (a := s.position k) (b := n) (p := k.Open reserved) (by rw [h.behind]; omega)
    have hnm : n ≤ m := hmin ⟨hm, (h.ahead m hm).mpr hmopen⟩
    omega
  refine ⟨?_, ?_⟩
  · rw [← hcount]
    exact Nat.nth_count hopen
  · rw [Nat.count_succ, if_pos hopen, hcount]

theorem OnCourse.draw {reserved : List String} {k : NameStream} {s : NameSupply} {drawn : Nat}
    (h : OnCourse reserved k s drawn) :
    (s.draw k).1 = k.nameAt (Nat.nth (k.Open reserved) drawn) ∧
      OnCourse reserved k (s.draw k).2 (drawn + 1) := by
  obtain ⟨n, hleast, hdraw⟩ := s.draw_spec k
  obtain ⟨hnth, hcount⟩ := h.isNext hleast
  rw [hdraw, hnth]
  refine ⟨rfl, ?_, ?_⟩
  · rw [position_record, position_moveTo, hcount]
  · intro m hm
    rw [position_record, position_moveTo] at hm
    have hle : s.position k ≤ m := by
      have := hleast.1.1
      omega
    -- The names of a stream differ, so the one handed out is none of those ahead.
    have hne : k.nameAt m ≠ k.nameAt n := fun heq => by
      have := k.nameAt_injective heq
      omega
    rw [← h.ahead m hle, IsFree, IsFree, mem_taken_record, taken_moveTo]
    simp [hne]

theorem OnCourse.draw_other {reserved : List String} {k other : NameStream} {s : NameSupply}
    {drawn : Nat} (h : OnCourse reserved k s drawn) (hne : other ≠ k) :
    OnCourse reserved k (s.draw other).2 drawn := by
  obtain ⟨n, -, hdraw⟩ := s.draw_spec other
  have hposition : (s.draw other).2.position k = s.position k := by
    rw [hdraw, position_record, position_moveTo_of_ne s hne.symm]
  refine ⟨hposition ▸ h.behind, ?_⟩
  intro m hm
  rw [hposition] at hm
  have hapart : ∀ role role', other = .words role → k = .words role' →
      k.nameAt m ≠ other.nameAt n := by
    rintro role role' rfl rfl
    exact nameAt_ne_of_ne (fun heq => hne (by rw [heq])) m n
  rw [← h.ahead m hm, hdraw, IsFree, IsFree, mem_taken_record, taken_moveTo]
  constructor
  · rintro ⟨htaken, hword⟩
    exact ⟨fun hmem => htaken (Or.inl hmem), hword⟩
  · rintro ⟨htaken, hword⟩
    refine ⟨?_, hword⟩
    rintro (hmem | ⟨⟨role, hrole⟩, ⟨role', hrole'⟩, heq⟩)
    · exact htaken hmem
    · exact hapart role role' hrole hrole' heq

theorem OnCourse.drawnFrom {reserved : List String} {k : NameStream} :
    ∀ {calls : List NameStream} {s : NameSupply} {drawn : Nat}, OnCourse reserved k s drawn →
      s.drawnFrom k calls = (List.range' drawn (calls.count k)).map fun i =>
        k.nameAt (Nat.nth (k.Open reserved) i) := by
  intro calls
  induction calls with
  | nil =>
      intro s drawn _
      rfl
  | cons other calls ih =>
      intro s drawn h
      by_cases heq : other = k
      · subst heq
        obtain ⟨hname, hrest⟩ := h.draw
        rw [drawnFrom_cons_self, hname, ih hrest, List.count_cons_self, List.range'_succ,
          List.map_cons]
      · rw [drawnFrom_cons_of_ne s heq, ih (h.draw_other heq), List.count_cons_of_ne heq]

/-- Whatever is drawn in between, the names drawn from a stream are its open ones in order. -/
theorem drawnFrom_eq (reserved : List String) (k : NameStream) (calls : List NameStream) :
    (({} : NameSupply).reserve reserved).drawnFrom k calls =
      (List.range (calls.count k)).map fun i => k.nameAt (Nat.nth (k.Open reserved) i) := by
  rw [(onCourse_reserve reserved k).drawnFrom, List.range_eq_range']

/-- The streams do not disturb each other: two rows of calls that draw equally often from
each stream draw the same names from each, in the same order, however the calls are
interleaved and whatever names the caller has reserved. -/
theorem streams_undisturbed (reserved : List String) (calls calls' : List NameStream)
    (hcount : ∀ k, calls.count k = calls'.count k) (k : NameStream) :
    (({} : NameSupply).reserve reserved).drawnFrom k calls =
      (({} : NameSupply).reserve reserved).drawnFrom k calls' := by
  rw [drawnFrom_eq, drawnFrom_eq, hcount k]

/-- Calls that go from stream to stream. -/
def callsByTurns : List NameStream :=
  [.words .value, .words .function, .letters, .words .value, .letters]

/-- The same calls, those from one stream in a block. -/
def callsInBlocks : List NameStream :=
  [.letters, .letters, .words .function, .words .value, .words .value]

theorem streams_undisturbed_by_turns :
    callsByTurns.count (.words .value) = callsInBlocks.count (.words .value) ∧
      callsByTurns.count (.words .function) = callsInBlocks.count (.words .function) ∧
      callsByTurns.count .letters = callsInBlocks.count .letters ∧
      (({} : NameSupply).reserve ["a", "container", "setup"]).drawnFrom (.words .value)
        callsInBlocks = ["element", "wrapper"] ∧
      (({} : NameSupply).reserve ["a", "container", "setup"]).drawnFrom .letters
        callsInBlocks = ["b", "c"] := by
  have hcount : ∀ k, callsByTurns.count k = callsInBlocks.count k := by
    intro k
    cases k with
    | words role => cases role <;> rfl
    | letters => rfl
  refine ⟨hcount _, hcount _, hcount _, ?_, ?_⟩
  · rw [← streams_undisturbed _ callsByTurns callsInBlocks hcount]
    decide +kernel
  · rw [← streams_undisturbed _ callsByTurns callsInBlocks hcount]
    decide +kernel

end NameSupply

end Unmask
