/-
# `Unmask.Proofs.Unescaping` — undoing escapes, one kind after another

`unescape` is seven replacements of the whole text, each of which sees what the
ones before it have made.  Here the other direction is written down, as a
relation, since who escapes a text has a choice:

* every backslash is doubled, and a slash or a quote may get a backslash in
  front of it, each on its own (`Backslashed`);
* then `&`, `<` and `>` become entities (`withEntities`).

The main result, `unescape_escaped`, says that whatever was chosen is undone.

Entities are undone in an order in which that of `&` is the last.  Until then an
ampersand of the text stands there as `&amp;`, so every ampersand in sight
starts the entity of one character, and a pass can be followed character by
character (`replaceFrom_entities`).

Backslashes are followed run by run.  A run of `k` backslashes has become `2k`
of them, or `2k + 1` in front of a marked character; the pass for that character
takes one away if there is one, and leaves `2k` or `2k - 1`.  The last pass
halves what is there and rounds up, which gives `k` in either case.  `Stage`
says what is between the passes.
-/
import Unmask.ShellCommand

namespace Unmask.ShellCommand

/-! ## Escaped texts -/

/-- The characters that may be escaped with a backslash, or not. -/
def isMarked (c : Char) : Bool := c == '/' || c == '"' || c == '\''

/-- The second text is the first with every backslash doubled, and with some of its
slashes and quotes behind a backslash. -/
inductive Backslashed : List Char → List Char → Prop
  | nil : Backslashed [] []
  | backslash {x y : List Char} : Backslashed x y → Backslashed ('\\' :: x) ('\\' :: '\\' :: y)
  | marked {c : Char} {x y : List Char} : isMarked c = true → Backslashed x y →
      Backslashed (c :: x) ('\\' :: c :: y)
  | plain {c : Char} {x y : List Char} : c ≠ '\\' → Backslashed x y →
      Backslashed (c :: x) (c :: y)

def entity (c : Char) : List Char :=
  if c = '&' then "&amp;".toList
  else if c = '<' then "&lt;".toList
  else if c = '>' then "&gt;".toList
  else [c]

/-- A text with every `&`, `<` and `>` written as an entity. -/
def withEntities (text : List Char) : List Char := text.flatMap entity

/-! ## One replacement -/

section Replacement

variable {p q : List Char}

theorem replaceFrom_passed (w rest : List Char) :
    replaceFrom p q w.length (w ++ rest) = replaceFrom p q 0 rest := by
  induction w with
  | nil => rfl
  | cons c w ih => exact ih

theorem replaceFrom_occurrence (hp : p ≠ []) (rest : List Char) :
    replaceFrom p q 0 (p ++ rest) = q ++ replaceFrom p q 0 rest := by
  obtain ⟨c, w, rfl⟩ := List.exists_cons_of_ne_nil hp
  have hhere : (c :: w).isPrefixOf (c :: (w ++ rest)) = true :=
    List.isPrefixOf_iff_prefix.mpr ⟨rest, rfl⟩
  rw [List.cons_append, replaceFrom, if_pos hhere]
  exact congrArg (q ++ ·) (replaceFrom_passed w rest)

theorem replaceFrom_cons {c : Char} {rest : List Char} (h : ¬ p <+: c :: rest) :
    replaceFrom p q 0 (c :: rest) = c :: replaceFrom p q 0 rest := by
  rw [replaceFrom, if_neg fun hp => h (List.isPrefixOf_iff_prefix.mp hp)]

theorem replaceFrom_cons_of_ne {c d : Char} {rest : List Char} (h : d ≠ c) :
    replaceFrom (c :: p) q 0 (d :: rest) = d :: replaceFrom (c :: p) q 0 rest :=
  replaceFrom_cons fun hp => h (List.cons_prefix_cons.mp hp).1.symm

theorem replaceFrom_append {c : Char} {w : List Char} (h : c ∉ w) (rest : List Char) :
    replaceFrom (c :: p) q 0 (w ++ rest) = w ++ replaceFrom (c :: p) q 0 rest := by
  induction w with
  | nil => rfl
  | cons d w ih =>
      have hd : d ≠ c := fun hdc => h (hdc ▸ List.mem_cons_self)
      rw [List.cons_append, replaceFrom_cons_of_ne hd, ih fun hc => h (List.mem_cons_of_mem d hc),
        List.cons_append]

end Replacement

/-! ## Entities -/

/-- What a pass over entities has to know of a character: it is written as the
pattern and turns into the replacement, or it stays, and the pattern cannot start
with its first character nor anywhere behind it. -/
def Passes (p q before after : List Char) : Prop :=
  (before = '&' :: p ∧ after = q) ∨
    (after = before ∧ ∃ c w, before = c :: w ∧ '&' ∉ w ∧ ∀ rest, ¬ '&' :: p <+: c :: (w ++ rest))

theorem replaceFrom_entities {p q : List Char} {f g : Char → List Char}
    (h : ∀ c, Passes p q (f c) (g c)) (text : List Char) :
    replaceFrom ('&' :: p) q 0 (text.flatMap f) = text.flatMap g := by
  induction text with
  | nil => rfl
  | cons c text ih =>
      rw [List.flatMap_cons, List.flatMap_cons]
      rcases h c with ⟨hf, hg⟩ | ⟨hg, d, w, hf, hw, hno⟩
      · rw [hf, hg, replaceFrom_occurrence (List.cons_ne_nil _ _), ih]
      · rw [hg, hf, List.cons_append, replaceFrom_cons (hno _), replaceFrom_append hw, ih,
          List.cons_append]

/-- A character in markup from which some entities have been taken already: only
those of a list are left. -/
def partlyWritten (left : List Char) (c : Char) : List Char := if c ∈ left then entity c else [c]

theorem withEntities_eq (text : List Char) :
    withEntities text = text.flatMap (partlyWritten ['>', '<', '&']) := by
  have h : entity = partlyWritten ['>', '<', '&'] := by
    funext c
    by_cases hc : c ∈ ['>', '<', '&']
    · rw [partlyWritten, if_pos hc]
    · rw [partlyWritten, if_neg hc]
      simp only [List.mem_cons, List.not_mem_nil, or_false, not_or] at hc
      simp [entity, hc]
  rw [withEntities, h]

/-- Of two entities none is the start of the other, and neither has an ampersand but
in front. -/
theorem entity_apart {c d : Char} (hc : c ∈ ['>', '<', '&']) (hd : d ∈ ['>', '<', '&'])
    (hcd : c ≠ d) :
    ∃ w, entity c = '&' :: w ∧ '&' ∉ w ∧ ∀ rest, ¬ entity d <+: '&' :: (w ++ rest) := by
  simp only [List.mem_cons, List.not_mem_nil, or_false] at hc hd
  refine ⟨(entity c).tail, ?_⟩
  rcases hc with rfl | rfl | rfl <;> rcases hd with rfl | rfl | rfl <;> simp_all [entity]

/-- The pass for the entity of `d` takes that one and no other, as long as `&` itself
is still written as an entity. -/
theorem passes_entity (d : Char) (left : List Char) (hleft : d :: left ⊆ ['>', '<', '&'])
    (hd : d ∉ left) (hamp : '&' ∈ d :: left) (c : Char) :
    Passes (entity d).tail [d] (partlyWritten (d :: left) c) (partlyWritten left c) := by
  have hentity : entity d = '&' :: (entity d).tail := by
    have := hleft List.mem_cons_self
    simp only [List.mem_cons, List.not_mem_nil, or_false] at this
    rcases this with rfl | rfl | rfl <;> rfl
  by_cases hcd : c = d
  · subst hcd
    refine Or.inl ⟨?_, ?_⟩
    · rw [partlyWritten, if_pos List.mem_cons_self, ← hentity]
    · rw [partlyWritten, if_neg hd]
  · have hsame : partlyWritten left c = partlyWritten (d :: left) c := by
      simp [partlyWritten, hcd]
    refine Or.inr ⟨hsame, ?_⟩
    rw [← hentity, ← hsame, partlyWritten]
    by_cases hc : c ∈ left
    · obtain ⟨w, hw, hno, hapart⟩ :=
        entity_apart (hleft (List.mem_cons_of_mem d hc)) (hleft List.mem_cons_self) hcd
      exact ⟨'&', w, by rw [if_pos hc, hw], hno, hapart⟩
    · rw [if_neg hc]
      refine ⟨c, [], rfl, List.not_mem_nil, fun rest hp => ?_⟩
      rw [hentity] at hp
      obtain rfl := (List.cons_prefix_cons.mp hp).1
      exact hc ((List.mem_cons.mp hamp).resolve_left hcd)

/-- The three passes over entities leave the text that was put into markup. -/
theorem replaceAll_entities (text : List Char) :
    replaceAll "&amp;" "&" (replaceAll "&lt;" "<" (replaceAll "&gt;" ">" (withEntities text))) =
      text := by
  have hgt := replaceFrom_entities
    (passes_entity '>' ['<', '&'] (by simp) (by decide) (by simp)) text
  have hlt := replaceFrom_entities (passes_entity '<' ['&'] (by simp) (by decide) (by simp)) text
  have hamp := replaceFrom_entities (passes_entity '&' [] (by simp) (by decide) (by simp)) text
  have hplain : text.flatMap (partlyWritten []) = text := by
    have h : partlyWritten [] = fun c => [c] := by
      funext c
      simp [partlyWritten]
    rw [h, List.flatMap_singleton']
  rw [withEntities_eq]
  calc replaceAll "&amp;" "&" (replaceAll "&lt;" "<" (replaceAll "&gt;" ">" _))
      = replaceAll "&amp;" "&" (replaceAll "&lt;" "<"
          (text.flatMap (partlyWritten ['<', '&']))) := by rw [← hgt]; rfl
    _ = replaceAll "&amp;" "&" (text.flatMap (partlyWritten ['&'])) := by rw [← hlt]; rfl
    _ = text.flatMap (partlyWritten []) := by rw [← hamp]; rfl
    _ = text := hplain

/-! ## Backslashes -/

/-- A run of backslashes ends here. -/
def EndsBackslashes (rest : List Char) : Prop := rest.head? ≠ some '\\'

theorem endsBackslashes_nil : EndsBackslashes [] := by simp [EndsBackslashes]

theorem endsBackslashes_cons {c : Char} (hc : c ≠ '\\') (rest : List Char) :
    EndsBackslashes (c :: rest) :=
  fun h => hc (Option.some.inj h)

/-- The pass for a marked character takes away the last backslash in front of it. -/
theorem replaceFrom_mark {c : Char} (hc : c ≠ '\\') {rest : List Char}
    (hrest : EndsBackslashes rest) :
    ∀ n, replaceFrom ['\\', c] [c] 0 (List.replicate n '\\' ++ rest) =
      List.replicate (if rest.head? = some c then n - 1 else n) '\\' ++
        replaceFrom ['\\', c] [c] 0 rest
  | 0 => by simp
  | 1 => by
      by_cases hhead : rest.head? = some c
      · obtain ⟨r, rfl⟩ := List.head?_eq_some_iff.mp hhead
        have hhere := replaceFrom_occurrence (q := [c]) (List.cons_ne_nil '\\' [c]) r
        simpa [replaceFrom_cons_of_ne hc] using hhere
      · have hno : ¬ ['\\', c] <+: '\\' :: rest := by
          rintro ⟨r, hr⟩
          obtain rfl : c :: r = rest := (List.cons.inj hr).2
          exact hhead rfl
        simp [replaceFrom_cons hno, hhead]
  | n + 2 => by
      have hno : ¬ ['\\', c] <+: '\\' :: '\\' :: (List.replicate n '\\' ++ rest) := by
        rintro ⟨r, hr⟩
        exact hc (List.cons.inj (List.cons.inj hr).2).1
      have hcopy : replaceFrom ['\\', c] [c] 0 (List.replicate (n + 2) '\\' ++ rest) =
          '\\' :: replaceFrom ['\\', c] [c] 0 (List.replicate (n + 1) '\\' ++ rest) :=
        replaceFrom_cons hno
      rw [hcopy, replaceFrom_mark hc hrest (n + 1)]
      split
      · rfl
      · rfl

/-- The pass for backslashes leaves half of a run, and an odd one stays. -/
theorem replaceFrom_backslashes {rest : List Char} (hrest : EndsBackslashes rest) :
    ∀ n, replaceFrom ['\\', '\\'] ['\\'] 0 (List.replicate n '\\' ++ rest) =
      List.replicate ((n + 1) / 2) '\\' ++ replaceFrom ['\\', '\\'] ['\\'] 0 rest
  | 0 => rfl
  | 1 => by
      have hno : ¬ ['\\', '\\'] <+: '\\' :: rest := by
        rintro ⟨r, hr⟩
        obtain rfl : '\\' :: r = rest := (List.cons.inj hr).2
        exact hrest rfl
      exact replaceFrom_cons hno
  | n + 2 => by
      have hpair : replaceFrom ['\\', '\\'] ['\\'] 0 (List.replicate (n + 2) '\\' ++ rest) =
          '\\' :: replaceFrom ['\\', '\\'] ['\\'] 0 (List.replicate n '\\' ++ rest) :=
        replaceFrom_occurrence (List.cons_ne_nil _ _) _
      have hhalf : (n + 2 + 1) / 2 = (n + 1) / 2 + 1 := by omega
      rw [hpair, replaceFrom_backslashes hrest n, hhalf, List.replicate_succ, List.cons_append]

/-- `n` backslashes stand for `k` of them in front of `c`: while the pass for `c` is
still to come they are doubled, and there may be one more; then half of them counts,
rounded up. -/
def Stands (left : List Char) (c : Char) (k n : Nat) : Prop :=
  if c ∈ left then n = 2 * k ∨ n = 2 * k + 1 else (n + 1) / 2 = k

theorem Stands.two_more {left : List Char} {c : Char} {k n : Nat} (h : Stands left c k n) :
    Stands left c (k + 1) (n + 2) := by
  unfold Stands at h ⊢
  split at h
  · rw [if_pos ‹_›]
    omega
  · rw [if_neg ‹_›]
    omega

theorem stands_zero (left : List Char) (c : Char) : Stands left c 0 0 := by
  unfold Stands
  split
  · exact Or.inl rfl
  · rfl

theorem Stands.passed {left : List Char} {c d : Char} {k n : Nat} (hc : c ∉ left)
    (h : Stands (c :: left) d k n) : Stands left d k (if d = c then n - 1 else n) := by
  unfold Stands at h ⊢
  by_cases hdc : d = c
  · subst hdc
    rw [if_pos List.mem_cons_self] at h
    rw [if_neg hc, if_pos rfl]
    omega
  · simpa [hdc] using h

/-- A text, and its escaped form before the passes for some marked characters and the
one for backslashes. -/
inductive Stage (left : List Char) : List Char → List Char → Prop
  | last {k n : Nat} : (n + 1) / 2 = k →
      Stage left (List.replicate k '\\') (List.replicate n '\\')
  | run {k n : Nat} {c : Char} {x y : List Char} : c ≠ '\\' → Stands left c k n →
      Stage left x y →
      Stage left (List.replicate k '\\' ++ c :: x) (List.replicate n '\\' ++ c :: y)

theorem stage_of_backslashed {x y : List Char} (h : Backslashed x y) :
    Stage ['/', '"', '\''] x y := by
  induction h with
  | nil => exact .last (k := 0) (n := 0) rfl
  | backslash _ ih =>
      cases ih with
      | last hk => exact .last (k := _ + 1) (n := _ + 2) (by omega)
      | run hc hn hxy => exact .run (k := _ + 1) (n := _ + 2) hc hn.two_more hxy
  | marked hc _ ih =>
      have hmem := hc
      simp only [isMarked, Bool.or_eq_true, beq_iff_eq, or_assoc] at hmem
      refine .run (k := 0) (n := 1) ?_ ?_ ih
      · rintro rfl
        exact absurd hc (by decide)
      · rw [Stands, if_pos (by simpa using hmem)]
        exact Or.inr rfl
  | plain hc _ ih => exact .run (k := 0) (n := 0) hc (stands_zero _ _) ih

theorem Stage.passed {left : List Char} {c : Char} (hslash : c ≠ '\\') (hc : c ∉ left)
    {x y : List Char} (h : Stage (c :: left) x y) :
    Stage left x (replaceFrom ['\\', c] [c] 0 y) := by
  induction h with
  | @last k n hk =>
      have hpass := replaceFrom_mark hslash endsBackslashes_nil n
      simp only [List.append_nil, List.head?_nil, reduceCtorEq, if_false, replaceFrom] at hpass
      rw [hpass]
      exact .last hk
  | @run k n d x y hd hn _ ih =>
      rw [replaceFrom_mark hslash (endsBackslashes_cons hd y), replaceFrom_cons_of_ne hd]
      refine .run hd ?_ ih
      simpa using hn.passed hc

theorem Stage.finished {x y : List Char} (h : Stage [] x y) :
    replaceFrom ['\\', '\\'] ['\\'] 0 y = x := by
  induction h with
  | @last k n hk =>
      have hpass := replaceFrom_backslashes endsBackslashes_nil n
      simp only [List.append_nil, replaceFrom] at hpass
      rw [hpass, hk]
  | @run k n d x y hd hn _ ih =>
      have hk : (n + 1) / 2 = k := by simpa [Stands] using hn
      rw [replaceFrom_backslashes (endsBackslashes_cons hd y), replaceFrom_cons_of_ne hd, ih, hk]

/-- The four passes over backslashes leave the text that they were put into. -/
theorem replaceAll_backslashes {x y : List Char} (h : Backslashed x y) :
    replaceAll "\\\\" "\\" (replaceAll "\\'" "'" (replaceAll "\\\"" "\""
      (replaceAll "\\/" "/" y))) = x := by
  have hslash := (stage_of_backslashed h).passed (by decide) (by decide)
  have hdouble := hslash.passed (by decide) (by decide)
  have hsingle := hdouble.passed (by decide) (by decide)
  exact hsingle.finished

/-! ## The whole text -/

theorem backslashed_self {x : List Char} (h : '\\' ∉ x) : Backslashed x x := by
  induction x with
  | nil => exact .nil
  | cons c x ih =>
      exact .plain (fun hc => h (hc ▸ List.mem_cons_self))
        (ih fun hx => h (List.mem_cons_of_mem c hx))

theorem backslash_notMem_entity {c : Char} (h : c ≠ '\\') : '\\' ∉ entity c := by
  unfold entity
  split
  · decide
  · split
    · decide
    · split
      · decide
      · simpa using h.symm

theorem backslash_notMem_withEntities {x : List Char} (h : '\\' ∉ x) : '\\' ∉ withEntities x := by
  intro hmem
  obtain ⟨c, hc, hcx⟩ := List.mem_flatMap.mp hmem
  exact backslash_notMem_entity (fun hslash => h (hslash ▸ hc)) hcx

theorem unescapeChars_withEntities {x y : List Char} (h : Backslashed x y) :
    unescapeChars (withEntities y) = x := by
  simp only [unescapeChars, escapes, List.foldl_cons, List.foldl_nil]
  rw [replaceAll_entities]
  exact replaceAll_backslashes h

/-- Undoing the escapes of an escaped text gives the text, however its slashes and
quotes were escaped.  In particular what was put into markup twice is taken out of it
once only. -/
theorem unescape_escaped :
    (∀ x y : String, Backslashed x.toList y.toList →
      unescape (String.ofList (withEntities y.toList)) = x) ∧
    (∀ x : String, '\\' ∉ x.toList →
      unescape (String.ofList (withEntities (withEntities x.toList))) =
        String.ofList (withEntities x.toList)) := by
  constructor
  · intro x y h
    rw [unescape, String.toList_ofList, unescapeChars_withEntities h, String.ofList_toList]
  · intro x h
    have hself := backslashed_self (backslash_notMem_withEntities h)
    rw [unescape, String.toList_ofList, unescapeChars_withEntities hself]

/-- A backslash before a quote that is escaped, a quote and a slash that are not, an
entity that is text, and a slash that is escaped. -/
theorem unescape_escaped_mixed :
    Backslashed "\\\"'/&gt;/".toList "\\\\\\\"'/&gt;\\/".toList ∧
      unescape "\\\\\\\"'/&amp;gt;\\/" = "\\\"'/&gt;/" ∧
      '\\' ∉ "a > b".toList ∧ unescape "a &amp;gt; b" = "a &gt; b" := by
  have hchosen : Backslashed "\\\"'/&gt;/".toList "\\\\\\\"'/&gt;\\/".toList := by
    refine .backslash (.marked (by decide) ?_)
    refine .plain (by decide) (.plain (by decide) (.plain (by decide) (.plain (by decide) ?_)))
    exact .plain (by decide) (.plain (by decide) (.marked (by decide) .nil))
  have hplain : '\\' ∉ "a > b".toList := by decide
  refine ⟨hchosen, ?_, hplain, ?_⟩
  · have hundone := unescape_escaped.1 _ _ hchosen
    rwa [show String.ofList (withEntities "\\\\\\\"'/&gt;\\/".toList) =
      "\\\\\\\"'/&amp;gt;\\/" from by decide] at hundone
  · have hundone := unescape_escaped.2 "a > b" hplain
    rwa [show String.ofList (withEntities "a > b".toList) = "a &gt; b" from by decide,
      show String.ofList (withEntities (withEntities "a > b".toList)) = "a &amp;gt; b"
        from by decide] at hundone

end Unmask.ShellCommand
