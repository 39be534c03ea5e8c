/-
# `Unmask.Proofs.CommandGrammar` — the commands of a text, told by their form

What a command is can be said without a search.  It is

    word blanks args - line q payload q

where `word` is `powershell` in any case, there is at least one blank, `args`
has no quote, bracket or semicolon in it, `line` stays on one line, `q` is a
quote and `payload` is free of it (`IsCommand`).  Nothing is said about which
dash is taken, which quote opens or which blank ends the head; a text can be
read in this form in many ways.

The search commits itself: heads from the left, dashes from the left, quotes
from the left, and on behind what it found.  Two things are proved of it.

* *What is found is a command.*  The finds are stretches of the unescaped text,
  each behind the one before, and each has the form (`spans_searchFrom`).
* *Nothing is missed altogether.*  If some stretch of the text has the form,
  then the head of that stretch leads to a command, whichever reading was meant
  (`everyDashEnd?_isSome`); and a search that reaches a head that leads to a
  command finds something (`searchFrom_eq_nil_iff`).

`inText_by_grammar` puts them together.
-/
import Unmask.Proofs.CommandSearch

namespace Unmask.ShellCommand

/-! ## The form of a command -/

def quotes : List Char := ['\x60', '"', '\'']

/-- The characters that arguments are free of. -/
def stops : List Char := ['\x60', '"', '\'', '(', ')', '\x7b', '\x7d', ';']

theorem isQuote_iff {c : Char} : isQuote c = true ↔ c ∈ quotes := by
  simp only [isQuote, quotes, Bool.or_eq_true, beq_iff_eq, List.mem_cons, List.not_mem_nil,
    or_false, or_assoc]

theorem endsArguments_iff {c : Char} : endsArguments c = true ↔ c ∈ stops := by
  simp only [endsArguments, isQuote, stops, Bool.or_eq_true, beq_iff_eq, List.mem_cons,
    List.not_mem_nil, or_false, or_assoc]

/-- From an opening quote on the line to the next quote of its kind. -/
structure IsQuotation (line : List Char) (quote : Char) (payload : List Char) : Prop where
  sameLine : '\n' ∉ line
  isQuote : quote ∈ quotes
  closes : quote ∉ payload

/-- The word, blanks, arguments, a dash, and a quotation that opens on the line of the dash. -/
inductive IsCommand : List Char → Prop
  | intro {word blanks args line payload : List Char} {quote : Char} :
      word.map foldCase = headWord → blanks ≠ [] → (∀ c ∈ blanks, isBlank c = true) →
      (∀ c ∈ args, c ∉ stops) → IsQuotation line quote payload →
      IsCommand (word ++ (blanks ++ (args ++ '-' :: (line ++ quote :: (payload ++ [quote])))))

/-! ## Quotations -/

theorem quotationEnd?_eq_some {cs : List Char} {n stop : Nat} (h : quotationEnd? n cs = some stop) :
    ∃ line quote payload rest, cs = line ++ quote :: (payload ++ quote :: rest) ∧
      IsQuotation line quote payload ∧
      stop = n + (line ++ quote :: (payload ++ [quote])).length := by
  induction cs generalizing n with
  | nil => cases h
  | cons c cs ih =>
      rw [quotationEnd?] at h
      by_cases hnl : (c == '\n') = true
      · rw [if_pos hnl] at h
        cases h
      · rw [if_neg hnl] at h
        have hline : '\n' ≠ c := fun heq => hnl (by rw [← heq]; rfl)
        cases hfound : if isQuote c then cs.findIdx? (· == c) else none with
        | some i =>
            rw [hfound] at h
            obtain ⟨hquote, hidx⟩ := Option.ite_none_right_eq_some.mp hfound
            obtain ⟨hlt, hc, hbefore⟩ := List.findIdx?_eq_some_iff_getElem.mp hidx
            have hsplit : cs = cs.take i ++ c :: cs.drop (i + 1) := by
              rw [← eq_of_beq hc, ← List.drop_eq_getElem_cons hlt, List.take_append_drop]
            refine ⟨[], c, cs.take i, cs.drop (i + 1), ?_, ⟨List.not_mem_nil,
              isQuote_iff.mp hquote, ?_⟩, ?_⟩
            · rw [List.nil_append, ← hsplit]
            · intro hmem
              obtain ⟨j, hj, hget⟩ := List.mem_iff_getElem.mp hmem
              rw [List.length_take] at hj
              rw [List.getElem_take] at hget
              exact hbefore j (by omega) (beq_of_eq hget)
            · have hlen : (cs.take i).length = i := List.length_take_of_le hlt.le
              simp only [List.nil_append, List.length_cons, List.length_append, hlen,
                List.length_nil]
              exact (Option.some.inj h).symm
        | none =>
            rw [hfound] at h
            obtain ⟨line, quote, payload, rest, rfl, hform, rfl⟩ := ih h
            refine ⟨c :: line, quote, payload, rest, rfl, ⟨?_, hform.isQuote, hform.closes⟩, ?_⟩
            · exact List.not_mem_cons_of_ne_of_not_mem hline hform.sameLine
            · simp only [List.cons_append, List.length_cons]
              omega

/-- A quotation at the start of a text is found, or one in front of it. -/
theorem quotationEnd?_isSome {line payload : List Char} {quote : Char}
    (hform : IsQuotation line quote payload) (rest : List Char) (n : Nat) :
    (quotationEnd? n (line ++ quote :: (payload ++ quote :: rest))).isSome = true := by
  induction line generalizing n with
  | nil =>
      have hquote : isQuote quote = true := isQuote_iff.mpr hform.isQuote
      have hnl : (quote == '\n') = false := by
        rw [← Bool.not_eq_true]
        intro heq
        rw [eq_of_beq heq] at hquote
        exact absurd hquote (by decide)
      have hclose : ((payload ++ quote :: rest).findIdx? (· == quote)).isSome = true := by
        rw [List.findIdx?_isSome]
        simp
      obtain ⟨i, hi⟩ := Option.isSome_iff_exists.mp hclose
      simp [quotationEnd?, hnl, hquote, hi]
  | cons c line ih =>
      have hc : '\n' ≠ c := List.ne_of_not_mem_cons hform.sameLine
      have hline : '\n' ∉ line := List.not_mem_of_not_mem_cons hform.sameLine
      have hnl : (c == '\n') = false := beq_false_of_ne hc.symm
      rw [List.cons_append, quotationEnd?, if_neg (by simp [hnl])]
      split
      · rfl
      · exact ih ⟨hline, hform.isQuote, hform.closes⟩ (n + 1)

/-! ## Arguments -/

/-- What ends a command: arguments, a dash and a quotation stand at the start of the text. -/
theorem everyDashEnd?_eq_some {cs : List Char} {n stop : Nat} (h : everyDashEnd? n cs = some stop) :
    ∃ args line quote payload rest,
      cs = args ++ '-' :: (line ++ quote :: (payload ++ quote :: rest)) ∧
      (∀ c ∈ args, c ∉ stops) ∧ IsQuotation line quote payload ∧
      stop = n + (args ++ '-' :: (line ++ quote :: (payload ++ [quote]))).length := by
  induction cs generalizing n with
  | nil => cases h
  | cons c cs ih =>
      rw [everyDashEnd?] at h
      by_cases hend : endsArguments c = true
      · rw [if_pos hend] at h
        cases h
      · rw [if_neg hend] at h
        have hc : c ∉ stops := fun hmem => hend (endsArguments_iff.mpr hmem)
        cases hfound : if c == '-' then quotationEnd? (n + 1) cs else none with
        | some stop' =>
            rw [hfound] at h
            obtain rfl := Option.some.inj h
            obtain ⟨hdash, hquote⟩ := Option.ite_none_right_eq_some.mp hfound
            obtain rfl := eq_of_beq hdash
            obtain ⟨line, quote, payload, rest, rfl, hform, rfl⟩ := quotationEnd?_eq_some hquote
            refine ⟨[], line, quote, payload, rest, rfl, fun d hd => absurd hd List.not_mem_nil,
              hform, ?_⟩
            simp only [List.nil_append, List.length_cons]
            omega
        | none =>
            rw [hfound] at h
            obtain ⟨args, line, quote, payload, rest, rfl, hargs, hform, rfl⟩ := ih h
            refine ⟨c :: args, line, quote, payload, rest, rfl, ?_, hform, ?_⟩
            · intro d hd
              rcases List.mem_cons.mp hd with rfl | hd
              · exact hc
              · exact hargs d hd
            · simp only [List.cons_append, List.length_cons]
              omega

theorem everyDashEnd?_isSome {args line payload : List Char} {quote : Char}
    (hargs : ∀ c ∈ args, c ∉ stops) (hform : IsQuotation line quote payload) (rest : List Char)
    (n : Nat) :
    (everyDashEnd? n
      (args ++ '-' :: (line ++ quote :: (payload ++ quote :: rest)))).isSome = true := by
  induction args generalizing n with
  | nil =>
      obtain ⟨stop, hstop⟩ := Option.isSome_iff_exists.mp (quotationEnd?_isSome hform rest (n + 1))
      have hdash : endsArguments '-' = false := by decide
      simp [everyDashEnd?, hdash, hstop]
  | cons c args ih =>
      have hend : ¬ endsArguments c = true := fun hend =>
        hargs c List.mem_cons_self (endsArguments_iff.mp hend)
      rw [List.cons_append, everyDashEnd?, if_neg hend]
      split
      · rfl
      · exact ih (fun d hd => hargs d (List.mem_cons_of_mem c hd)) (n + 1)

/-! ## Heads -/

theorem Spells.map_foldCase {word cs : List Char} (h : Spells word cs)
    (hword : ∀ l ∈ word, l ∈ headWord) : cs.map foldCase = word := by
  induction h with
  | nil => rfl
  | cons hletter _ ih =>
      rw [isLetter_eq (hword _ List.mem_cons_self)] at hletter
      rw [List.map_cons, eq_of_beq hletter, ih fun l hl => hword l (List.mem_cons_of_mem _ hl)]

theorem headLength?_append {word blanks : List Char} (hword : word.map foldCase = headWord)
    (hne : blanks ≠ []) (hblank : ∀ c ∈ blanks, isBlank c = true) (rest : List Char) :
    ∃ n, headLength? (word ++ (blanks ++ rest)) = some n ∧
      (word ++ (blanks ++ rest)).drop n = rest.dropWhile isBlank := by
  have hlen : word.length = headWord.length := by rw [← hword, List.length_map]
  have hstarts : startsWithWord headWord (word ++ (blanks ++ rest)) = true := by
    rw [startsWithWord_eq headWord _ fun _ => id, ← hlen, List.take_left, hword]
    exact beq_self_eq_true headWord
  have htake : (blanks ++ rest).takeWhile isBlank = blanks ++ rest.takeWhile isBlank :=
    List.takeWhile_append_of_pos hblank
  have hdrop : (blanks ++ rest).dropWhile isBlank = rest.dropWhile isBlank :=
    List.dropWhile_append_of_pos hblank
  have hsome : (blanks ++ rest.takeWhile isBlank).isEmpty = false := by simp [hne]
  refine ⟨headWord.length + (blanks ++ rest.takeWhile isBlank).length, ?_, ?_⟩
  · simp only [headLength?, hstarts, if_true, ← hlen, List.drop_left, htake, hsome,
      Bool.false_eq_true, if_false]
  · rw [← List.drop_drop, ← hlen, List.drop_left, ← htake, ← hdrop]
    nth_rewrite 2 [← List.takeWhile_append_dropWhile (p := isBlank) (l := blanks ++ rest)]
    rw [List.drop_left]

/-- Blanks at the start of the arguments belong to the head as well. -/
theorem dropWhile_args {args rest : List Char} :
    (args ++ '-' :: rest).dropWhile isBlank = args.dropWhile isBlank ++ '-' :: rest := by
  have hdash : isBlank '-' = false := by decide
  induction args with
  | nil => simp [hdash]
  | cons c args ih =>
      by_cases hc : isBlank c = true
      · simpa [hc] using ih
      · simp [hc]

theorem isCommand_of_head {text : List Char} {i n close : Nat}
    (hhead : headLength? (text.drop i) = some n) (hclose : commandEnd? text (i + n) = some close) :
    IsCommand (text.extract i (close + 1)) := by
  obtain ⟨word, blanks, rest, htext, hspells, hne, hblank, rfl⟩ := headLength?_eq_some hhead
  have hrest : text.drop (i + (word ++ blanks).length) = rest := by
    rw [← List.drop_drop, htext, List.drop_left]
  have hend : everyDashEnd? (i + (word ++ blanks).length) rest = some (close + 1) := by
    rw [everyDashEnd?_eq text rest _ hrest, hclose]
    rfl
  obtain ⟨args, line, quote, payload, behind, rfl, hargs, hform, hstop⟩ :=
    everyDashEnd?_eq_some hend
  -- The stretch up to `close` is the head and what the end was counted over.
  have hextract : text.extract i (close + 1) =
      word ++ (blanks ++ (args ++ '-' :: (line ++ quote :: (payload ++ [quote])))) := by
    have hwidth : close + 1 - i =
        (word ++ (blanks ++ (args ++ '-' :: (line ++ quote :: (payload ++ [quote]))))).length := by
      rw [hstop, ← List.append_assoc word]
      simp only [List.length_append]
      omega
    have hsplit : text.drop i =
        word ++ (blanks ++ (args ++ '-' :: (line ++ quote :: (payload ++ [quote])))) ++ behind := by
      rw [htext]
      simp
    rw [List.extract, hwidth, hsplit, List.take_left]
  rw [hextract]
  exact .intro (hspells.map_foldCase fun _ => id) hne hblank hargs hform

theorem head_of_isCommand {cmd : List Char} (h : IsCommand cmd) (rest : List Char) :
    ∃ n, headLength? (cmd ++ rest) = some n ∧
      (everyDashEnd? 0 ((cmd ++ rest).drop n)).isSome = true := by
  obtain @⟨word, blanks, args, line, payload, quote, hword, hne, hblank, hargs, hform⟩ := h
  obtain ⟨n, hhead, hdrop⟩ := headLength?_append hword hne hblank
    (args ++ '-' :: (line ++ quote :: (payload ++ quote :: rest)))
  have hassoc : word ++ (blanks ++ (args ++ '-' :: (line ++ quote :: (payload ++ [quote])))) ++
      rest = word ++ (blanks ++ (args ++ '-' :: (line ++ quote :: (payload ++ quote :: rest)))) := by
    simp
  refine ⟨n, by rw [hassoc, hhead], ?_⟩
  rw [hassoc, hdrop, dropWhile_args]
  exact everyDashEnd?_isSome
    (fun c hc => hargs c ((List.dropWhile_sublist isBlank).mem hc)) hform rest 0

/-! ## The search -/

theorem headEnd?_eq_some_iff {text : List Char} {i stop : Nat} :
    headEnd? text i = some stop ↔
      ∃ n, headLength? (text.drop i) = some n ∧ stop = i + n := by
  rw [headEnd?_eq, Option.map_eq_some_iff]
  constructor
  · rintro ⟨n, hn, rfl⟩
    exact ⟨n, hn, rfl⟩
  · rintro ⟨n, hn, rfl⟩
    exact ⟨n, hn, rfl⟩

theorem nextHead?_eq_some {text : List Char} {i start stop : Nat}
    (h : nextHead? text i = some (start, stop)) :
    headEnd? text start = some stop ∧ ∀ k, i ≤ k → k < start → headEnd? text k = none := by
  obtain ⟨front, k, back, hrange, hhere, hfront⟩ := List.findSome?_eq_some_iff.mp h
  obtain ⟨stop', hstop, heq⟩ := Option.map_eq_some_iff.mp hhere
  obtain ⟨rfl, rfl⟩ := Prod.mk.inj heq
  refine ⟨hstop, fun j hij hjk => ?_⟩
  have hlt : k < text.length := (nextHead?_bounds h).2.1
  have hmem : j ∈ front ++ k :: back := by
    rw [← hrange]
    exact List.mem_range'_1.mpr ⟨hij, by omega⟩
  have hsorted : (front ++ k :: back).Pairwise (· < ·) := by
    rw [← hrange]
    exact List.pairwise_lt_range'
  have hfrontmem : j ∈ front := by
    rcases List.mem_append.mp hmem with hj | hj
    · exact hj
    · rcases List.mem_cons.mp hj with rfl | hj
      · exact absurd hjk (Nat.lt_irrefl j)
      · have hkj := (List.pairwise_cons.mp (List.pairwise_append.mp hsorted).2.1).1 j hj
        omega
  exact Option.map_eq_none_iff.mp (hfront j hfrontmem)

theorem nextHead?_eq_none {text : List Char} {i : Nat} (h : nextHead? text i = none) {k : Nat}
    (hik : i ≤ k) : headEnd? text k = none := by
  by_cases hk : k < text.length
  · have hnone := List.findSome?_eq_none_iff.mp h k (List.mem_range'_1.mpr ⟨hik, by omega⟩)
    exact Option.map_eq_none_iff.mp hnone
  · cases hhead : headEnd? text k with
    | none => rfl
    | some stop =>
        obtain ⟨n, hn, -⟩ := headEnd?_eq_some_iff.mp hhead
        exact absurd (lt_length_of_head hn) hk

/-- The search finds nothing exactly if no head leads to a command. -/
theorem searchFrom_eq_nil_iff (text : List Char) (i : Nat) :
    searchFrom text i = [] ↔
      ∀ k stop, i ≤ k → headEnd? text k = some stop → commandEnd? text stop = none := by
  induction i using searchFrom.induct text with
  | case1 i hnone =>
      rw [searchFrom_eq, hnone]
      refine ⟨fun _ k stop hik hhead => ?_, fun _ => rfl⟩
      rw [nextHead?_eq_none hnone hik] at hhead
      exact nomatch hhead
  | case2 i start stop hnext close hclose ih =>
      rw [searchFrom_eq, hnext]
      simp only [hclose]
      refine ⟨fun h => (nomatch h), fun h => ?_⟩
      have hdead := h start stop (nextHead?_bounds hnext).1 (nextHead?_eq_some hnext).1
      rw [hclose] at hdead
      exact nomatch hdead
  | case3 i start stop hnext hdead ih =>
      rw [searchFrom_eq, hnext]
      simp only [hdead]
      obtain ⟨hhere, hfront⟩ := nextHead?_eq_some hnext
      have hle := (nextHead?_bounds hnext).1
      rw [ih]
      constructor
      · intro h k stop' hik hhead
        rcases Nat.lt_trichotomy k start with hlt | rfl | hgt
        · rw [hfront k hik hlt] at hhead
          exact nomatch hhead
        · rw [hhere] at hhead
          obtain rfl := Option.some.inj hhead
          exact hdead
        · exact h k stop' hgt hhead
      · intro h k stop' hk hhead
        exact h k stop' (by omega) hhead

/-- Stretches of a text from `i` on, each behind the one before. -/
structure Ordered (text : List Char) (i : Nat) (spans : List (Nat × Nat)) : Prop where
  pairwise : spans.Pairwise fun a b => a.1 < b.1 ∧ a.2 ≤ b.1
  bounds : ∀ s ∈ spans, i ≤ s.1 ∧ s.1 < s.2 ∧ s.2 ≤ text.length

theorem Ordered.mono {text : List Char} {i j : Nat} {spans : List (Nat × Nat)}
    (h : Ordered text j spans) (hij : i ≤ j) : Ordered text i spans :=
  ⟨h.pairwise, fun s hs => ⟨hij.trans (h.bounds s hs).1, (h.bounds s hs).2⟩⟩

theorem Ordered.cons {text : List Char} {i start stop : Nat} {spans : List (Nat × Nat)}
    (h : Ordered text stop spans) (hi : i ≤ start) (hlt : start < stop)
    (hle : stop ≤ text.length) : Ordered text i ((start, stop) :: spans) where
  pairwise := List.pairwise_cons.mpr
    ⟨fun s hs => ⟨hlt.trans_le (h.bounds s hs).1, (h.bounds s hs).1⟩, h.pairwise⟩
  bounds := by
    intro s hs
    rcases List.mem_cons.mp hs with rfl | hs
    · exact ⟨hi, hlt, hle⟩
    · obtain ⟨hfirst, hrest⟩ := h.bounds s hs
      exact ⟨by omega, hrest⟩

/-- The finds are commands, and they stand in the text one behind another. -/
theorem spans_searchFrom (text : List Char) (i : Nat) :
    ∃ spans, searchFrom text i = spans.map (fun s => text.extract s.1 s.2) ∧
      Ordered text i spans ∧ ∀ s ∈ spans, IsCommand (text.extract s.1 s.2) := by
  induction i using searchFrom.induct text with
  | case1 i hnone =>
      rw [searchFrom_eq, hnone]
      exact ⟨[], rfl, ⟨.nil, fun s hs => (nomatch hs)⟩, fun s hs => (nomatch hs)⟩
  | case2 i start stop hnext close hclose ih =>
      obtain ⟨spans, hspans, hordered, hcommand⟩ := ih
      obtain ⟨n, hhead, rfl⟩ := headEnd?_eq_some_iff.mp (nextHead?_eq_some hnext).1
      obtain ⟨hi, -, hstop⟩ := nextHead?_bounds hnext
      obtain ⟨hle, hlt⟩ := commandEnd?_bounds hclose
      refine ⟨(start, close + 1) :: spans, ?_, hordered.cons hi (by omega) hlt, ?_⟩
      · rw [searchFrom_eq, hnext]
        simp only [hclose, hspans, List.map_cons]
      · intro s hs
        rcases List.mem_cons.mp hs with rfl | hs
        · exact isCommand_of_head hhead hclose
        · exact hcommand s hs
  | case3 i start stop hnext hdead ih =>
      obtain ⟨spans, hspans, hordered, hcommand⟩ := ih
      refine ⟨spans, ?_, hordered.mono ?_, hcommand⟩
      · rw [searchFrom_eq, hnext]
        simp only [hdead, hspans]
      · exact (nextHead?_bounds hnext).1.trans (Nat.le_succ start)

theorem searchFrom_zero_eq_nil_iff (text : List Char) :
    searchFrom text 0 = [] ↔ ¬ ∃ cmd, cmd <:+: text ∧ IsCommand cmd := by
  rw [searchFrom_eq_nil_iff]
  constructor
  · rintro h ⟨cmd, ⟨front, back, rfl⟩, hcmd⟩
    obtain ⟨n, hhead, hsome⟩ := head_of_isCommand hcmd back
    have hdrop : (front ++ cmd ++ back).drop front.length = cmd ++ back := by
      rw [List.append_assoc, List.drop_left]
    rw [← hdrop] at hhead
    have hdead := h front.length _ (Nat.zero_le _) (headEnd?_eq_some_iff.mpr ⟨n, hhead, rfl⟩)
    rw [commandEnd?_eq_none_iff, ← List.drop_drop, hdrop] at hdead
    rw [hdead] at hsome
    exact Bool.noConfusion hsome
  · intro h k stop _ hhead
    obtain ⟨n, hn, rfl⟩ := headEnd?_eq_some_iff.mp hhead
    rw [Option.eq_none_iff_forall_ne_some]
    intro close hclose
    refine h ⟨text.extract k (close + 1), ?_, isCommand_of_head hn hclose⟩
    exact (List.take_prefix _ _).isInfix.trans (List.drop_suffix _ _).isInfix

/-- The commands that are found in a text stand in it unescaped, one behind another, and have
the form of a command; and none is found only if no stretch of it has that form. -/
theorem inText_by_grammar (text : String) :
    (∃ spans : List (Nat × Nat),
      inText text = spans.map (fun s => String.ofList ((unescape text).toList.extract s.1 s.2)) ∧
      spans.Pairwise (fun a b => a.1 < b.1 ∧ a.2 ≤ b.1) ∧
      ∀ s ∈ spans, s.1 < s.2 ∧ s.2 ≤ (unescape text).toList.length ∧
        IsCommand ((unescape text).toList.extract s.1 s.2)) ∧
    (inText text = [] ↔ ¬ ∃ cmd, cmd <:+: (unescape text).toList ∧ IsCommand cmd) := by
  rw [inText_eq_search]
  constructor
  · obtain ⟨spans, hspans, hordered, hcommand⟩ := spans_searchFrom (unescape text).toList 0
    refine ⟨spans, ?_, hordered.pairwise, fun s hs => ⟨(hordered.bounds s hs).2.1,
      (hordered.bounds s hs).2.2, hcommand s hs⟩⟩
    rw [hspans, List.map_map]
    rfl
  · rw [List.map_eq_nil_iff]
    exact searchFrom_zero_eq_nil_iff _

end Unmask.ShellCommand
