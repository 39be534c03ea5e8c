/-
# `Unmask.Proofs.ReplacedTokens` — replacement as a map on tokens

What `Unmask.Proofs.Respelling` says of pieces is said here of tokens with their
spans.  Replacing tokens by names moves every later token, so the two lists of
tokens have different offsets; but they are as long as each other, the tokens in
equal places differ only as the mapping says (`Token.Replaced`), and the bytes
outside the tokens are the same, stretch by stretch (`surroundings`).  Together
these say that the new text is the old one with its tokens exchanged, and that
reading it again finds just those tokens: `tokens_replaceTokens`.

Both halves are inductions over the pieces.  The stretches are defined by the
spans of the tokens, and a gap may be several pieces, so they are first shown to
be what the pieces give when neighbouring gaps are put together
(`stretches_locate`).
-/
import Unmask.Proofs.Respelling
import Unmask.Proofs.TokenGrammar

namespace Unmask

/-! ## Tokens and what is outside of them -/

/-- `new` is what `old` becomes when tokens of one kind are replaced: a name, if the
token is of that kind and the mapping has it, and otherwise a token of the same kind
and text. -/
def Token.Replaced (kind : TokenKind) (m : Mapping) (old new : Token) : Prop :=
  match if old.kind = kind then m[old.text]? else none with
  | some name => new.kind = .name ∧ new.text = name
  | none => new.kind = old.kind ∧ new.text = old.text

/-- The bytes from a place to the first of some tokens, between them, and behind the
last. -/
def stretches (bytes : List UInt8) (start : Nat) : List Token → List (List UInt8)
  | [] => [bytes.drop start]
  | t :: ts => bytes.extract start t.start :: stretches bytes t.stop ts

/-- What stands in a text before the first token, between tokens, and behind the last
token. -/
def surroundings (source : String) : List (List UInt8) :=
  stretches (utf8 source) 0 (tokens source)

/-! ## Tokens of replaced pieces -/

theorem replaced_locate (kind : TokenKind) (m : Mapping) (ps : List Piece) :
    ∀ start start', List.Forall₂ (Token.Replaced kind m) (locate start ps)
      (locate start' (ps.map (Piece.respelled kind m))) := by
  induction ps with
  | nil => exact fun _ _ => .nil
  | cons p ps ih =>
      intro start start'
      cases p with
      | gap t => exact ih _ _
      | token k t =>
          by_cases hk : k = kind
          · cases hm : m[String.ofList t]? with
            | none =>
                simp only [List.map_cons, Piece.respelled, hk, if_true, hm]
                exact .cons (by simp [Token.Replaced, hm]) (ih _ _)
            | some new =>
                simp only [List.map_cons, Piece.respelled, hk, if_true, hm]
                exact .cons (by simp [Token.Replaced, hm]) (ih _ _)
          · simp only [List.map_cons, Piece.respelled, hk, if_false]
            exact .cons (by simp [Token.Replaced, hk]) (ih _ _)

/-! ## What is outside of the tokens -/

/-- The bytes of the gaps, neighbouring gaps put together: one stretch before every
token, and one behind the last. -/
def gapStretches : List Piece → List (List UInt8)
  | [] => [[]]
  | .gap t :: ps => (gapStretches ps).modifyHead (encode t ++ ·)
  | .token _ _ :: ps => [] :: gapStretches ps

theorem modifyHead_nil_append (xs : List (List UInt8)) :
    xs.modifyHead ([] ++ ·) = xs := by
  cases xs with
  | nil => rfl
  | cons x xs => rfl

/-- The stretches that the spans of tokens leave are those of the gaps; `before` lies
before the pieces, and what it has from `start` on goes to the first stretch. -/
theorem stretches_locate (ps : List Piece) : ∀ (before : List UInt8) (start : Nat),
    start ≤ before.length →
      stretches (before ++ encode (ps.flatMap Piece.text)) start (locate before.length ps) =
        (gapStretches ps).modifyHead (before.drop start ++ ·) := by
  induction ps with
  | nil =>
      intro before start _
      simp [locate, stretches, gapStretches]
  | cons p ps ih =>
      intro before start hstart
      -- Behind the piece the bytes before are `before` and those of the piece.
      have hbytes : before ++ encode ((p :: ps).flatMap Piece.text) =
          (before ++ encode p.text) ++ encode (ps.flatMap Piece.text) := by
        rw [List.flatMap_cons, encode_append, List.append_assoc]
      have hlen : before.length + byteLength p.text = (before ++ encode p.text).length := by
        rw [List.length_append, length_encode]
      rw [hbytes]
      cases p with
      | gap t =>
          have hle : start ≤ (before ++ encode t).length := by
            rw [List.length_append]
            omega
          have hlater := ih (before ++ encode t) start hle
          rw [List.drop_append_of_le_length hstart] at hlater
          simp only [Piece.text] at hlen ⊢
          rw [locate, hlen, gapStretches, List.modifyHead_modifyHead, hlater]
          simp only [Function.comp_def, List.append_assoc]
      | token k t =>
          have hlater := ih (before ++ encode t) _ (Nat.le_refl _)
          rw [List.drop_length] at hlater
          simp only [Piece.text] at hlen ⊢
          rw [locate, hlen, stretches, hlater, gapStretches, modifyHead_nil_append]
          have hfirst : (before ++ encode t ++ encode (ps.flatMap Piece.text)).extract start
              before.length = before.drop start := by
            rw [List.append_assoc, List.extract_eq_take_drop,
              List.drop_append_of_le_length hstart, List.take_append_of_le_length]
            · exact List.take_of_length_le (by rw [List.length_drop])
            · rw [List.length_drop]
          rw [hfirst, List.modifyHead_cons, List.append_nil]

theorem surroundings_eq (source : String) :
    surroundings source = gapStretches (pieces source.toList) := by
  have h := stretches_locate (pieces source.toList) [] 0 (Nat.le_refl 0)
  rw [List.drop_nil, modifyHead_nil_append, List.nil_append] at h
  rw [surroundings, utf8_eq_encode, tokens, ← h, pieces_eq_cut, flatMap_text_cut]
  rfl

theorem gapStretches_respelled (kind : TokenKind) (m : Mapping) (ps : List Piece) :
    gapStretches (ps.map (Piece.respelled kind m)) = gapStretches ps := by
  induction ps with
  | nil => rfl
  | cons p ps ih =>
      cases p with
      | gap t => exact congrArg (List.modifyHead (encode t ++ ·)) ih
      | token k t =>
          have htoken : ∃ k' t', (Piece.token k t).respelled kind m = .token k' t' := by
            simp only [Piece.respelled]
            split_ifs
            · cases m[String.ofList t]? with
              | none => exact ⟨k, t, rfl⟩
              | some new => exact ⟨.name, new.toList, rfl⟩
            · exact ⟨k, t, rfl⟩
          obtain ⟨k', t', htoken⟩ := htoken
          rw [List.map_cons, htoken, gapStretches, gapStretches, ih]

/-- Replacing the tokens of one kind by names makes a text whose tokens are the old
ones, each replaced or left as it was, in the same order, with the same text before,
between and behind them. -/
theorem tokens_replaceTokens (kind : TokenKind) {m : Mapping} (hm : m.Valid) (text : String) :
    List.Forall₂ (Token.Replaced kind m) (tokens text) (tokens (replaceTokens kind m text)) ∧
      surroundings (replaceTokens kind m text) = surroundings text := by
  have hpieces := pieces_replaceTokens hm kind text
  constructor
  · rw [tokens, tokens, hpieces]
    exact replaced_locate kind m _ 0 0
  · rw [surroundings_eq, surroundings_eq, hpieces, gapStretches_respelled]

instance (m : Mapping) : Decidable m.Valid :=
  decidable_of_iff (∀ e ∈ m.toList, Name.isValid e.2.toList = true) <| by
    constructor
    · intro h k v hk
      exact h (k, v) (Std.TreeMap.mem_toList_iff_getElem?_eq_some.mpr hk)
    · rintro h ⟨k, v⟩ he
      exact h k v (Std.TreeMap.mem_toList_iff_getElem?_eq_some.mp he)

/-- A number that takes its sign along and one that does not, behind characters of
several bytes, and a run that is no token in front of one that is. -/
theorem tokens_replaceTokens_signs :
    let m : Mapping := .ofList [("-0x1f", "total"), ("7", "_a")]
    m.Valid ∧
      List.Forall₂ (Token.Replaced .number m) (tokens "(é-0x1f)-0x1f 7e1 7")
        (tokens "(étotal)-0x1f 7e1 _a") ∧
      surroundings "(étotal)-0x1f 7e1 _a" = surroundings "(é-0x1f)-0x1f 7e1 7" := by
  intro m
  have hm : m.Valid := by decide +kernel
  have htext : replaceTokens .number m "(é-0x1f)-0x1f 7e1 7" = "(étotal)-0x1f 7e1 _a" := by
    decide +kernel
  have htokens := tokens_replaceTokens .number hm "(é-0x1f)-0x1f 7e1 7"
  rw [htext] at htokens
  exact ⟨hm, htokens⟩

end Unmask
