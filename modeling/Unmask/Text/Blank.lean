/-
# `Unmask.Text.Blank` — white space, in the wide and in the narrow sense

Two notions are in use.  `isBlank` is Unicode's `White_Space` property: it
decides what a blank script is, what may stand between a keyword and a name,
and what follows the word that starts a shell command.  `isPlainBlank` is the
five ASCII characters that may separate a name from its call parenthesis; the
vertical tab is not one of them.
-/

namespace Unmask

/-- White space as Unicode's `White_Space` property lists it. -/
def isBlank (c : Char) : Bool :=
  let n := c.toNat
  (9 ≤ n && n ≤ 13) || n == 0x20 || n == 0x85 || n == 0xA0 || n == 0x1680 ||
    (0x2000 ≤ n && n ≤ 0x200A) || n == 0x2028 || n == 0x2029 || n == 0x202F ||
    n == 0x205F || n == 0x3000

/-- Space, tab, line feed, form feed and carriage return. -/
def isPlainBlank (c : Char) : Bool :=
  c == ' ' || c == '\t' || c == '\n' || c == '\x0c' || c == '\r'

/-- A plain blank is a blank; the vertical tab shows that the converse fails. -/
theorem isBlank_of_isPlainBlank {c : Char} (h : isPlainBlank c = true) : isBlank c = true := by
  simp only [isPlainBlank, Bool.or_eq_true, beq_iff_eq] at h
  rcases h with (((rfl | rfl) | rfl) | rfl) | rfl <;> decide

end Unmask
