/-
# Reckoner.Text.Blank — the two kinds of white space.

Two sets of characters count as space, and they are used in different places. A `isBlank` character may
stand between the tokens of an expression. A `isWhite` character is one with Unicode's `White_Space`
property: it is what trimming removes and what the diagnosis of a faulty expression looks past. Every
blank is white; a no-break space is white and is no blank.
-/

namespace Reckoner

/-- **`isBlank c`** — space, tab, carriage return or line feed. -/
def isBlank (c : Char) : Bool := c == ' ' || c == '\t' || c == '\r' || c == '\n'

/-- **`isWhite c`** — the characters with Unicode's `White_Space` property. -/
def isWhite (c : Char) : Bool :=
  let n := c.toNat
  (0x09 ≤ n && n ≤ 0x0D) || n == 0x20 || n == 0x85 || n == 0xA0 || n == 0x1680 ||
    (0x2000 ≤ n && n ≤ 0x200A) || n == 0x2028 || n == 0x2029 || n == 0x202F || n == 0x205F ||
    n == 0x3000

theorem isWhite_of_isBlank {c : Char} (h : isBlank c = true) : isWhite c = true := by
  simp only [isBlank, Bool.or_eq_true, beq_iff_eq] at h
  rcases h with ((rfl | rfl) | rfl) | rfl <;> decide

/-- **`trimEnd cs`** — the text without white space at its end. -/
def trimEnd (cs : List Char) : List Char := (cs.reverse.dropWhile isWhite).reverse

/-- **`trim cs`** — the text without white space at either end. -/
def trim (cs : List Char) : List Char := trimEnd (cs.dropWhile isWhite)

end Reckoner
