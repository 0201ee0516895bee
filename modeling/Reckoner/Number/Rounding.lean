/-
# Reckoner.Number.Rounding — the quotient of two natural numbers, rounded to the nearest one.

Every rounding of the library is this one rule, `roundDiv`: reading a numeral into binary64, each
operation on binary64 numbers, and writing a number with a fixed count of places. A half goes to the
even neighbour.

The bound below is all that the constructions of the number types need. It holds for a divisor of zero
too, where `roundDiv` has no mathematical meaning and nothing else is claimed of it.
-/

namespace Reckoner

/-- The core library's powers, for modules that use them also where those of a monoid are in scope. -/
abbrev corePow {α : Type} [NatPow α] : Pow α Nat := instPowNat

/-- **`roundDiv num den`** — the natural number nearest to `num / den`, the even one of two that are
equally near. -/
def roundDiv (num den : Nat) : Nat :=
  let quotient := num / den
  let remainder := num % den
  if 2 * remainder < den then quotient
  else if 2 * remainder = den then quotient + quotient % 2
  else quotient + 1

theorem roundDiv_le (num den : Nat) : roundDiv num den ≤ num / den + 1 := by
  unfold roundDiv
  dsimp only
  split
  · omega
  · split <;> omega

end Reckoner
