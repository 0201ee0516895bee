/-
# Reckoner.Number.Decimal — unsigned decimal numerals, and the binary64 number nearest to one.

A numeral such as `12.50` is kept exactly, as its digits `1250` and the count `2` of those that stand
after the point; it is rounded once, when a binary64 number is made of it. There is no exponent in an
expression. Configuration texts have one, and `Binary64.ofScientific` reads it: exponents far outside
the format are answered without expanding a power of ten, because nothing bounds how large they are
written.
-/
import Reckoner.Number.Binary64

namespace Reckoner

attribute [local instance] corePow

/-- **`Decimal`** — the numeral `digits / 10 ^ scale`. -/
structure Decimal where
  /-- All digits read as one natural number. -/
  digits : Nat
  /-- How many of them stand after the point. -/
  scale : Nat
  deriving DecidableEq, Repr

/-- **`digitValue c`** — the value of an ASCII digit. -/
def digitValue (c : Char) : Nat := c.toNat - '0'.toNat

/-- **`digitsValue cs`** — the natural number that a run of ASCII digits is written for. -/
def digitsValue (cs : List Char) : Nat := Nat.ofDigitChars 10 cs 0

/-- **`Binary64.ofDecimal d`** — the binary64 number nearest to a numeral, infinite when it is too
large. -/
def Binary64.ofDecimal (d : Decimal) : Binary64 :=
  .ofRatio false (d.digits * unitsPerOne) (10 ^ d.scale)

/-- **`Binary64.ofScientific negative digits exponent`** — the binary64 number nearest to
`digits * 10 ^ exponent`. A nonzero numeral of `10 ^ 311` or more is infinite, and one below
`2 * 10 ^ (-331)` is zero; both are known from the exponent and the length of the digits alone. -/
def Binary64.ofScientific (negative : Bool) (digits : Nat) (exponent : Int) : Binary64 :=
  if digits = 0 then .zero negative
  else if 310 < exponent then .infinite negative
  else if exponent + digits.log2 < -330 then .zero negative
  else if exponent < 0 then .ofRatio negative (digits * unitsPerOne) (10 ^ exponent.natAbs)
  else .ofRatio negative (digits * 10 ^ exponent.natAbs * unitsPerOne) 1

end Reckoner
