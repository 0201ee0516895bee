/-
# Reckoner.Number.Fixed — a binary64 number written with a bounded count of fractional digits.

The exact value is rounded to the given places, a half to the even last digit, and zeros at the end of
the fraction are dropped together with a point that nothing follows. There is no grouping and no
exponent, the integer part is never trimmed, and whatever rounds to zero is written `0`.

A request for more than `maxPlaces` places is refused, for every number and also where the places
would not matter. That is the only failure: `Binary64.format` is `Binary64.fixed` behind this check.
-/
import Reckoner.Number.Binary64

namespace Reckoner

attribute [local instance] corePow

/-- Why a number could not be written. -/
inductive FormatFault
  | placesOutOfRange
  deriving DecidableEq, Repr

/-- The wording of a fault. -/
def FormatFault.message : FormatFault → String
  | .placesOutOfRange => "Formatting argument out of range"

/-- The largest count of fractional places that a number can be written with. -/
def maxPlaces : Nat := 65535

/-- No binary64 number has more fractional digits than its smallest unit: `2 ^ (-1074)` ends at the
digit of `10 ^ (-1074)`. -/
def exactPlaces : Nat := 1074

/-- **`fractionDigits places n`** — the last `places` decimal digits of `n`, with zeros in front,
less the zeros at the end. -/
def fractionDigits (places n : Nat) : List Char :=
  let digits := if places = 0 then [] else Nat.toDigits 10 n
  let padded := List.replicate (places - digits.length) '0' ++ digits
  (padded.reverse.dropWhile (· == '0')).reverse

/-- **`decimalText negative places n`** — the canonical numeral of `n / 10 ^ places`: a sign only in
front of a nonzero number, and a point only in front of a nonzero fraction. -/
def decimalText (negative : Bool) (places n : Nat) : List Char :=
  let sign := if negative && n != 0 then ['-'] else []
  let whole := Nat.toDigits 10 (n / 10 ^ places)
  let fraction := fractionDigits places (n % 10 ^ places)
  sign ++ whole ++ if fraction.isEmpty then [] else '.' :: fraction

namespace Binary64

/-- **`fixed x places`** — the number `x` rounded to `places` fractional digits and written in full.
Places beyond `exactPlaces` would only add zeros. -/
def fixed (x : Binary64) (places : Nat) : String :=
  match x with
  | .nan => "NaN"
  | .infinite s => if s then "-inf" else "inf"
  | .finite s n _ =>
    let p := min places exactPlaces
    .ofList (decimalText s p (roundDiv (n * 10 ^ p) unitsPerOne))

/-- **`format x places`** — `fixed x places`, refused when there are more than `maxPlaces` places. -/
def format (x : Binary64) (places : Nat) : Except FormatFault String :=
  if places ≤ maxPlaces then .ok (x.fixed places) else .error .placesOutOfRange

end Binary64

end Reckoner
