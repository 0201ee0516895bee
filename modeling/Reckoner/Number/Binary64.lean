/-
# Reckoner.Number.Binary64 — binary64 numbers as exact multiples of the smallest one.

A finite binary64 number is a whole multiple of the smallest positive one, `2 ^ (-1074)`. The type
`Binary64` stores that multiple as a natural number, its `units`, together with a sign and the proof
that the magnitude has a significand of 53 bits in the format's range. So the rational value of a
number is read off its fields, and every operation is exact integer arithmetic followed by ONE
rounding, `ofRatio`: to nearest, a half to the even significand, and to infinity at `2 ^ 1024`.

Zero has two signs, and there is a single NaN. Its payload is nothing that arithmetic, comparison or
printing looks at, so it is not kept, and `toBits` writes the quiet one.

## What is here

* `Representable`, and `roundSignificand`, which always returns a magnitude with a 53-bit significand;
* `ofRatio` and its special cases `ofUnits`, `ofNat`, `ofInt`, each with one rounding;
* `neg`, `add`, `sub`, `mul`, `div`, the comparison `equal`, and the tests `isZero` and `isFinite`;
* `ofBits` and `toBits`, the 64-bit interchange pattern.
-/
import Reckoner.Number.Rounding

namespace Reckoner

attribute [local instance] corePow

/-- How many of the smallest positive numbers make one: `2 ^ 1074`. -/
def unitsPerOne : Nat := 2 ^ (1074 : Nat)

/-- One past the largest finite magnitude, in units: 53 bits of significand above the widest spacing,
which makes `2 ^ 1024`. -/
def unitsBound : Nat := 2 ^ (53 : Nat) * 2 ^ (2045 : Nat)

theorem unitsBound_pos : 0 < unitsBound := by
  unfold unitsBound
  generalize 2045 = widest
  exact Nat.mul_pos (Nat.two_pow_pos _) (Nat.two_pow_pos _)

/-- **`Representable n`** — `n` units are the magnitude of a finite binary64 number: in range, with a
significand of at most 53 bits. -/
def Representable (n : Nat) : Prop :=
  n < unitsBound ∧ ∃ m k : Nat, m < 2 ^ (53 : Nat) ∧ n = m * 2 ^ k

/-- **`spacing n`** — the exponent of the gap between neighbouring 53-bit magnitudes at `n`. -/
def spacing (n : Nat) : Nat := n.log2 - 52

/-- **`roundSignificand num den`** — the quotient `num / den`, rounded to 53 significant bits and
never finer than to a whole number. -/
def roundSignificand (num den : Nat) : Nat :=
  let k := spacing (num / den)
  roundDiv num (den * 2 ^ k) * 2 ^ k

theorem div_pow_spacing_lt (n : Nat) : n / 2 ^ spacing n < 2 ^ (53 : Nat) := by
  rw [Nat.div_lt_iff_lt_mul (Nat.two_pow_pos _), ← Nat.pow_add]
  refine Nat.lt_of_lt_of_le Nat.lt_log2_self (Nat.pow_le_pow_right (by decide) ?_)
  unfold spacing
  omega

/-- Rounding up may reach `2 ^ 53` itself, which is `1` with a larger exponent. -/
theorem exists_roundSignificand_eq (num den : Nat) :
    ∃ m k : Nat, m < 2 ^ (53 : Nat) ∧ roundSignificand num den = m * 2 ^ k := by
  have hq := div_pow_spacing_lt (num / den)
  have hr := roundDiv_le num (den * 2 ^ spacing (num / den))
  rw [← Nat.div_div_eq_div_mul] at hr
  by_cases h : roundDiv num (den * 2 ^ spacing (num / den)) < 2 ^ (53 : Nat)
  · exact ⟨_, _, h, rfl⟩
  · have h53 : roundDiv num (den * 2 ^ spacing (num / den)) = 2 ^ (53 : Nat) := by omega
    refine ⟨1, 53 + spacing (num / den), by decide, ?_⟩
    simp only [roundSignificand, h53, Nat.one_mul, Nat.pow_add]

/-- **`Binary64`** — a binary64 number: NaN, a signed infinity, or a sign and a magnitude in units of
`2 ^ (-1074)`. -/
inductive Binary64
  | nan
  | infinite (negative : Bool)
  | finite (negative : Bool) (units : Nat) (representable : Representable units)
  deriving DecidableEq

namespace Binary64

/-- **`ofRatio negative num den`** — the binary64 number nearest to `num / den` units with the given
sign, infinite when that rounds to `2 ^ 1024` or more. -/
def ofRatio (negative : Bool) (num den : Nat) : Binary64 :=
  if h : roundSignificand num den < unitsBound then
    .finite negative (roundSignificand num den) ⟨h, exists_roundSignificand_eq num den⟩
  else
    .infinite negative

/-- **`ofUnits negative n`** — the binary64 number nearest to `n` units. -/
def ofUnits (negative : Bool) (n : Nat) : Binary64 := ofRatio negative n 1

/-- **`zero negative`** — zero with the given sign. -/
def zero (negative : Bool) : Binary64 :=
  .finite negative 0 ⟨unitsBound_pos, 0, 0, by decide, rfl⟩

/-- **`ofNat n`** — the binary64 number nearest to `n`. -/
def ofNat (n : Nat) : Binary64 := ofUnits false (n * unitsPerOne)

/-- **`ofInt i`** — the binary64 number nearest to `i`; the integer zero is the positive zero. -/
def ofInt (i : Int) : Binary64 := ofUnits (decide (i < 0)) (i.natAbs * unitsPerOne)

/-- **`isFinite x`** — neither NaN nor an infinity. -/
def isFinite : Binary64 → Bool
  | .finite .. => true
  | _ => false

/-- **`isZero x`** — zero of either sign. -/
def isZero : Binary64 → Bool
  | .finite _ n _ => n == 0
  | _ => false

/-- **`equal x y`** — equality of numbers: NaN equals nothing, and the two zeros are equal. -/
def equal : Binary64 → Binary64 → Bool
  | .infinite s, .infinite t => s == t
  | .finite s m _, .finite t n _ => m == n && (s == t || m == 0)
  | _, _ => false

/-- **`neg x`** — the number with the other sign. -/
def neg : Binary64 → Binary64
  | .nan => .nan
  | .infinite s => .infinite !s
  | .finite s n h => .finite (!s) n h

/-- **`signed s n`** — the integer `n`, or `-n` for a negative sign. -/
def signed (negative : Bool) (n : Nat) : Int := if negative then -n else n

/-- **`add x y`** — the rounded sum. Infinities of different signs have none. A sum of zero is negative
only when both operands are. -/
def add : Binary64 → Binary64 → Binary64
  | .nan, _ => .nan
  | _, .nan => .nan
  | .infinite s, .infinite t => if s = t then .infinite s else .nan
  | .infinite s, .finite .. => .infinite s
  | .finite .., .infinite t => .infinite t
  | .finite s m _, .finite t n _ =>
    let sum := signed s m + signed t n
    if sum = 0 then zero (s && t) else ofUnits (decide (sum < 0)) sum.natAbs

/-- **`sub x y`** — the rounded difference. -/
def sub (x y : Binary64) : Binary64 := add x y.neg

/-- **`mul x y`** — the rounded product. An infinity times zero has none. -/
def mul : Binary64 → Binary64 → Binary64
  | .nan, _ => .nan
  | _, .nan => .nan
  | .infinite s, .infinite t => .infinite (s ^^ t)
  | .infinite s, .finite t n _ => if n = 0 then .nan else .infinite (s ^^ t)
  | .finite s m _, .infinite t => if m = 0 then .nan else .infinite (s ^^ t)
  | .finite s m _, .finite t n _ => ofRatio (s ^^ t) (m * n) unitsPerOne

/-- **`div x y`** — the rounded quotient. Zero over zero and infinity over infinity have none; any
other number over zero is infinite. -/
def div : Binary64 → Binary64 → Binary64
  | .nan, _ => .nan
  | _, .nan => .nan
  | .infinite _, .infinite _ => .nan
  | .infinite s, .finite t _ _ => .infinite (s ^^ t)
  | .finite s _ _, .infinite t => zero (s ^^ t)
  | .finite s m _, .finite t n _ =>
    if n = 0 then (if m = 0 then .nan else .infinite (s ^^ t))
    else ofRatio (s ^^ t) (m * unitsPerOne) n

/-! ## The interchange pattern: one sign bit, eleven exponent bits, fifty-two fraction bits. -/

theorem representable_of_lt {n : Nat} (h : n < 2 ^ (53 : Nat)) : Representable n := by
  refine ⟨?_, n, 0, h, by simp⟩
  unfold unitsBound
  generalize 2045 = widest
  exact Nat.lt_of_lt_of_le h (Nat.le_mul_of_pos_right _ (Nat.two_pow_pos _))

theorem representable_mul_pow {m k : Nat} (hm : m < 2 ^ (53 : Nat)) (hk : k ≤ 2045) :
    Representable (m * 2 ^ k) := by
  refine ⟨?_, m, k, hm, rfl⟩
  unfold unitsBound
  generalize 2045 = widest at hk ⊢
  exact Nat.mul_lt_mul_of_lt_of_le hm (Nat.pow_le_pow_right (by decide) hk) (Nat.two_pow_pos _)

/-- **`ofBits bits`** — the number that a 64-bit pattern stands for. -/
def ofBits (bits : UInt64) : Binary64 :=
  let negative := decide (2 ^ (63 : Nat) ≤ bits.toNat)
  let exponent := bits.toNat / 2 ^ (52 : Nat) % 2 ^ (11 : Nat)
  let fraction := bits.toNat % 2 ^ (52 : Nat)
  have hf : fraction < 2 ^ (52 : Nat) := Nat.mod_lt _ (by decide)
  if exponent = 0 then
    .finite negative fraction (representable_of_lt (by omega))
  else if h : exponent = 2 ^ (11 : Nat) - 1 then
    if fraction = 0 then .infinite negative else .nan
  else
    have he : exponent < 2 ^ (11 : Nat) := Nat.mod_lt _ (by decide)
    .finite negative ((2 ^ (52 : Nat) + fraction) * 2 ^ (exponent - 1))
      (representable_mul_pow (by omega) (by omega))

/-- **`magnitudeBits n`** — exponent and fraction bits of a magnitude of `n` units. The implicit
leading bit of a significand of 53 bits is carried into the exponent. -/
def magnitudeBits (n : Nat) : Nat := spacing n * 2 ^ (52 : Nat) + n / 2 ^ spacing n

/-- **`toBits x`** — the 64-bit pattern of a number; NaN is the quiet one. -/
def toBits : Binary64 → UInt64
  | .nan => 0x7ff8000000000000
  | .infinite s => (if s then 0xfff0000000000000 else 0x7ff0000000000000)
  | .finite s n _ => .ofNat ((if s then 2 ^ (63 : Nat) else 0) + magnitudeBits n)

end Binary64

end Reckoner
