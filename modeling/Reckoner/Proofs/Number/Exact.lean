/-
# Reckoner.Proofs.Number.Exact — numbers that rounding leaves as they are, and their numerals.

A whole number of units with a significand of 53 bits is its own rounding. As ten is a multiple of two,
each such number has a numeral with no more than `exactPlaces` places, and so has the least magnitude
that is too large to be finite. So every binary64 number without a sign is written by some numeral
(`exists_literal`), and only those are (`isUnsigned_ofDecimal`).
-/
import Reckoner.Proofs.Number.Fixed

namespace Reckoner

attribute [local instance] corePow

/-- A magnitude with a significand of 53 bits is its own rounding. -/
theorem roundSignificand_one {m : Nat} (hm : m < 2 ^ (53 : Nat)) (k : Nat) :
    roundSignificand (m * 2 ^ k) 1 = m * 2 ^ k := by
  have hnear := gap_roundSignificand_le Nat.one_pos (m * 2 ^ k) hm k
  unfold gap at hnear
  omega

namespace Binary64

/-- **`x.isUnsigned`** — a number, not NaN, whose sign bit is clear. -/
def isUnsigned : Binary64 → Bool
  | .nan => false
  | .infinite negative => !negative
  | .finite negative _ _ => !negative

theorem isUnsigned_ofDecimal (d : Decimal) : (ofDecimal d).isUnsigned = true := by
  rw [ofDecimal, ofRatio]
  split <;> rfl

theorem equal_self_of_isUnsigned {x : Binary64} (h : x.isUnsigned = true) : x.equal x = true := by
  cases x with
  | nan => cases h
  | infinite s => exact beq_self_eq_true s
  | finite s n _ => simp [equal]

theorem ofUnits_of_representable {n : Nat} (h : Representable n) (negative : Bool) :
    ofUnits negative n = .finite negative n h := by
  obtain ⟨hlt, m, k, hm, rfl⟩ := h
  have hround := roundSignificand_one hm k
  rw [ofUnits, ofRatio, dif_pos (by rwa [hround])]
  simp only [hround]

/-- The least magnitude that is too large to be finite. -/
theorem ofUnits_unitsBound (negative : Bool) : ofUnits negative unitsBound = .infinite negative := by
  have hpow : unitsBound = 1 * 2 ^ (53 + 2045 : Nat) := by
    unfold unitsBound
    generalize 2045 = widest
    rw [Nat.one_mul, Nat.pow_add]
  have hround : roundSignificand unitsBound 1 = unitsBound := by
    rw [hpow]
    exact roundSignificand_one (by decide) _
  rw [ofUnits, ofRatio, dif_neg (by rw [hround]; exact Nat.lt_irrefl _)]

/-! ## Numerals -/

theorem pow_five_mul_unitsPerOne : 5 ^ exactPlaces * unitsPerOne = 10 ^ exactPlaces := by
  unfold exactPlaces unitsPerOne
  generalize 1074 = places
  rw [← Nat.mul_pow]

/-- Every whole number of units has a numeral. -/
theorem exists_literal_ofUnits (n : Nat) :
    ∃ cs d, Grammar.Literal cs d ∧ ofDecimal d = ofUnits false n := by
  obtain ⟨d, k, hliteral, hscale, hdigits⟩ :=
    exists_literal_decimalText exactPlaces (n * 5 ^ exactPlaces)
  have hnum : d.digits * unitsPerOne * 10 ^ k = n * 10 ^ exactPlaces :=
    calc d.digits * unitsPerOne * 10 ^ k = d.digits * 10 ^ k * unitsPerOne := Nat.mul_right_comm ..
      _ = n * (5 ^ exactPlaces * unitsPerOne) := by rw [hdigits, Nat.mul_assoc]
      _ = n * 10 ^ exactPlaces := by rw [pow_five_mul_unitsPerOne]
  have hden : 10 ^ d.scale * 10 ^ k = 1 * 10 ^ exactPlaces := by
    rw [← Nat.pow_add, hscale, Nat.one_mul]
  refine ⟨_, d, hliteral, ?_⟩
  rw [ofDecimal, ← ofRatio_mul_right (Nat.pow_pos (by decide) : 0 < 10 ^ k), hnum, hden,
    ofRatio_mul_right (Nat.pow_pos (by decide)), ofUnits]

theorem exists_literal {x : Binary64} (h : x.isUnsigned = true) :
    ∃ cs d, Grammar.Literal cs d ∧ ofDecimal d = x := by
  cases x with
  | nan => cases h
  | infinite negative =>
    obtain rfl : negative = false := by simpa [isUnsigned] using h
    rw [← ofUnits_unitsBound]
    exact exists_literal_ofUnits unitsBound
  | finite negative n hn =>
    obtain rfl : negative = false := by simpa [isUnsigned] using h
    rw [← ofUnits_of_representable hn]
    exact exists_literal_ofUnits n

end Binary64

end Reckoner
