/-
# Reckoner.Proofs.Number.Rational — the rational number that a binary64 number is.

`x.Denotes q` says that `x` is finite and has the value `q`. Every operation takes the exact result of
the values and rounds it once. So it is exact wherever it can be: where its exact result is the value of
some binary64 number, it denotes that result. This holds of zeros too, whose sign is no matter of their
value, and of the reading of a numeral.
-/
import Mathlib.Algebra.Field.Basic
import Mathlib.Algebra.Field.Rat
import Mathlib.Data.Int.CharZero
import Mathlib.Tactic.FieldSimp
import Reckoner.Number.Decimal
import Reckoner.Proofs.Number.Exact

namespace Reckoner

/-- **`d.toRat`** — the value of a numeral. -/
def Decimal.toRat (d : Decimal) : ℚ := d.digits / 10 ^ d.scale

namespace Binary64

/-- **`x.toRat`** — the value of a finite number; NaN and the infinities have none, and get zero. -/
def toRat : Binary64 → ℚ
  | finite s n _ => signed s n / unitsPerOne
  | _ => 0

/-- **`x.Denotes q`** — the number is finite, and its value is `q`. -/
def Denotes (x : Binary64) (q : ℚ) : Prop := x.isFinite = true ∧ x.toRat = q

end Binary64

/-- **`IsBinary64 q`** — the rational number is the value of a binary64 number. -/
def IsBinary64 (q : ℚ) : Prop := ∃ x : Binary64, x.Denotes q

namespace Binary64

variable {x y : Binary64} {p q : ℚ} {s : Bool} {num den : Nat}

/-! ## Signs -/

theorem natAbs_signed (s : Bool) (n : Nat) : (signed s n).natAbs = n := by
  cases s <;> simp [signed]

theorem signed_mul (s : Bool) (m n : Nat) : signed s (m * n) = signed s m * n := by
  cases s <;> simp [signed]

theorem signed_xor_mul (s t : Bool) (m n : Nat) :
    signed (s ^^ t) (m * n) = signed s m * signed t n := by
  cases s <;> cases t <;> simp [signed]

/-- The sign of a divisor may be given to the dividend. -/
theorem signed_xor_div (s t : Bool) (m n : Nat) :
    (signed (s ^^ t) m : ℚ) / n = signed s m / signed t n := by
  cases s <;> cases t <;> simp [signed, div_neg, neg_div]

theorem signed_decide_natAbs (i : Int) : signed (decide (i < 0)) i.natAbs = i := by
  by_cases h : i < 0
  · rw [decide_eq_true h]
    simp only [signed, if_true]
    omega
  · rw [decide_eq_false h]
    simp only [signed, Bool.false_eq_true, if_false]
    omega

theorem signed_eq_zero_iff {n : Nat} : signed s n = 0 ↔ n = 0 := by
  cases s <;> simp [signed]

theorem eq_or_eq_zero_of_signed {t : Bool} {n : Nat} (h : signed s n = signed t n) :
    s = t ∨ n = 0 := by
  have hneg {n : Nat} (h : (n : Int) = -n) : n = 0 := by omega
  cases s <;> cases t
  · exact .inl rfl
  · exact .inr (hneg h)
  · exact .inr (hneg h.symm)
  · exact .inl rfl

/-! ## Values -/

theorem unitsPerOne_ne_zero : (unitsPerOne : ℚ) ≠ 0 := Nat.cast_ne_zero.mpr unitsPerOne_pos.ne'

theorem denotes_finite (s : Bool) (n : Nat) (h : Representable n) :
    (finite s n h).Denotes (signed s n / unitsPerOne) := ⟨rfl, rfl⟩

/-- What has a value has units. -/
theorem Denotes.exists_finite (hx : x.Denotes p) :
    ∃ s n h, x = finite s n h ∧ p = signed s n / unitsPerOne := by
  obtain ⟨hfinite, rfl⟩ := hx
  rcases x with _ | s | ⟨s, n, h⟩
  · cases hfinite
  · cases hfinite
  · exact ⟨s, n, h, rfl, rfl⟩

theorem denotes_zero (s : Bool) : (zero s).Denotes 0 := by
  refine ⟨rfl, ?_⟩
  show (signed s 0 : ℚ) / unitsPerOne = 0
  rw [signed_eq_zero_iff.mpr rfl, Int.cast_zero, zero_div]

/-- Only the zeros have the value zero. -/
theorem Denotes.isZero_iff (hx : x.Denotes p) : x.isZero = true ↔ p = 0 := by
  obtain ⟨s, n, h, rfl, rfl⟩ := hx.exists_finite
  rw [div_eq_zero_iff, or_iff_left unitsPerOne_ne_zero, Int.cast_eq_zero, signed_eq_zero_iff]
  exact beq_iff_eq

/-- Finite numbers are equal just if their values are. -/
theorem equal_iff_toRat_eq (hx : x.isFinite = true) (hy : y.isFinite = true) :
    x.equal y = true ↔ x.toRat = y.toRat := by
  obtain ⟨s, m, hm, rfl, -⟩ := Denotes.exists_finite ⟨hx, rfl⟩
  obtain ⟨t, n, hn, rfl, -⟩ := Denotes.exists_finite ⟨hy, rfl⟩
  rw [toRat, toRat, div_left_inj' unitsPerOne_ne_zero, Int.cast_inj]
  simp only [equal, Bool.and_eq_true, Bool.or_eq_true, beq_iff_eq]
  constructor
  · rintro ⟨rfl, rfl | rfl⟩
    · rfl
    · rw [signed_eq_zero_iff.mpr rfl, signed_eq_zero_iff.mpr rfl]
  · intro h
    have hmn : m = n := by rw [← natAbs_signed s m, h, natAbs_signed]
    subst hmn
    exact ⟨rfl, eq_or_eq_zero_of_signed h⟩

/-- A quotient that some binary64 number has for its value is rounded to that value. -/
theorem denotes_ofRatio (hden : 0 < den) (hq : q = signed s num / (den * unitsPerOne))
    (h : IsBinary64 q) : (ofRatio s num den).Denotes q := by
  obtain ⟨x, hx⟩ := h
  obtain ⟨t, n, hn, rfl, rfl⟩ := hx.exists_finite
  -- the two fractions agree, so the quotient is a whole number of units
  have hunits : signed t n * den = signed s num := by
    have hU := unitsPerOne_ne_zero
    have hden' : (den : ℚ) ≠ 0 := Nat.cast_ne_zero.mpr hden.ne'
    field_simp at hq
    exact_mod_cast hq
  have hnum : n * den = num := by
    have habs := congrArg Int.natAbs hunits
    rwa [Int.natAbs_mul, natAbs_signed, natAbs_signed, Int.natAbs_natCast] at habs
  have hsign : signed t n = signed s n := by
    rw [← hnum, signed_mul] at hunits
    exact Int.eq_of_mul_eq_mul_right (Int.natCast_ne_zero.mpr hden.ne') hunits
  have hround : ofRatio s num den = finite s n hn := by
    have hcancel := ofRatio_mul_right hden s n 1
    rw [Nat.one_mul, hnum] at hcancel
    rw [hcancel, ← ofUnits_of_representable hn, ofUnits]
  rw [hround, hsign]
  exact denotes_finite s n hn

theorem isBinary64_div_pow {m k : Nat} (s : Bool) (hm : m < 2 ^ 53) (hk : k ≤ 1074) :
    IsBinary64 (signed s m / 2 ^ k) := by
  have hunits : unitsPerOne = 2 ^ (1074 - k) * 2 ^ k := by
    rw [← Nat.pow_add, Nat.sub_add_cancel hk, unitsPerOne]
  have hpos : ((2 ^ (1074 - k) : Nat) : ℚ) ≠ 0 := Nat.cast_ne_zero.mpr (Nat.two_pow_pos _).ne'
  have hrep : Representable (m * 2 ^ (1074 - k)) := representable_mul_pow hm (by omega)
  refine ⟨finite s _ hrep, rfl, ?_⟩
  rw [toRat, hunits, signed_mul, mul_comm (2 ^ (1074 - k)) (2 ^ k), Int.cast_mul, Int.cast_natCast,
    Nat.cast_mul, mul_div_mul_right _ _ hpos, Nat.cast_pow, Nat.cast_ofNat]

/-! ## Operations -/

theorem denotes_ofDecimal {d : Decimal} (h : IsBinary64 d.toRat) :
    (ofDecimal d).Denotes d.toRat := by
  refine denotes_ofRatio (Nat.pow_pos (by decide)) ?_ h
  have hU := unitsPerOne_ne_zero
  simp only [Decimal.toRat, signed, Bool.false_eq_true, if_false]
  push_cast
  field_simp

theorem Denotes.neg (hx : x.Denotes p) : x.neg.Denotes (-p) := by
  obtain ⟨s, n, h, rfl, rfl⟩ := hx.exists_finite
  have hsign : signed (!s) n = -signed s n := by cases s <;> simp [signed]
  rw [← neg_div, ← Int.cast_neg, ← hsign]
  exact denotes_finite (!s) n h

theorem Denotes.add (hx : x.Denotes p) (hy : y.Denotes q) (h : IsBinary64 (p + q)) :
    (x.add y).Denotes (p + q) := by
  obtain ⟨s, m, hm, rfl, rfl⟩ := hx.exists_finite
  obtain ⟨t, n, hn, rfl, rfl⟩ := hy.exists_finite
  rw [← add_div, ← Int.cast_add] at h ⊢
  simp only [Binary64.add]
  split
  · rename_i hzero
    rw [hzero, Int.cast_zero, zero_div]
    exact denotes_zero _
  · refine denotes_ofRatio Nat.one_pos ?_ h
    rw [signed_decide_natAbs, Nat.cast_one, one_mul]

theorem Denotes.sub (hx : x.Denotes p) (hy : y.Denotes q) (h : IsBinary64 (p - q)) :
    (x.sub y).Denotes (p - q) := by
  rw [sub_eq_add_neg] at h ⊢
  exact hx.add hy.neg h

theorem Denotes.mul (hx : x.Denotes p) (hy : y.Denotes q) (h : IsBinary64 (p * q)) :
    (x.mul y).Denotes (p * q) := by
  obtain ⟨s, m, hm, rfl, rfl⟩ := hx.exists_finite
  obtain ⟨t, n, hn, rfl, rfl⟩ := hy.exists_finite
  refine denotes_ofRatio unitsPerOne_pos ?_ h
  rw [signed_xor_mul, Int.cast_mul, div_mul_div_comm]

theorem Denotes.div (hx : x.Denotes p) (hy : y.Denotes q) (hq : q ≠ 0) (h : IsBinary64 (p / q)) :
    (x.div y).Denotes (p / q) := by
  have hzero : y.isZero = false := Bool.eq_false_iff.mpr fun hzero => hq (hy.isZero_iff.mp hzero)
  obtain ⟨s, m, hm, rfl, rfl⟩ := hx.exists_finite
  obtain ⟨t, n, hn, rfl, rfl⟩ := hy.exists_finite
  have hn : n ≠ 0 := by simpa [isZero] using hzero
  simp only [Binary64.div, if_neg hn]
  refine denotes_ofRatio (Nat.pos_of_ne_zero hn) ?_ h
  rw [div_div_div_cancel_right₀ unitsPerOne_ne_zero, ← signed_xor_div, signed_mul, Int.cast_mul,
    Int.cast_natCast, mul_div_mul_right _ _ unitsPerOne_ne_zero]

end Binary64

end Reckoner
