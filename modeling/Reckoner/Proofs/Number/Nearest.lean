/-
# Reckoner.Proofs.Number.Nearest — what is written of a number, as a rational number.

A number is written as a multiple of the last place, and `NearestMultiple` says which one: the nearest,
and of two that are equally near the one whose last digit is even. Rounding compares distances in units
of a natural number; here the same distances are those of rational numbers.

No number has more places than `exactPlaces`, so with at least that many there is nothing to round, and
places beyond them are not written. What is written is then the number itself.
-/
import Mathlib.Algebra.Order.Ring.Abs
import Mathlib.Data.Rat.Cast.Order
import Mathlib.Tactic.Linarith
import Mathlib.Tactic.Ring
import Reckoner.Proofs.Number.Canonical

namespace Reckoner

/-- **`NearestMultiple places r q`** — of all multiples of `1 / 10 ^ places`, the `q`-th is nearest to
`r`, and `q` is even where another one is equally near. -/
structure NearestMultiple (places : Nat) (r : ℚ) (q : ℤ) : Prop where
  le : ∀ m : ℤ, |r - q / 10 ^ places| ≤ |r - m / 10 ^ places|
  even_of_tie : ∀ m : ℤ, m ≠ q → |r - q / 10 ^ places| = |r - m / 10 ^ places| → Even q

/-! ## Distances -/

theorem cast_gap (a b : Nat) : (gap a b : ℚ) = |(a : ℚ) - b| := by
  rw [gap]
  rcases Nat.le_total a b with h | h
  · rw [Nat.sub_eq_zero_of_le h, Nat.zero_add, Nat.cast_sub h, abs_sub_comm,
      abs_of_nonneg (sub_nonneg.mpr (Nat.cast_le.mpr h))]
  · rw [Nat.sub_eq_zero_of_le h, Nat.add_zero, Nat.cast_sub h,
      abs_of_nonneg (sub_nonneg.mpr (Nat.cast_le.mpr h))]

theorem abs_sub_div_pow (r : ℚ) (m : ℤ) (places : Nat) :
    |r - m / 10 ^ places| = |r * 10 ^ places - m| / 10 ^ places := by
  have hpow : (0 : ℚ) < 10 ^ places := by positivity
  rw [eq_div_iff hpow.ne', ← abs_of_pos hpow, ← abs_mul, abs_of_pos hpow, sub_mul,
    div_mul_cancel₀ _ hpow.ne']

/-- An integer at most one half away, and even if it is that far, is the nearest one. -/
theorem nearestMultiple_of_half {places : Nat} {r : ℚ} {q : ℤ}
    (hle : |r * 10 ^ places - q| ≤ 1 / 2) (heven : |r * 10 ^ places - q| = 1 / 2 → Even q) :
    NearestMultiple places r q := by
  have hpow : (0 : ℚ) < 10 ^ places := by positivity
  -- another integer is at least one away from this one
  have hfar (m : ℤ) (hm : m ≠ q) : 1 - |r * 10 ^ places - q| ≤ |r * 10 ^ places - m| := by
    have hone : (1 : ℚ) ≤ |(m : ℚ) - q| := by
      exact_mod_cast Int.one_le_abs (sub_ne_zero.mpr hm)
    have htriangle := abs_sub_le (m : ℚ) (r * 10 ^ places) q
    rw [abs_sub_comm (m : ℚ) (r * 10 ^ places)] at htriangle
    linarith
  refine ⟨fun m => ?_, fun m hm htie => heven ?_⟩
  · rw [abs_sub_div_pow, abs_sub_div_pow]
    refine div_le_div_of_nonneg_right ?_ hpow.le
    by_cases hm : m = q
    · rw [hm]
    · linarith [hfar m hm]
  · rw [abs_sub_div_pow, abs_sub_div_pow, div_left_inj' hpow.ne'] at htie
    linarith [hfar m hm]

namespace Binary64

/-! ## The rounded number -/

/-- The distance from a number to a multiple with its sign, in units of the last place. -/
theorem abs_signed_sub (s : Bool) (n r p : Nat) :
    |(signed s n : ℚ) / unitsPerOne * 10 ^ p - signed s r| =
      gap (r * unitsPerOne) (n * 10 ^ p) / unitsPerOne := by
  have hU : (0 : ℚ) < unitsPerOne := Nat.cast_pos.mpr unitsPerOne_pos
  rw [cast_gap]
  push_cast
  generalize (unitsPerOne : ℚ) = u at hU ⊢
  have hscale : (n : ℚ) / u * 10 ^ p - r = (n * 10 ^ p - r * u) / u := by field_simp
  have habs : |(n : ℚ) / u * 10 ^ p - r| = |(r : ℚ) * u - n * 10 ^ p| / u := by
    rw [hscale, abs_div, abs_of_pos hU, abs_sub_comm]
  cases s with
  | false => exact habs
  | true =>
    rw [← habs, ← abs_neg]
    simp only [signed, if_true, Int.cast_neg, Int.cast_natCast]
    congr 1
    ring

/-- With all places of a number, nothing is rounded. -/
theorem roundDiv_exactPlaces (n : Nat) :
    roundDiv (n * 10 ^ exactPlaces) unitsPerOne * unitsPerOne = n * 10 ^ exactPlaces := by
  have hwhole : n * 10 ^ exactPlaces = n * 5 ^ exactPlaces * unitsPerOne := by
    rw [Nat.mul_assoc, pow_five_mul_unitsPerOne]
  rw [hwhole, roundDiv_mul_self unitsPerOne_pos]

theorem toRat_mul_pow (s : Bool) (n : Nat) (h : Representable n) {places : Nat}
    (hge : exactPlaces ≤ places) :
    (finite s n h).toRat * 10 ^ places = signed s
      (roundDiv (n * 10 ^ exactPlaces) unitsPerOne * 10 ^ (places - exactPlaces)) := by
  have habs := abs_signed_sub s n (roundDiv (n * 10 ^ exactPlaces) unitsPerOne) exactPlaces
  rw [gap_eq_zero_iff.mpr (roundDiv_exactPlaces n), Nat.cast_zero, zero_div, abs_eq_zero,
    sub_eq_zero] at habs
  rw [toRat, signed_mul, Int.cast_mul, ← habs, mul_assoc]
  push_cast
  rw [← pow_add, Nat.add_sub_cancel' hge]

/-- What is written of a number is the nearest multiple of the last place that was asked for. -/
theorem nearestMultiple_finite (s : Bool) (n : Nat) (h : Representable n) (places : Nat) :
    NearestMultiple places (finite s n h).toRat (signed s
      (roundDiv (n * 10 ^ min places exactPlaces) unitsPerOne *
        10 ^ (places - min places exactPlaces))) := by
  rcases Nat.le_total places exactPlaces with hle | hge
  · have hnear := nearestEven_roundDiv unitsPerOne_pos (n * 10 ^ places)
    have habs := abs_signed_sub s n (roundDiv (n * 10 ^ places) unitsPerOne) places
    have hU : (0 : ℚ) < unitsPerOne := Nat.cast_pos.mpr unitsPerOne_pos
    rw [Nat.min_eq_left hle, Nat.sub_self, Nat.pow_zero, Nat.mul_one]
    refine nearestMultiple_of_half ?_ fun htie => ?_
    · rw [toRat, habs, div_le_iff₀ hU]
      have hgap : (2 * gap (roundDiv (n * 10 ^ places) unitsPerOne * unitsPerOne)
          (n * 10 ^ places) : ℚ) ≤ unitsPerOne := by exact_mod_cast hnear.gap_le
      linarith
    · rw [toRat, habs, div_eq_iff hU.ne'] at htie
      have hgap : 2 * gap (roundDiv (n * 10 ^ places) unitsPerOne * unitsPerOne)
          (n * 10 ^ places) = unitsPerOne := by
        have hgap : (2 * gap (roundDiv (n * 10 ^ places) unitsPerOne * unitsPerOne)
          (n * 10 ^ places) : ℚ) = unitsPerOne := by linarith
        exact_mod_cast hgap
      have heven := Nat.even_iff.mpr (hnear.even_of_tie hgap)
      cases s with
      | false => exact (Int.even_coe_nat _).mpr heven
      | true => exact ((Int.even_coe_nat _).mpr heven).neg
  · -- nothing is rounded, so the distance is zero and there is no tie
    rw [Nat.min_eq_right hge]
    have hexact := toRat_mul_pow s n h hge
    refine nearestMultiple_of_half ?_ fun htie => ?_
    · rw [hexact, sub_self, abs_zero]
      norm_num
    · rw [hexact, sub_self, abs_zero] at htie
      norm_num at htie

/-- **`format_canonical`** — a finite number is written as the canonical numeral of the multiple of the
last place that is nearest to it. There is no other such numeral. It has a point just if its value is no
integer, and a number that is rounded to zero is written `0`, whatever its sign. -/
theorem format_canonical {x : Binary64} (hx : x.isFinite = true) {places : Nat}
    (h : places ≤ 65535) :
    ∃ (numeral : Canonical places) (q : ℤ),
      x.format places = .ok (.ofList numeral.text) ∧ numeral.value = q / 10 ^ places ∧
        NearestMultiple places x.toRat q ∧
        ('.' ∈ numeral.text ↔ ¬ ∃ i : ℤ, numeral.value = i) ∧ (q = 0 → numeral.text = ['0']) ∧
        ∀ other : Canonical places, other.value = numeral.value → other = numeral := by
  obtain ⟨s, n, hn, rfl⟩ : ∃ s n hn, x = finite s n hn := by
    rcases x with _ | s | ⟨s, n, hn⟩
    · cases hx
    · cases hx
    · exact ⟨s, n, hn, rfl⟩
  have hp := Nat.min_le_left places exactPlaces
  obtain ⟨numeral, htext, hvalue⟩ :=
    exists_canonical s hp (roundDiv (n * 10 ^ min places exactPlaces) unitsPerOne)
  -- places that are not written are a power of ten above and below
  have hmultiple : numeral.value = (signed s (roundDiv (n * 10 ^ min places exactPlaces) unitsPerOne *
      10 ^ (places - min places exactPlaces)) : ℤ) / 10 ^ places := by
    have hpow : (10 : ℚ) ^ (places - min places exactPlaces) ≠ 0 := by positivity
    have hsplit : (10 : ℚ) ^ places =
        10 ^ min places exactPlaces * 10 ^ (places - min places exactPlaces) := by
      rw [← pow_add, Nat.add_sub_cancel' hp]
    rw [hvalue, hsplit, signed_mul, Int.cast_mul, Int.cast_natCast, Nat.cast_pow, Nat.cast_ofNat,
      mul_div_mul_right _ _ hpow]
  refine ⟨numeral, _, ?_, hmultiple, nearestMultiple_finite s n hn places, ?_, fun hzero => ?_,
    fun other hother => Canonical.eq_of_value_eq hother⟩
  · rw [format_eq_ok _ h, htext]
    rfl
  · rw [numeral.point_mem_text_iff, ne_eq, numeral.fraction_eq_nil_iff]
  · refine Canonical.text_of_value_eq_zero ?_
    rw [hmultiple, hzero, Int.cast_zero, zero_div]

/-- A tie between two integers, the even one of which has a digit more and ends with zeros. -/
theorem format_canonical_of_tie :
    ∃ (x : Binary64) (numeral : Canonical 0) (q : ℤ), x.isFinite = true ∧ 0 ≤ 65535 ∧
      x.toRat = 1999 / 2 ∧ x.format 0 = .ok "1000" ∧ numeral.text = "1000".toList ∧
      numeral.value = q / 10 ^ 0 ∧ NearestMultiple 0 (1999 / 2) q ∧
      ¬ '.' ∈ numeral.text := by
  have hformat : (ofDecimal ⟨9995, 1⟩).format 0 = .ok "1000" := by decide +kernel
  have hvalue : (ofDecimal ⟨9995, 1⟩).toRat = 1999 / 2 := by decide +kernel
  obtain ⟨numeral, q, htext, hmultiple, hnear, -⟩ :=
    format_canonical (x := ofDecimal ⟨9995, 1⟩) (by decide +kernel) (Nat.zero_le 65535)
  rw [hformat] at htext
  rw [hvalue] at hnear
  have htext : numeral.text = "1000".toList := by
    rw [Except.ok.inj htext, String.toList_ofList]
  refine ⟨_, numeral, q, by decide +kernel, by decide, hvalue, hformat, htext, hmultiple, hnear, ?_⟩
  rw [htext]
  decide

end Binary64

end Reckoner
