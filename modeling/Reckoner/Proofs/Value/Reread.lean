/-
# Reckoner.Proofs.Value.Reread — the value of a text that a number was written as.

What is written of a finite number is an expression, and its value is again a finite number. Writing and
reading round once each, and both stay on this side of the half: writing is off by at most one half of
the last place, and reading goes no further away from the numeral than the written number was. So the
two are within one unit of the last place, and they are the same number where writing has nothing to
round.
-/
import Reckoner.Proofs.Calculator
import Reckoner.Proofs.Number.Nearest

namespace Reckoner

namespace Binary64

theorem signed_reread (s : Bool) (n p : Nat) :
    signed (s && roundDiv (n * 10 ^ p) unitsPerOne != 0) (reread n p) = signed s (reread n p) := by
  by_cases hzero : roundDiv (n * 10 ^ p) unitsPerOne = 0
  · rw [signed_eq_zero_iff.mpr (reread_eq_zero hzero), signed_eq_zero_iff.mpr (reread_eq_zero hzero)]
  · rw [bne_iff_ne.mpr hzero, Bool.and_true]

theorem abs_signed_sub_signed (s : Bool) (m n : Nat) :
    |(signed s m : ℚ) / unitsPerOne - signed s n / unitsPerOne| = gap m n / unitsPerOne := by
  have hU : (0 : ℚ) < unitsPerOne := Nat.cast_pos.mpr unitsPerOne_pos
  rw [← sub_div, abs_div, abs_of_pos hU, cast_gap]
  cases s with
  | false => simp only [signed, Bool.false_eq_true, if_false, Int.cast_natCast]
  | true =>
    simp only [signed, if_true, Int.cast_neg, Int.cast_natCast]
    rw [neg_sub_neg, abs_sub_comm]

/-- What is read is within one unit of the last place. -/
theorem gap_reread_div_le {n : Nat} (h : Representable n) (places : Nat) :
    (gap (reread n (min places exactPlaces)) n : ℚ) / unitsPerOne ≤ 1 / 10 ^ places := by
  have hU : (0 : ℚ) < unitsPerOne := Nat.cast_pos.mpr unitsPerOne_pos
  rcases Nat.le_total places exactPlaces with hle | hge
  · rw [Nat.min_eq_left hle, div_le_div_iff₀ hU (by positivity), one_mul]
    exact_mod_cast gap_reread_mul_le h places
  · rw [Nat.min_eq_right hge, reread_eq_self h (roundDiv_exactPlaces n), gap_eq_zero_iff.mpr rfl,
      Nat.cast_zero, zero_div]
    positivity

/-- A multiple of the last place is read as itself. -/
theorem reread_of_multiple {s : Bool} {n places : Nat} (h : Representable n) {k : ℤ}
    (hk : (finite s n h).toRat = k / 10 ^ places) : reread n (min places exactPlaces) = n := by
  apply reread_eq_self h
  rcases Nat.le_total places exactPlaces with hle | hge
  · rw [Nat.min_eq_left hle]
    have hunits : n * 10 ^ places = k.natAbs * unitsPerOne := by
      rw [toRat, div_eq_div_iff unitsPerOne_ne_zero (by positivity)] at hk
      have hint : signed s n * 10 ^ places = k * unitsPerOne := by exact_mod_cast hk
      have habs := congrArg Int.natAbs hint
      rwa [Int.natAbs_mul, Int.natAbs_mul, natAbs_signed, Int.natAbs_pow, Int.natAbs_natCast] at habs
    rw [hunits, roundDiv_mul_self unitsPerOne_pos]
  · rw [Nat.min_eq_right hge, roundDiv_exactPlaces]

/-- **`evaluate_format`** — the text that a finite number is written as has a finite value, which is
within one unit of the last place of the number. The two are equal if the number is a multiple of the
last place, and so they always are with 1074 places or more. -/
theorem evaluate_format {x : Binary64} (hx : x.isFinite = true) {places : Nat}
    (h : places ≤ 65535) :
    ∃ text w, x.format places = .ok text ∧ evaluate text = .ok w ∧ w.isFinite = true ∧
      |w.toRat - x.toRat| ≤ 1 / 10 ^ places ∧
      ((∃ k : ℤ, x.toRat = k / 10 ^ places) → w.toRat = x.toRat ∧ w.equal x = true) ∧
      (1074 ≤ places → (∃ k : ℤ, x.toRat = k / 10 ^ places) ∧ w.toRat = x.toRat) := by
  obtain ⟨s, n, hn, rfl, -⟩ := Denotes.exists_finite ⟨hx, rfl⟩
  obtain ⟨hw, heval⟩ := evaluate_fixed s hn places
  have htoRat : (finite (s && roundDiv (n * 10 ^ min places exactPlaces) unitsPerOne != 0)
      (reread n (min places exactPlaces)) hw).toRat =
        signed s (reread n (min places exactPlaces)) / unitsPerOne := by
    rw [toRat, signed_reread]
  have hequal (hsame : reread n (min places exactPlaces) = n) :
      (finite (s && roundDiv (n * 10 ^ min places exactPlaces) unitsPerOne != 0)
        (reread n (min places exactPlaces)) hw).toRat = (finite s n hn).toRat := by
    rw [htoRat, hsame, toRat]
  refine ⟨_, _, format_eq_ok _ h, heval, rfl, ?_, ?_, fun hall => ?_⟩
  · rw [htoRat, toRat, abs_signed_sub_signed]
    exact gap_reread_div_le hn places
  · rintro ⟨k, hk⟩
    have hsame := hequal (reread_of_multiple hn hk)
    exact ⟨hsame, (equal_iff_toRat_eq rfl rfl).mpr hsame⟩
  · have hk := eq_div_of_mul_eq (by positivity) (toRat_mul_pow s n hn hall)
    exact ⟨⟨_, hk⟩, hequal (reread_of_multiple hn hk)⟩

/-- The sum of one and two tenths is no multiple of a tenth, and minus eleven quarters is one of a
hundredth. -/
theorem evaluate_format_of_tenths_and_quarters :
    ∃ x y z w : Binary64, x.isFinite = true ∧ 1 ≤ 65535 ∧ x.format 1 = .ok "0.3" ∧
      evaluate "0.3" = .ok y ∧ y ≠ x ∧ |y.toRat - x.toRat| ≤ 1 / 10 ^ 1 ∧
      z.isFinite = true ∧ 2 ≤ 65535 ∧ z.toRat = -11 / 4 ∧ z.format 2 = .ok "-2.75" ∧
      evaluate "-2.75" = .ok w ∧ w.toRat = -11 / 4 := by
  have hx : (ofBits 0x3FD3333333333334).format 1 = .ok "0.3" := by decide +kernel
  have hz : (ofBits 0xC006000000000000).format 2 = .ok "-2.75" := by decide +kernel
  have hquarters : (ofBits 0xC006000000000000).toRat = -11 / 4 := by decide +kernel
  have hmultiple : (ofBits 0xC006000000000000).toRat = (-275 : ℤ) / 10 ^ 2 := by
    rw [hquarters]
    norm_num
  have htenths : evaluate "0.3" = .ok (ofBits 0x3FD3333333333333) :=
    Config.eq_ok_of_toOption_eq_some (by decide +kernel)
  obtain ⟨text, y, htext, hy, -, hclose, -⟩ :=
    evaluate_format (x := ofBits 0x3FD3333333333334) (by decide +kernel) (by decide : 1 ≤ 65535)
  obtain rfl := Except.ok.inj (hx.symm.trans htext)
  obtain ⟨text, w, htext, hw, -, -, hsame, -⟩ :=
    evaluate_format (x := ofBits 0xC006000000000000) (by decide +kernel) (by decide : 2 ≤ 65535)
  obtain rfl := Except.ok.inj (hz.symm.trans htext)
  refine ⟨_, y, _, w, by decide +kernel, by decide, hx, hy, ?_, hclose, by decide +kernel, by decide,
    hquarters, hz, hw, ?_⟩
  · obtain rfl := Except.ok.inj (htenths.symm.trans hy)
    decide +kernel
  · rw [(hsame ⟨-275, hmultiple⟩).1, hquarters]

end Binary64

end Reckoner
