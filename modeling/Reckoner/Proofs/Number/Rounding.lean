/-
# Reckoner.Proofs.Number.Rounding — rounding takes the nearest of the numbers to choose from.

`NearestEven num den n` says of a quotient which natural number it is rounded to, and `roundDiv` finds
that number, the only one there is. Rounding to a significand is one such rounding on a grid that
depends on the quotient, and `gap_roundSignificand_le` says that the grid does not matter: no number
with a significand of 53 bits, of whatever exponent, is nearer to the quotient than the rounded one.
Distances are compared by `gap`, with both sides multiplied by the divisor.
-/
import Reckoner.Number.Binary64

namespace Reckoner

attribute [local instance] corePow

/-- **`gap a b`** — how far apart two natural numbers are. -/
def gap (a b : Nat) : Nat := (a - b) + (b - a)

/-- **`NearestEven num den n`** — `n` is at most one half away from `num / den`, and even where it is
exactly one half away. -/
structure NearestEven (num den n : Nat) : Prop where
  gap_le : 2 * gap (n * den) num ≤ den
  even_of_tie : 2 * gap (n * den) num = den → n % 2 = 0

theorem gap_mul_right (a b c : Nat) : gap (a * c) (b * c) = gap a b * c := by
  rw [gap, gap, ← Nat.sub_mul, ← Nat.sub_mul, Nat.add_mul]

theorem gap_eq_zero_iff {a b : Nat} : gap a b = 0 ↔ a = b := by
  unfold gap
  omega

variable {num den : Nat}

/-! ## Quotients -/

/-- Rounding goes down or up, and a half to the even side. -/
theorem roundDiv_cases (num den : Nat) :
    (roundDiv num den = num / den ∧ 2 * (num % den) ≤ den ∧
        (2 * (num % den) = den → roundDiv num den % 2 = 0)) ∨
      (roundDiv num den = num / den + 1 ∧ den ≤ 2 * (num % den) ∧
        (2 * (num % den) = den → roundDiv num den % 2 = 0)) := by
  unfold roundDiv
  dsimp only
  split
  · exact .inl ⟨rfl, by omega, by omega⟩
  -- a half goes down from an even quotient and up from an odd one
  split
  · rcases Nat.mod_two_eq_zero_or_one (num / den) with h | h
    · rw [h]
      exact .inl ⟨rfl, by omega, fun _ => h⟩
    · rw [h]
      exact .inr ⟨rfl, by omega, by omega⟩
  · exact .inr ⟨rfl, by omega, by omega⟩

theorem nearestEven_roundDiv (hden : 0 < den) (num : Nat) :
    NearestEven num den (roundDiv num den) := by
  have hnum : num / den * den + num % den = num := Nat.div_add_mod' num den
  have hlt : num % den < den := Nat.mod_lt num hden
  rcases roundDiv_cases num den with ⟨hr, hle, heven⟩ | ⟨hr, hle, heven⟩
  · have hgap : gap (roundDiv num den * den) num = num % den := by
      rw [hr, gap]
      omega
    exact ⟨by omega, by omega⟩
  · have hgap : gap (roundDiv num den * den) num = den - num % den := by
      rw [hr, gap, Nat.succ_mul]
      omega
    exact ⟨by omega, by omega⟩

theorem add_den_le_mul {m n : Nat} (h : m < n) (den : Nat) : m * den + den ≤ n * den := by
  rw [← Nat.succ_mul]
  exact Nat.mul_le_mul_right den h

theorem NearestEven.not_lt {m n : Nat} (hden : 0 < den) (hm : NearestEven num den m)
    (hn : NearestEven num den n) : ¬m < n := by
  intro hlt
  have hstep := add_den_le_mul hlt den
  have hmle := hm.gap_le
  have hnle := hn.gap_le
  have hmeven := hm.even_of_tie
  have hneven := hn.even_of_tie
  unfold gap at hmle hnle hmeven hneven
  -- the quotient is half way between the two, so they are neighbours and both even
  have hnext : n * den = (m + 1) * den := by
    rw [Nat.succ_mul]
    omega
  have hn1 : n = m + 1 := Nat.eq_of_mul_eq_mul_right hden hnext
  have hm0 : m % 2 = 0 := hmeven (by omega)
  have hn0 : n % 2 = 0 := hneven (by omega)
  omega

/-- One number at most is the nearest. -/
theorem NearestEven.unique {m n : Nat} (hden : 0 < den) (hm : NearestEven num den m)
    (hn : NearestEven num den n) : m = n := by
  have h₁ := hm.not_lt hden hn
  have h₂ := hn.not_lt hden hm
  omega

theorem roundDiv_eq_of_nearestEven {n : Nat} (hden : 0 < den) (h : NearestEven num den n) :
    roundDiv num den = n := (nearestEven_roundDiv hden num).unique hden h

/-- Where nothing is left over, nothing is rounded. -/
theorem roundDiv_mul_self (hden : 0 < den) (m : Nat) : roundDiv (m * den) den = m := by
  refine roundDiv_eq_of_nearestEven hden ⟨?_, fun htie => ?_⟩
  · rw [gap, Nat.sub_self]
    exact Nat.zero_le den
  · rw [gap, Nat.sub_self] at htie
    exact absurd htie.symm (Nat.ne_of_gt hden)

/-- No natural number is nearer to a quotient than the rounded one. -/
theorem gap_roundDiv_le (hden : 0 < den) (num m : Nat) :
    gap (roundDiv num den * den) num ≤ gap (m * den) num := by
  have hle := (nearestEven_roundDiv hden num).gap_le
  unfold gap at hle ⊢
  rcases Nat.lt_trichotomy m (roundDiv num den) with hlt | heq | hgt
  · have hstep := add_den_le_mul hlt den
    omega
  · exact Nat.le_of_eq (by rw [heq])
  · have hstep := add_den_le_mul hgt den
    omega

theorem roundDiv_mul_right {c : Nat} (hc : 0 < c) :
    roundDiv (num * c) (den * c) = roundDiv num den := by
  -- a common factor changes neither the quotient nor how the remainder compares with the half
  have hlt : 2 * (num % den * c) < den * c ↔ 2 * (num % den) < den := by
    rw [← Nat.mul_assoc]
    exact Nat.mul_lt_mul_right hc
  have heq : 2 * (num % den * c) = den * c ↔ 2 * (num % den) = den := by
    rw [← Nat.mul_assoc]
    exact ⟨Nat.eq_of_mul_eq_mul_right hc, fun h => by rw [h]⟩
  unfold roundDiv
  simp only [Nat.mul_div_mul_right num den hc, Nat.mul_mod_mul_right, hlt, heq]

/-! ## Significands -/

theorem roundSignificand_mul_right {c : Nat} (hc : 0 < c) :
    roundSignificand (num * c) (den * c) = roundSignificand num den := by
  unfold roundSignificand
  simp only [Nat.mul_div_mul_right num den hc]
  rw [Nat.mul_right_comm den c, roundDiv_mul_right hc]

/-- On the grid of the quotient, nothing is nearer than the rounded number. -/
theorem gap_roundSignificand_le_mul_pow (hden : 0 < den) (num m : Nat) :
    gap (roundSignificand num den * den) num ≤ gap (m * 2 ^ spacing (num / den) * den) num := by
  have hpos : 0 < den * 2 ^ spacing (num / den) := Nat.mul_pos hden (Nat.two_pow_pos _)
  have hnear := gap_roundDiv_le hpos num m
  rw [← Nat.mul_assoc, Nat.mul_right_comm, ← Nat.mul_assoc, Nat.mul_right_comm m] at hnear
  exact hnear

/-- No number with a significand of 53 bits is nearer to a quotient than the rounded one. -/
theorem gap_roundSignificand_le (hden : 0 < den) (num : Nat) {m : Nat} (hm : m < 2 ^ (53 : Nat)) (j : Nat) :
    gap (roundSignificand num den * den) num ≤ gap (m * 2 ^ j * den) num := by
  by_cases hj : spacing (num / den) ≤ j
  · -- a number that is no finer than the grid is on it
    have hsplit : m * 2 ^ j = m * 2 ^ (j - spacing (num / den)) * 2 ^ spacing (num / den) := by
      rw [Nat.mul_assoc, ← Nat.pow_add, Nat.sub_add_cancel hj]
    rw [hsplit]
    exact gap_roundSignificand_le_mul_pow hden num _
  · -- a finer one is below the power of two at which the grid starts, and the quotient is not
    have hspace : spacing (num / den) = (num / den).log2 - 52 := rfl
    have hne : num / den ≠ 0 := by
      intro hzero
      rw [hzero] at hj
      exact hj (Nat.zero_le j)
    have hstart : 2 ^ (52 : Nat) * 2 ^ spacing (num / den) ≤ num / den := by
      rw [← Nat.pow_add, hspace, Nat.add_sub_cancel' (by omega)]
      exact Nat.log2_self_le hne
    have hbelow : m * 2 ^ j ≤ 2 ^ (52 : Nat) * 2 ^ spacing (num / den) := by
      calc m * 2 ^ j ≤ 2 ^ (53 : Nat) * 2 ^ j := Nat.mul_le_mul_right _ (Nat.le_of_lt hm)
        _ = 2 ^ (52 : Nat) * 2 ^ (j + 1) := by
          rw [← Nat.pow_add, ← Nat.pow_add, show 53 + j = 52 + (j + 1) by omega]
        _ ≤ 2 ^ (52 : Nat) * 2 ^ spacing (num / den) :=
          Nat.mul_le_mul_left _ (Nat.pow_le_pow_right (by decide) (by omega))
    have hnear := gap_roundSignificand_le_mul_pow hden num (2 ^ (52 : Nat))
    have hm' := Nat.mul_le_mul_right den hbelow
    have hnum := Nat.le_trans (Nat.mul_le_mul_right den hstart) (Nat.div_mul_le_self num den)
    unfold gap at hnear ⊢
    omega

end Reckoner
