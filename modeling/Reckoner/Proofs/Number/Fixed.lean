/-
# Reckoner.Proofs.Number.Fixed — a written number, read again, is written the same.

Writing rounds a number to a count of decimal places, and reading rounds the numeral to binary64. The
grids of the two have nothing to do with each other, but reading takes a nearest number, and the one
that was written is a candidate. So what is read is no further from the numeral than what was written
(`nearestEven_reread`), and that is near enough to be written as the same numeral. A half is no
exception: the numeral was the even one then, and it is still that.

The text itself is a numeral of the grammar, whose digits are the rounded number less the zeros at its
end (`fractionDigits_spec`), behind a minus sign if that is needed.
-/
import Reckoner.Number.Fixed
import Reckoner.Proofs.Grammar
import Reckoner.Proofs.Number.Rounding

namespace Reckoner

attribute [local instance] corePow

/-! ## The values -/

/-- What is no further from `r` than a number which is rounded to `r` is rounded to `r` too. -/
theorem nearestEven_reread {num num' den r : Nat} (h : NearestEven num den r)
    (hle : gap num' (r * den) ≤ gap num (r * den)) : NearestEven num' den r := by
  obtain ⟨hgap, heven⟩ := h
  unfold gap at hgap heven hle
  refine ⟨?_, fun htie => heven ?_⟩
  · unfold gap
    omega
  · unfold gap at htie
    omega

/-- Below the bound of the finite magnitudes there is room for one more of the widest steps. -/
theorem Representable.add_widest_le {n : Nat} (h : Representable n) :
    n + 2 ^ (2045 : Nat) ≤ unitsBound := by
  obtain ⟨hlt, m, k, hm, rfl⟩ := h
  unfold unitsBound at hlt ⊢
  generalize 2045 = widest at hlt ⊢
  -- with an exponent beyond that of the widest step, the magnitude is a multiple of the step
  by_cases hk : k ≤ widest
  · calc m * 2 ^ k + 2 ^ widest ≤ m * 2 ^ widest + 2 ^ widest :=
          Nat.add_le_add_right (Nat.mul_le_mul_left m (Nat.pow_le_pow_right (by decide) hk)) _
      _ ≤ 2 ^ (53 : Nat) * 2 ^ widest := add_den_le_mul hm _
  · have hsplit : m * 2 ^ k = m * 2 ^ (k - widest) * 2 ^ widest := by
      rw [Nat.mul_assoc, ← Nat.pow_add, Nat.sub_add_cancel (by omega)]
    rw [hsplit] at hlt ⊢
    exact add_den_le_mul (Nat.lt_of_mul_lt_mul_right hlt) _

/-- **`reread n places`** — the magnitude that is read from the numeral of `n` units with that many
places. -/
def reread (n places : Nat) : Nat :=
  roundSignificand (roundDiv (n * 10 ^ places) unitsPerOne * unitsPerOne) (10 ^ places)

theorem unitsPerOne_pos : 0 < unitsPerOne := by
  unfold unitsPerOne
  generalize 1074 = places
  exact Nat.two_pow_pos _

/-- One is less than the widest step between neighbouring magnitudes. -/
theorem unitsPerOne_lt_widest : unitsPerOne < 2 ^ (2045 : Nat) := by
  have hexp : 1074 < 2045 := by decide
  unfold unitsPerOne
  generalize 1074 = one at hexp ⊢
  generalize 2045 = widest at hexp ⊢
  exact Nat.pow_lt_pow_right (by decide) hexp

/-- Reading finds a number at least as near to the numeral as the one that was written. -/
theorem gap_reread_le {n : Nat} (h : Representable n) (places : Nat) :
    gap (reread n places * 10 ^ places)
        (roundDiv (n * 10 ^ places) unitsPerOne * unitsPerOne) ≤
      gap (n * 10 ^ places) (roundDiv (n * 10 ^ places) unitsPerOne * unitsPerOne) := by
  -- the number that was written is itself one of those to choose from
  obtain ⟨-, m, k, hm, hn⟩ := h
  have hpow : 0 < 10 ^ places := Nat.pow_pos (by decide)
  have hnear := gap_roundSignificand_le hpow
    (roundDiv (n * 10 ^ places) unitsPerOne * unitsPerOne) hm k
  rw [← hn] at hnear
  exact hnear

/-- A number that is written and read again is written the same. -/
theorem roundDiv_reread {n : Nat} (h : Representable n) (places : Nat) :
    roundDiv (reread n places * 10 ^ places) unitsPerOne =
      roundDiv (n * 10 ^ places) unitsPerOne :=
  roundDiv_eq_of_nearestEven unitsPerOne_pos
    (nearestEven_reread (nearestEven_roundDiv unitsPerOne_pos _) (gap_reread_le h places))

/-- A number that is written and read again has moved by one unit of the last place at most. -/
theorem gap_reread_mul_le {n : Nat} (h : Representable n) (places : Nat) :
    gap (reread n places) n * 10 ^ places ≤ unitsPerOne := by
  have hread := gap_reread_le h places
  have hwritten := (nearestEven_roundDiv unitsPerOne_pos (n * 10 ^ places)).gap_le
  rw [← gap_mul_right]
  generalize unitsPerOne = one at hread hwritten ⊢
  unfold gap at hread hwritten ⊢
  omega

/-- A number of no more than the given places is read again. -/
theorem reread_eq_self {n places : Nat} (h : Representable n)
    (hexact : roundDiv (n * 10 ^ places) unitsPerOne * unitsPerOne = n * 10 ^ places) :
    reread n places = n := by
  have hread := gap_reread_le h places
  rw [hexact, gap_mul_right, gap_mul_right, gap_eq_zero_iff.mpr (Eq.refl n), Nat.zero_mul] at hread
  rcases Nat.mul_eq_zero.mp (Nat.le_zero.mp hread) with hgap | hpow
  · exact gap_eq_zero_iff.mp hgap
  · exact absurd hpow (Nat.ne_of_gt (Nat.pow_pos (by decide)))

/-- What is written as a zero is read as a zero. -/
theorem reread_eq_zero {n places : Nat} (h : roundDiv (n * 10 ^ places) unitsPerOne = 0) :
    reread n places = 0 := by
  have hpow : 0 < 10 ^ places := Nat.pow_pos (by decide)
  have hnear := gap_roundSignificand_le hpow 0 (m := 0) (by decide) 0
  rw [Nat.zero_mul, Nat.zero_mul, gap_eq_zero_iff.mpr (Eq.refl 0)] at hnear
  rw [reread, h, Nat.zero_mul]
  have hprod := gap_eq_zero_iff.mp (Nat.le_zero.mp hnear)
  exact (Nat.mul_eq_zero.mp hprod).resolve_right (Nat.ne_of_gt hpow)

/-- What is read is finite: it is less than one away from what was written. -/
theorem reread_lt_unitsBound {n : Nat} (h : Representable n) (places : Nat) :
    reread n places < unitsBound := by
  have hbound := h.add_widest_le
  have hread := gap_reread_le h places
  have hwritten := (nearestEven_roundDiv unitsPerOne_pos (n * 10 ^ places)).gap_le
  have hpow : 0 < 10 ^ places := Nat.pow_pos (by decide)
  have hwide := unitsPerOne_lt_widest
  generalize 2 ^ (2045 : Nat) = widest at hbound hwide
  generalize unitsPerOne = one at hread hwritten hwide
  generalize reread n places = w at hread ⊢
  generalize 10 ^ places = scale at hread hwritten hpow
  apply Nat.lt_of_not_le
  intro hle
  -- a step that wide would be wider still in units of the last place
  have hfar : (n + widest) * scale ≤ w * scale :=
    Nat.mul_le_mul_right scale (Nat.le_trans hbound hle)
  have hstep : widest ≤ widest * scale := Nat.le_mul_of_pos_right widest hpow
  rw [Nat.add_mul] at hfar
  unfold gap at hread hwritten
  omega

/-! ## The digits -/

theorem digitsValue_append (as bs : List Char) :
    digitsValue (as ++ bs) = digitsValue as * 10 ^ bs.length + digitsValue bs := by
  rw [digitsValue, digitsValue, digitsValue, Nat.ofDigitChars_append,
    Nat.ofDigitChars_eq_ofDigitChars_zero, Nat.mul_comm]

theorem digitsValue_toDigits (n : Nat) : digitsValue (Nat.toDigits 10 n) = n := by
  rw [digitsValue, Nat.ofDigitChars_ten_toDigits]

theorem digitsValue_zeros (k : Nat) : digitsValue (List.replicate k '0') = 0 := by
  rw [digitsValue, Nat.ofDigitChars_replicate_zero, Nat.mul_zero]

theorem digits_toDigits (n : Nat) : Digits (Nat.toDigits 10 n) := fun _ hc =>
  Nat.isDigit_of_mem_toDigits (by decide) (by decide) hc

theorem digits_zeros (k : Nat) : Digits (List.replicate k '0') := by
  intro c hc
  rw [(List.mem_replicate.mp hc).2]
  rfl

/-- Zeros at the end are all that is dropped from a fraction. -/
theorem exists_eq_append_zeros (ds : List Char) :
    ∃ k, ds = (ds.reverse.dropWhile (· == '0')).reverse ++ List.replicate k '0' := by
  refine ⟨(ds.reverse.takeWhile (· == '0')).length, ?_⟩
  have hzeros : (ds.reverse.takeWhile (· == '0')).reverse =
      List.replicate (ds.reverse.takeWhile (· == '0')).length '0' := by
    refine List.eq_replicate_iff.mpr ⟨List.length_reverse, fun c hc => ?_⟩
    exact beq_iff_eq.mp (List.all_eq_true.mp List.all_takeWhile c (List.mem_reverse.mp hc))
  rw [← hzeros, ← List.reverse_append, List.takeWhile_append_dropWhile, List.reverse_reverse]

/-- The digits of a fraction, with all its zeros. -/
theorem exists_padded (places : Nat) {n : Nat} (h : n < 10 ^ places) :
    ∃ ds, Digits ds ∧ ds.length = places ∧ digitsValue ds = n ∧
      fractionDigits places n = (ds.reverse.dropWhile (· == '0')).reverse := by
  by_cases hplaces : places = 0
  · subst hplaces
    obtain rfl : n = 0 := by omega
    exact ⟨[], digits_nil, rfl, rfl, rfl⟩
  · have hlen : (Nat.toDigits 10 n).length ≤ places :=
      (Nat.length_toDigits_le_iff (by decide) (by omega)).mpr h
    refine ⟨List.replicate (places - (Nat.toDigits 10 n).length) '0' ++ Nat.toDigits 10 n,
      ?_, ?_, ?_, ?_⟩
    · exact digits_append (digits_zeros _) (digits_toDigits n)
    · rw [List.length_append, List.length_replicate]
      omega
    · rw [digitsValue_append, digitsValue_zeros, digitsValue_toDigits, Nat.zero_mul, Nat.zero_add]
    · rw [fractionDigits, if_neg hplaces]

theorem fractionDigits_spec (places : Nat) {n : Nat} (h : n < 10 ^ places) :
    ∃ k, Digits (fractionDigits places n) ∧ (fractionDigits places n).length + k = places ∧
      digitsValue (fractionDigits places n) * 10 ^ k = n := by
  obtain ⟨ds, hds, hlen, hvalue, hfraction⟩ := exists_padded places h
  obtain ⟨k, hk⟩ := exists_eq_append_zeros ds
  rw [← hfraction] at hk
  generalize fractionDigits places n = fs at hk ⊢
  subst hk
  rw [digitsValue_append, digitsValue_zeros, List.length_replicate, Nat.add_zero] at hvalue
  rw [List.length_append, List.length_replicate] at hlen
  exact ⟨k, fun c hc => hds c (List.mem_append_left _ hc), hlen, hvalue⟩

/-! ## The numeral -/

theorem decimalText_eq_sign_append (negative : Bool) (places n : Nat) :
    decimalText negative places n =
      (if negative && n != 0 then ['-'] else []) ++ decimalText false places n := by
  unfold decimalText
  simp only [Bool.false_and, Bool.false_eq_true, if_false, List.nil_append, List.append_assoc]

/-- The digits of a written number are the number, less the zeros that were dropped. -/
theorem exists_digitsValue_mul_pow (places n : Nat) :
    ∃ k, (fractionDigits places (n % 10 ^ places)).length + k = places ∧
      digitsValue (Nat.toDigits 10 (n / 10 ^ places) ++ fractionDigits places (n % 10 ^ places)) *
        10 ^ k = n := by
  have hlt : n % 10 ^ places < 10 ^ places := Nat.mod_lt n (Nat.pow_pos (by decide))
  obtain ⟨k, -, hlen, hvalue⟩ := fractionDigits_spec places hlt
  refine ⟨k, hlen, ?_⟩
  rw [digitsValue_append, digitsValue_toDigits, Nat.add_mul, hvalue, Nat.mul_assoc, ← Nat.pow_add,
    hlen, Nat.div_add_mod']

/-- The unsigned text is a numeral, and the numeral is what was rounded to the given places. -/
theorem exists_literal_decimalText (places n : Nat) :
    ∃ d k, Grammar.Literal (decimalText false places n) d ∧ d.scale + k = places ∧
      d.digits * 10 ^ k = n := by
  have hlt : n % 10 ^ places < 10 ^ places := Nat.mod_lt n (Nat.pow_pos (by decide))
  obtain ⟨-, hdigits, -, -⟩ := fractionDigits_spec places hlt
  obtain ⟨k, hlen, hvalue⟩ := exists_digitsValue_mul_pow places n
  have hwhole := digits_toDigits (n / 10 ^ places)
  refine ⟨⟨digitsValue (Nat.toDigits 10 (n / 10 ^ places) ++ fractionDigits places (n % 10 ^ places)),
    (fractionDigits places (n % 10 ^ places)).length⟩, k, ?_, hlen, hvalue⟩
  unfold decimalText
  generalize fractionDigits places (n % 10 ^ places) = fs at hdigits ⊢
  cases fs with
  | nil =>
    show Grammar.Literal (Nat.toDigits 10 (n / 10 ^ places) ++ []) _
    rw [List.append_nil]
    exact .whole Nat.toDigits_ne_nil hwhole
  | cons c fs => exact .pointed Nat.toDigits_ne_nil hwhole hdigits

namespace Binary64

theorem format_eq_ok (x : Binary64) {places : Nat} (h : places ≤ maxPlaces) :
    x.format places = .ok (x.fixed places) := if_pos h

theorem ofRatio_mul_right {c : Nat} (hc : 0 < c) (negative : Bool) (num den : Nat) :
    ofRatio negative (num * c) (den * c) = ofRatio negative num den := by
  unfold ofRatio
  simp only [roundSignificand_mul_right hc]

/-- The numeral of a written number is read as a finite number. -/
theorem ofDecimal_reread {n places k : Nat} {d : Decimal} (h : Representable n)
    (hscale : d.scale + k = places)
    (hdigits : d.digits * 10 ^ k = roundDiv (n * 10 ^ places) unitsPerOne) :
    ∃ h', ofDecimal d = .finite false (reread n places) h' := by
  have hpow : 0 < 10 ^ k := Nat.pow_pos (by decide)
  have hratio : ofDecimal d =
      ofRatio false (roundDiv (n * 10 ^ places) unitsPerOne * unitsPerOne) (10 ^ places) := by
    rw [ofDecimal, ← ofRatio_mul_right hpow, ← hdigits, ← hscale, Nat.pow_add, Nat.mul_right_comm]
  rw [hratio, ofRatio]
  have hlt := reread_lt_unitsBound h places
  rw [reread] at hlt
  exact ⟨_, dif_pos hlt⟩

end Binary64

end Reckoner
