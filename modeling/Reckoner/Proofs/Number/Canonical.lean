/-
# Reckoner.Proofs.Number.Canonical — one numeral for each value, and that numeral is written.

A `Canonical` numeral has no zero that could be left out: none in front of the integer part but a zero
that is all of it, and none at the end of the fraction. It has a point in front of a fraction only, and
a sign in front of a nonzero number only. Nothing is said of how it is found. So these rules leave no
choice: canonical numerals of one value are the same (`Canonical.eq_of_value_eq`).

`decimalText` writes such a numeral, of the value that it is asked for (`exists_canonical`).
-/
import Mathlib.Algebra.Order.Field.Basic
import Mathlib.Algebra.Order.Ring.Rat
import Mathlib.Tactic.Positivity
import Reckoner.Proofs.Number.Rational

namespace Reckoner

/-! ## Digits and their positions -/

theorem digitsValue_cons (c : Char) (cs : List Char) :
    digitsValue (c :: cs) = digitValue c * 10 ^ cs.length + digitsValue cs := by
  have h := digitsValue_append [c] cs
  rw [List.singleton_append] at h
  rw [h, digitsValue_singleton]

theorem digitValue_lt {c : Char} (hc : c.isDigit = true) : digitValue c < 10 := by
  obtain ⟨hle, hge⟩ := isDigit_iff_toNat.mp hc
  show c.toNat - 48 < 10
  omega

theorem digitValue_pos {c : Char} (hc : c.isDigit = true) (hne : c ≠ '0') : 0 < digitValue c := by
  obtain ⟨hle, hge⟩ := isDigit_iff_toNat.mp hc
  have hzero : c.toNat ≠ 48 := fun h => hne (Char.toNat_inj.mp h)
  show 0 < c.toNat - 48
  omega

theorem digitValue_injective {c d : Char} (hc : c.isDigit = true) (hd : d.isDigit = true)
    (h : digitValue c = digitValue d) : c = d := by
  obtain ⟨hc, -⟩ := isDigit_iff_toNat.mp hc
  obtain ⟨hd, -⟩ := isDigit_iff_toNat.mp hd
  have h : c.toNat - 48 = d.toNat - 48 := h
  exact Char.toNat_inj.mp (by omega)

theorem digitsValue_lt {ds : List Char} (h : Digits ds) : digitsValue ds < 10 ^ ds.length := by
  induction ds with
  | nil => exact Nat.one_pos
  | cons c ds ih =>
    obtain ⟨hc, hds⟩ := digits_cons.mp h
    have hstep := add_den_le_mul (digitValue_lt hc) (10 ^ ds.length)
    rw [digitsValue_cons, List.length_cons, Nat.pow_succ']
    exact Nat.lt_of_lt_of_le (Nat.add_lt_add_left (ih hds) _) hstep

/-- A number is split in one way into a multiple and a rest. -/
theorem mul_add_inj {a b m n k : Nat} (hm : m < k) (hn : n < k) (h : a * k + m = b * k + n) :
    a = b ∧ m = n := by
  have hab : a = b := by
    rcases Nat.lt_trichotomy a b with hlt | heq | hgt
    · have hstep := add_den_le_mul hlt k
      omega
    · exact heq
    · have hstep := add_den_le_mul hgt k
      omega
  subst hab
  exact ⟨rfl, Nat.add_left_cancel h⟩

theorem eq_of_digitsValue_eq {as bs : List Char} (ha : Digits as) (hb : Digits bs)
    (hlen : as.length = bs.length) (h : digitsValue as = digitsValue bs) : as = bs := by
  induction as generalizing bs with
  | nil => exact (List.length_eq_zero_iff.mp hlen.symm).symm
  | cons c as ih =>
    obtain ⟨d, bs, rfl⟩ := List.exists_cons_of_length_eq_add_one hlen.symm
    obtain ⟨hc, has⟩ := digits_cons.mp ha
    obtain ⟨hd, hbs⟩ := digits_cons.mp hb
    have hlen : as.length = bs.length := Nat.succ.inj hlen
    have hb := digitsValue_lt hbs
    rw [digitsValue_cons, digitsValue_cons, hlen] at h
    rw [← hlen] at hb h
    obtain ⟨hhead, htail⟩ := mul_add_inj (digitsValue_lt has) hb h
    rw [digitValue_injective hc hd hhead, ih has hbs hlen htail]

/-! ## Zeros that could be left out -/

/-- **`Leading ds`** — digits without a superfluous zero in front. -/
structure Leading (ds : List Char) : Prop where
  digits : Digits ds
  ne_nil : ds ≠ []
  eq_of_zero : ds.head? = some '0' → ds = ['0']

/-- **`Trailing ds`** — digits without a zero at the end. -/
structure Trailing (ds : List Char) : Prop where
  digits : Digits ds
  getLast?_ne : ds.getLast? ≠ some '0'

variable {as bs ds : List Char}

/-- The value is below the next power of ten, and reaches the one before unless it is zero. -/
theorem Leading.pow_le (h : Leading ds) (hvalue : digitsValue ds ≠ 0) :
    10 ^ (ds.length - 1) ≤ digitsValue ds := by
  obtain ⟨c, cs, rfl⟩ := List.exists_cons_of_ne_nil h.ne_nil
  have hne : c ≠ '0' := by
    rintro rfl
    rw [h.eq_of_zero rfl] at hvalue
    exact hvalue rfl
  have hpos := digitValue_pos (digits_cons.mp h.digits).1 hne
  rw [digitsValue_cons, List.length_cons, Nat.add_sub_cancel]
  exact Nat.le_add_right_of_le (Nat.le_mul_of_pos_left _ hpos)

theorem Leading.eq_zero (h : Leading ds) (hvalue : digitsValue ds = 0) : ds = ['0'] := by
  obtain ⟨c, cs, rfl⟩ := List.exists_cons_of_ne_nil h.ne_nil
  by_cases hc : c = '0'
  · exact h.eq_of_zero (by rw [hc]; rfl)
  · have hpos := digitValue_pos (digits_cons.mp h.digits).1 hc
    have hle := Nat.mul_pos hpos (Nat.pow_pos (n := cs.length) (by decide : 0 < 10))
    rw [digitsValue_cons] at hvalue
    omega

theorem Leading.length_le (ha : Leading as) (hb : Leading bs)
    (h : digitsValue as = digitsValue bs) : as.length ≤ bs.length := by
  by_cases hzero : digitsValue as = 0
  · rw [ha.eq_zero hzero, hb.eq_zero (h ▸ hzero)]
  · have hlt := Nat.lt_of_le_of_lt (ha.pow_le hzero) (h ▸ digitsValue_lt hb.digits)
    have hexp := (Nat.pow_lt_pow_iff_right (by decide)).mp hlt
    omega

theorem Leading.eq_of_digitsValue_eq (ha : Leading as) (hb : Leading bs)
    (h : digitsValue as = digitsValue bs) : as = bs :=
  Reckoner.eq_of_digitsValue_eq ha.digits hb.digits
    (Nat.le_antisymm (ha.length_le hb h) (hb.length_le ha h.symm)) h

/-- Of two equal fractions, neither has digits that the other has not. -/
theorem Trailing.length_le (ha : Trailing as) (hb : Trailing bs)
    (h : digitsValue as * 10 ^ bs.length = digitsValue bs * 10 ^ as.length) :
    bs.length ≤ as.length := by
  by_contra hlt
  have hlt : as.length < bs.length := Nat.lt_of_not_le hlt
  -- padded to the length of the other it is the other, which would end with a zero then
  have hlen : as.length + (bs.length - as.length) = bs.length := Nat.add_sub_cancel' hlt.le
  have hpadded : as ++ List.replicate (bs.length - as.length) '0' = bs := by
    refine Reckoner.eq_of_digitsValue_eq (digits_append ha.digits (digits_zeros _)) hb.digits ?_ ?_
    · rw [List.length_append, List.length_replicate, hlen]
    · rw [digitsValue_append, digitsValue_zeros, List.length_replicate, Nat.add_zero]
      refine Nat.eq_of_mul_eq_mul_right (Nat.pow_pos (by decide) : 0 < 10 ^ as.length) ?_
      rw [Nat.mul_assoc, ← Nat.pow_add, Nat.add_comm (bs.length - as.length), hlen, h]
  obtain ⟨k, hk⟩ := Nat.exists_eq_add_of_lt hlt
  rw [show bs.length - as.length = k + 1 by omega, List.replicate_succ', ← List.append_assoc] at hpadded
  exact hb.getLast?_ne (by rw [← hpadded, List.getLast?_concat])

theorem Trailing.eq_of_digitsValue_eq (ha : Trailing as) (hb : Trailing bs)
    (h : digitsValue as * 10 ^ bs.length = digitsValue bs * 10 ^ as.length) : as = bs := by
  have hlen := Nat.le_antisymm (hb.length_le ha h.symm) (ha.length_le hb h)
  rw [hlen] at h
  exact Reckoner.eq_of_digitsValue_eq ha.digits hb.digits hlen
    (Nat.eq_of_mul_eq_mul_right (Nat.pow_pos (by decide)) h)

theorem trailing_nil : Trailing [] := ⟨digits_nil, by decide⟩

theorem Trailing.eq_nil (h : Trailing ds) (hvalue : digitsValue ds = 0) : ds = [] :=
  h.eq_of_digitsValue_eq trailing_nil (by rw [hvalue, Nat.zero_mul]; exact (Nat.zero_mul _).symm)

/-! ## Canonical numerals -/

/-- **`Canonical places`** — a numeral with at most that many places behind the point, without anything
that could be left out. -/
structure Canonical (places : Nat) where
  negative : Bool
  whole : List Char
  fraction : List Char
  leading : Leading whole
  trailing : Trailing fraction
  length_le : fraction.length ≤ places
  signed_ne_zero : negative = true → digitsValue (whole ++ fraction) ≠ 0

namespace Canonical

variable {places : Nat} {m n : Canonical places}

/-- **`n.text`** — the numeral as it is written. -/
def text (n : Canonical places) : List Char :=
  (if n.negative then ['-'] else []) ++ n.whole ++
    if n.fraction.isEmpty then [] else '.' :: n.fraction

/-- **`n.decimal`** — the numeral without its sign. -/
def decimal (n : Canonical places) : Decimal :=
  ⟨digitsValue (n.whole ++ n.fraction), n.fraction.length⟩

/-- **`n.value`** — the number that the numeral is written for. -/
def value (n : Canonical places) : ℚ :=
  if n.negative then -n.decimal.toRat else n.decimal.toRat

theorem decimal_toRat_nonneg (n : Canonical places) : 0 ≤ n.decimal.toRat :=
  div_nonneg (Nat.cast_nonneg _) (pow_nonneg (by norm_num) _)

theorem abs_value (n : Canonical places) : |n.value| = n.decimal.toRat := by
  rw [value]
  split
  · rw [abs_neg, abs_of_nonneg n.decimal_toRat_nonneg]
  · exact abs_of_nonneg n.decimal_toRat_nonneg

/-- Only a number below zero has a sign. -/
theorem negative_iff (n : Canonical places) : n.negative = true ↔ n.value < 0 := by
  rw [value]
  constructor
  · intro h
    have hdigits : (0 : ℚ) < n.decimal.digits :=
      Nat.cast_pos.mpr (Nat.pos_of_ne_zero (n.signed_ne_zero h))
    rw [if_pos h, neg_lt_zero]
    exact div_pos hdigits (pow_pos (by norm_num) _)
  · intro h
    by_contra hneg
    rw [if_neg hneg] at h
    exact absurd n.decimal_toRat_nonneg (not_le.mpr h)

theorem digits_eq (n : Canonical places) :
    n.decimal.digits = digitsValue n.whole * 10 ^ n.fraction.length + digitsValue n.fraction :=
  digitsValue_append ..

/-- Canonical numerals of one value are the same. -/
theorem eq_of_value_eq (h : m.value = n.value) : m = n := by
  have hnegative : m.negative = n.negative := by
    rw [Bool.eq_iff_iff, negative_iff, negative_iff, h]
  have hdigits : m.decimal.digits * 10 ^ n.fraction.length =
      n.decimal.digits * 10 ^ m.fraction.length := by
    have htoRat : m.decimal.toRat = n.decimal.toRat := by rw [← abs_value, h, abs_value]
    rw [Decimal.toRat, Decimal.toRat, div_eq_div_iff (by positivity) (by positivity)] at htoRat
    exact_mod_cast htoRat
  -- the integer parts and the fractions agree, both over the product of the two denominators
  have hm := Nat.mul_lt_mul_of_pos_right (digitsValue_lt m.trailing.digits)
    (Nat.pow_pos (by decide) : 0 < 10 ^ n.fraction.length)
  have hn := Nat.mul_lt_mul_of_pos_right (digitsValue_lt n.trailing.digits)
    (Nat.pow_pos (by decide) : 0 < 10 ^ m.fraction.length)
  rw [digits_eq, digits_eq, Nat.add_mul, Nat.add_mul, Nat.mul_assoc, Nat.mul_assoc,
    Nat.mul_comm (10 ^ n.fraction.length)] at hdigits
  rw [Nat.mul_comm (10 ^ n.fraction.length)] at hn
  obtain ⟨hwhole, hfraction⟩ := mul_add_inj hm hn hdigits
  have hwhole := m.leading.eq_of_digitsValue_eq n.leading hwhole
  have hfraction := m.trailing.eq_of_digitsValue_eq n.trailing hfraction
  obtain ⟨_, _, _, _, _, _, _⟩ := m
  obtain ⟨_, _, _, _, _, _, _⟩ := n
  subst hnegative hwhole hfraction
  rfl

/-- The fraction is empty just if the value is an integer. -/
theorem fraction_eq_nil_iff (n : Canonical places) : n.fraction = [] ↔ ∃ i : ℤ, n.value = i := by
  constructor
  · intro h
    refine ⟨Binary64.signed n.negative n.decimal.digits, ?_⟩
    rw [value, Decimal.toRat, show n.decimal.scale = 0 from congrArg List.length h, pow_zero, div_one]
    cases n.negative <;> simp [Binary64.signed]
  · rintro ⟨i, hi⟩
    have htoRat : n.decimal.toRat = i.natAbs := by
      rw [← abs_value, hi, Nat.cast_natAbs, Int.cast_abs]
    rw [Decimal.toRat, div_eq_iff (by positivity)] at htoRat
    have hdigits : n.decimal.digits = i.natAbs * 10 ^ n.fraction.length := by exact_mod_cast htoRat
    rw [digits_eq] at hdigits
    obtain ⟨-, hfraction⟩ := mul_add_inj (n := 0) (digitsValue_lt n.trailing.digits)
      (Nat.pow_pos (by decide)) hdigits
    exact n.trailing.eq_nil hfraction

theorem point_mem_text_iff (n : Canonical places) : '.' ∈ n.text ↔ n.fraction ≠ [] := by
  have hnone {ds : List Char} (h : Digits ds) : '.' ∉ ds := fun hmem => by cases h '.' hmem
  have hwhole := hnone n.leading.digits
  rw [text]
  rcases n.fraction with _ | ⟨c, cs⟩ <;> cases n.negative <;> simp [hwhole]

theorem text_of_value_eq_zero (h : n.value = 0) : n.text = ['0'] := by
  have hnegative : n.negative = false := by
    rw [Bool.eq_false_iff, ne_eq, negative_iff, h]
    exact lt_irrefl 0
  have hfraction : n.fraction = [] := n.fraction_eq_nil_iff.mpr ⟨0, by rw [h, Int.cast_zero]⟩
  have hwhole : n.whole = ['0'] := by
    have htoRat := n.abs_value
    rw [h, abs_zero, Decimal.toRat, eq_comm, div_eq_zero_iff, or_iff_left (by positivity)] at htoRat
    have hdigits : n.decimal.digits = 0 := by exact_mod_cast htoRat
    rw [decimal, hfraction, List.append_nil] at hdigits
    exact n.leading.eq_zero hdigits
  rw [text, hnegative, hwhole, hfraction]
  rfl

end Canonical

/-! ## The numeral that is written -/

theorem leading_toDigits (n : Nat) : Leading (Nat.toDigits 10 n) := by
  refine ⟨digits_toDigits n, Nat.toDigits_ne_nil, ?_⟩
  induction n using Nat.strongRecOn with
  | ind n ih =>
    intro hzero
    by_cases hn : n < 10
    · rw [Nat.toDigits_of_lt_base hn] at hzero ⊢
      rw [Option.some.inj hzero]
    · -- the leading digit is that of the number without its last digit
      have hn : 10 ≤ n := Nat.le_of_not_lt hn
      rw [Nat.toDigits_of_base_le (by decide) hn,
        List.head?_append_of_ne_nil _ Nat.toDigits_ne_nil] at hzero
      have hdiv := congrArg digitsValue (ih (n / 10) (by omega) hzero)
      rw [digitsValue_toDigits] at hdiv
      change n / 10 = 0 at hdiv
      omega

theorem trailing_fractionDigits {places n : Nat} (h : n < 10 ^ places) :
    Trailing (fractionDigits places n) := by
  obtain ⟨k, hdigits, -, -⟩ := fractionDigits_spec places h
  obtain ⟨ds, -, -, -, hfraction⟩ := exists_padded places h
  refine ⟨hdigits, fun hlast => ?_⟩
  rw [hfraction, List.getLast?_reverse] at hlast
  have hhead := List.head?_dropWhile_not (· == '0') ds.reverse
  rw [hlast] at hhead
  cases hhead

/-- Zeros at the end of a fraction do not count. -/
theorem Decimal.toRat_eq_of_pad {d : Decimal} {n p k : Nat} (hdigits : d.digits * 10 ^ k = n)
    (hscale : d.scale + k = p) : d.toRat = n / 10 ^ p := by
  have hpow : (10 : ℚ) ^ k ≠ 0 := by positivity
  rw [toRat, ← hdigits, ← hscale, pow_add]
  push_cast
  exact (mul_div_mul_right _ _ hpow).symm

/-- A written numeral is canonical. -/
theorem exists_canonical (negative : Bool) {p places : Nat} (hp : p ≤ places) (n : Nat) :
    ∃ numeral : Canonical places, numeral.text = decimalText negative p n ∧
      numeral.value = Binary64.signed negative n / 10 ^ p := by
  have hlt : n % 10 ^ p < 10 ^ p := Nat.mod_lt n (Nat.pow_pos (by decide))
  obtain ⟨k, hlen, hall⟩ := exists_digitsValue_mul_pow p n
  refine ⟨⟨negative && n != 0, _, _, leading_toDigits (n / 10 ^ p), trailing_fractionDigits hlt,
    by omega, ?_⟩, rfl, ?_⟩
  · intro hsign hzero
    rw [hzero, Nat.zero_mul] at hall
    rw [← hall] at hsign
    simp at hsign
  · show (if _ then -Decimal.toRat ⟨_, _⟩ else Decimal.toRat ⟨_, _⟩) = _
    rw [Decimal.toRat_eq_of_pad (k := k) hall hlen]
    rcases negative with _ | _
    · simp [Binary64.signed]
    · rcases Nat.eq_zero_or_pos n with rfl | hpos
      · simp [Binary64.signed]
      · simp [Binary64.signed, hpos.ne', neg_div]

end Reckoner
