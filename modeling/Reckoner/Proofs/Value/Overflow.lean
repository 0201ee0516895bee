/-
# Reckoner.Proofs.Value.Overflow — what a finite value says about the parts that it was made of.

Whether a value is finite is looked at once, for the whole expression. An operand that is NaN or
infinite mostly shows in the result: no operation takes NaN to a number, and only one takes an infinity
to a finite number, which is the division of a finite number by it. The result is then zero, whatever
the exact quotient would have been.

So a finite value has finite parts, but for those below a divisor that is infinite
(`Expr.evaluates_or_below_of_evaluate`). An overflow in such a divisor is not reported: a literal that
is too large divides everything to zero.
-/
import Reckoner.Proofs.Calculator
import Reckoner.Proofs.Value.Parts

namespace Reckoner

/-! ## Operations -/

namespace Binary64

variable {x y : Binary64}

theorem isFinite_neg (x : Binary64) : x.neg.isFinite = x.isFinite := by cases x <;> rfl

theorem isFinite_of_isFinite_add (h : (add x y).isFinite = true) :
    x.isFinite = true ∧ y.isFinite = true := by
  rcases x with _ | s | ⟨s, m, hm⟩ <;> rcases y with _ | t | ⟨t, n, hn⟩
  case finite.finite => exact ⟨rfl, rfl⟩
  case infinite.infinite =>
    rw [add] at h
    split at h <;> cases h
  all_goals cases h

theorem isFinite_of_isFinite_mul (h : (mul x y).isFinite = true) :
    x.isFinite = true ∧ y.isFinite = true := by
  rcases x with _ | s | ⟨s, m, hm⟩ <;> rcases y with _ | t | ⟨t, n, hn⟩
  case finite.finite => exact ⟨rfl, rfl⟩
  case infinite.finite =>
    rw [mul] at h
    split at h <;> cases h
  case finite.infinite =>
    rw [mul] at h
    split at h <;> cases h
  all_goals cases h

/-- A finite quotient is that of a finite number by a finite one, or by an infinity and then zero. -/
theorem isFinite_of_isFinite_div (h : (div x y).isFinite = true) :
    x.isFinite = true ∧
      (y.isFinite = true ∨ ∃ s t, y = .infinite s ∧ div x y = .zero t) := by
  rcases x with _ | s | ⟨s, m, hm⟩ <;> rcases y with _ | t | ⟨t, n, hn⟩
  case finite.finite => exact ⟨rfl, .inl rfl⟩
  case finite.infinite => exact ⟨rfl, .inr ⟨t, s ^^ t, rfl, rfl⟩⟩
  all_goals cases h

/-- The operands of a finite result. -/
theorem isFinite_of_isFinite_apply {op : Op} (h : (Arithmetic.apply op x y).isFinite = true) :
    x.isFinite = true ∧
      (y.isFinite = true ∨
        op = .div ∧ ∃ s t, y = .infinite s ∧ Arithmetic.apply op x y = .zero t) := by
  rcases op with _ | _ | _ | _
  · obtain ⟨hx, hy⟩ := isFinite_of_isFinite_add h
    exact ⟨hx, .inl hy⟩
  · obtain ⟨hx, hy⟩ := isFinite_of_isFinite_add h
    exact ⟨hx, .inl (isFinite_neg y ▸ hy)⟩
  · obtain ⟨hx, hy⟩ := isFinite_of_isFinite_mul h
    exact ⟨hx, .inl hy⟩
  · obtain ⟨hx, hy | hy⟩ := isFinite_of_isFinite_div h
    · exact ⟨hx, .inl hy⟩
    · exact ⟨hx, .inr ⟨rfl, hy⟩⟩

theorem neg_nan : neg nan = nan := rfl

/-- NaN stays NaN under every operator. -/
theorem apply_nan_left (op : Op) (y : Binary64) : Arithmetic.apply op nan y = nan := by
  rcases op with _ | _ | _ | _ <;> rfl

theorem apply_nan_right (op : Op) (x : Binary64) : Arithmetic.apply op x nan = nan := by
  rcases op with _ | _ | _ | _ <;> rcases x with _ | s | ⟨s, m, hm⟩ <;> rfl

end Binary64

/-! ## Expressions -/

namespace Expr

variable {e p : Expr Binary64} {v : Binary64}

/-- A value that is not NaN has no part that is NaN. -/
theorem exists_eval_ne_nan (h : e.eval = some v) (hv : v ≠ .nan) (hp : p ∈ e.parts) :
    ∃ w, p.eval = some w ∧ w ≠ .nan := by
  induction e generalizing v with
  | literal x =>
    obtain rfl := mem_parts_literal_iff.mp hp
    exact ⟨v, h, hv⟩
  | neg e ih =>
    rcases mem_parts_neg_iff.mp hp with rfl | he
    · exact ⟨v, h, hv⟩
    obtain ⟨x, hx, rfl⟩ := eval_neg_eq_some_iff.mp h
    refine ih hx ?_ he
    rintro rfl
    exact hv Binary64.neg_nan
  | binary op l r ihl ihr =>
    obtain ⟨x, y, hx, hy, -, rfl⟩ := eval_binary_eq_some_iff.mp h
    rcases mem_parts_binary_iff.mp hp with rfl | hl | hr
    · exact ⟨_, h, hv⟩
    · refine ihl hx ?_ hl
      rintro rfl
      exact hv (Binary64.apply_nan_left op y)
    · refine ihr hy ?_ hr
      rintro rfl
      exact hv (Binary64.apply_nan_right op x)

/-- **`p.BelowInfinite e`** — the part stands in an infinite divisor, and the quotient is zero. -/
def BelowInfinite (p e : Expr Binary64) : Prop :=
  ∃ l r s t, binary .div l r ∈ e.parts ∧ p ∈ r.parts ∧ r.eval = some (.infinite s) ∧
    (binary .div l r).evaluate = .ok (.zero t)

theorem BelowInfinite.mono {d : Expr Binary64} (h : p.BelowInfinite d) (hd : d ∈ e.parts) :
    p.BelowInfinite e := by
  obtain ⟨l, r, s, t, hdiv, hp, hr, hzero⟩ := h
  exact ⟨l, r, s, t, mem_parts_trans hdiv hd, hp, hr, hzero⟩

/-- Every part of a finite value is finite, or it stands in an infinite divisor. -/
theorem evaluates_or_below_of_evaluate (h : e.evaluate = .ok v) (hp : p ∈ e.parts) :
    (∃ w, p.evaluate = .ok w) ∨ p.BelowInfinite e := by
  induction e generalizing v with
  | literal x =>
    obtain rfl := mem_parts_literal_iff.mp hp
    exact .inl ⟨v, h⟩
  | neg e ih =>
    rcases mem_parts_neg_iff.mp hp with rfl | he
    · exact .inl ⟨v, h⟩
    obtain ⟨hv, hfinite⟩ := evaluate_eq_ok_iff.mp h
    obtain ⟨x, hx, rfl⟩ := eval_neg_eq_some_iff.mp hv
    have hoperand : e.evaluate = .ok x :=
      evaluate_eq_ok_iff.mpr ⟨hx, Binary64.isFinite_neg x ▸ hfinite⟩
    have hmem : e ∈ (neg e).parts := mem_parts_neg_iff.mpr (.inr e.mem_parts_self)
    exact (ih hoperand he).imp_right fun hbelow => hbelow.mono hmem
  | binary op l r ihl ihr =>
    obtain ⟨hv, hfinite⟩ := evaluate_eq_ok_iff.mp h
    obtain ⟨x, y, hx, hy, -, rfl⟩ := eval_binary_eq_some_iff.mp hv
    obtain ⟨hxfinite, hdivisor⟩ := Binary64.isFinite_of_isFinite_apply hfinite
    have hleft : l.evaluate = .ok x := evaluate_eq_ok_iff.mpr ⟨hx, hxfinite⟩
    rcases mem_parts_binary_iff.mp hp with rfl | hl | hr
    · exact .inl ⟨_, h⟩
    · have hmem : l ∈ (binary op l r).parts :=
        mem_parts_binary_iff.mpr (.inr (.inl l.mem_parts_self))
      exact (ihl hleft hl).imp_right fun hbelow => hbelow.mono hmem
    · rcases hdivisor with hyfinite | ⟨rfl, s, t, rfl, hzero⟩
      · have hmem := right_mem_parts (binary op l r).mem_parts_self
        have hright : r.evaluate = .ok y := evaluate_eq_ok_iff.mpr ⟨hy, hyfinite⟩
        exact (ihr hright hr).imp_right fun hbelow => hbelow.mono hmem
      · -- here the overflow of the divisor ends
        rw [hzero] at h
        exact .inr ⟨l, r, s, t, mem_parts_self _, hr, hy, h⟩

/-- So all parts are finite just if no divisor is infinite. -/
theorem forall_evaluates_iff (h : e.evaluate = .ok v) :
    (∀ p ∈ e.parts, ∃ w, p.evaluate = .ok w) ↔
      ∀ l r, binary .div l r ∈ e.parts → ∀ s, r.eval ≠ some (.infinite s) := by
  constructor
  · intro hparts l r hdiv s hr
    obtain ⟨w, hw⟩ := hparts r (right_mem_parts hdiv)
    obtain ⟨hvalue, hfinite⟩ := evaluate_eq_ok_iff.mp hw
    rw [hr] at hvalue
    obtain rfl := Option.some.inj hvalue
    cases hfinite
  · intro hdivisors p hp
    rcases evaluates_or_below_of_evaluate h hp with hfinite | ⟨l, r, s, t, hdiv, -, hr, -⟩
    · exact hfinite
    · exact absurd hr (hdivisors l r hdiv s)

end Expr

/-! ## Texts -/


/-- **`evaluate_parts`** — where a text has a value, no part of its expression is NaN or a division by
zero. Each part is finite too, unless it stands in an infinite divisor, by which a finite number is
divided to zero. So all parts are finite just if no divisor is infinite. -/
theorem evaluate_parts {text : String} {v : Binary64} (h : evaluate text = .ok v) :
    ∃ e, Expr.parse text = .ok e ∧
      (∀ p ∈ e.parts, ∃ w, p.eval = some w ∧ w ≠ .nan) ∧
      (∀ p ∈ e.parts, (∃ w, p.evaluate = .ok w) ∨ p.BelowInfinite e) ∧
      ((∀ p ∈ e.parts, ∃ w, p.evaluate = .ok w) ↔
        ∀ l r, .binary .div l r ∈ e.parts → ∀ s, r.eval ≠ some (.infinite s)) := by
  obtain ⟨e, hparse, hv, hfinite⟩ := evaluate_eq_ok_iff.mp h
  have he : e.evaluate = .ok v := Expr.evaluate_eq_ok_iff.mpr ⟨hv, hfinite⟩
  have hnan : v ≠ .nan := by
    rintro rfl
    cases hfinite
  refine ⟨e, hparse, fun p hp => ?_, fun p hp => ?_, ?_⟩
  · exact Expr.exists_eval_ne_nan hv hnan hp
  · exact Expr.evaluates_or_below_of_evaluate he hp
  · exact Expr.forall_evaluates_iff he

/-- **`tenTo k`** — the numeral of a power of ten. -/
def tenTo (k : Nat) : List Char := '1' :: List.replicate k '0'

/-- A product overflows, and two divided by it is nothing that could be taken from seven. -/
theorem evaluate_parts_of_overflow :
    evaluate (.ofList ("7-2/-(10*".toList ++ tenTo 308 ++ [')'])) = .ok (.ofNat 7) ∧
      ∃ e, Expr.parse (.ofList ("7-2/-(10*".toList ++ tenTo 308 ++ [')'])) = .ok e ∧
        (∀ p ∈ e.parts, ∃ w, p.eval = some w ∧ w ≠ .nan) ∧
        ∀ p ∈ e.parts, (∃ w, p.evaluate = .ok w) ∨ p.BelowInfinite e := by
  have hread : Expr.parseDecimal ("7-2/-(10*".toList ++ tenTo 308 ++ [')']) =
      .ok (.binary .sub (.literal ⟨7, 0⟩) (.binary .div (.literal ⟨2, 0⟩)
        (.neg (.binary .mul (.literal ⟨10, 0⟩) (.literal ⟨10 ^ 308, 0⟩))))) :=
    Config.eq_ok_of_toOption_eq_some (by decide +kernel)
  have hparse := Expr.parse_ofList_eq_ok_iff.mpr ⟨_, hread, rfl⟩
  have h : evaluate (.ofList ("7-2/-(10*".toList ++ tenTo 308 ++ [')'])) = .ok (.ofNat 7) :=
    evaluate_eq_ok_iff.mpr ⟨_, hparse, by decide +kernel, by decide +kernel⟩
  obtain ⟨e, he, hnan, hbelow, -⟩ := evaluate_parts h
  exact ⟨h, e, he, hnan, hbelow⟩

/-- A quotient whose exact value is one tenth comes out as zero, because the divisor is too large. -/
theorem evaluate_divides_by_overflow :
    evaluate (.ofList (tenTo 308 ++ '/' :: tenTo 309)) = .ok (.zero false) ∧
      ∃ e p, Expr.parse (.ofList (tenTo 308 ++ '/' :: tenTo 309)) = .ok e ∧ p ∈ e.parts ∧
        p.evaluate = .error (.invalid .notFinite) := by
  have hread : Expr.parseDecimal (tenTo 308 ++ '/' :: tenTo 309) =
      .ok (.binary .div (.literal ⟨10 ^ 308, 0⟩) (.literal ⟨10 ^ 309, 0⟩)) :=
    Config.eq_ok_of_toOption_eq_some (by decide +kernel)
  have hparse := Expr.parse_ofList_eq_ok_iff.mpr ⟨_, hread, rfl⟩
  have hdivisor : Binary64.ofDecimal ⟨10 ^ 309, 0⟩ = .infinite false := by decide +kernel
  refine ⟨?_, _, .literal (.infinite false), hparse, ?_, ?_⟩
  · exact evaluate_eq_ok_iff.mpr ⟨_, hparse, by decide +kernel, rfl⟩
  · rw [← hdivisor]
    exact Expr.right_mem_parts (Expr.mem_parts_self _)
  · rw [Expr.evaluate_eq]
    rfl

end Reckoner
