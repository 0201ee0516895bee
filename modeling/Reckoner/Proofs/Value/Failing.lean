/-
# Reckoner.Proofs.Value.Failing — which expressions fail, and with which failure.

An evaluation looks for a zero at every divisor and for a number that is not finite at its end only. So
an expression fails with a division by zero just if there is one anywhere in it. It fails for its value
just if there is none and the value is NaN or an infinity; and it fails in no other way.

The two failures do not get in each other's way. What is not finite on the way is a value like any
other, so it neither stops the evaluation nor keeps it from a division by zero elsewhere.
-/
import Reckoner.Proofs.Value.Parts

namespace Reckoner

namespace Binary64

variable {x : Binary64}

theorem isZero_iff_eq_zero : x.isZero = true ↔ ∃ s, x = zero s := by
  constructor
  · intro h
    rcases x with _ | s | ⟨s, n, hn⟩
    · cases h
    · cases h
    · obtain rfl : n = 0 := beq_iff_eq.mp h
      exact ⟨s, rfl⟩
  · rintro ⟨s, rfl⟩
    rfl

theorem isFinite_eq_false_iff : x.isFinite = false ↔ x = nan ∨ ∃ s, x = infinite s := by
  constructor
  · intro h
    rcases x with _ | s | ⟨s, n, hn⟩
    · exact .inl rfl
    · exact .inr ⟨s, rfl⟩
    · cases h
  · rintro (rfl | ⟨s, rfl⟩) <;> rfl

end Binary64

namespace Expr

variable {e : Expr Binary64}

/-- Over binary64 numbers, a division by zero is one by a zero of either sign. -/
theorem dividesByZero_iff :
    e.DividesByZero ↔ ∃ l r s, binary .div l r ∈ e.parts ∧ r.eval = some (.zero s) := by
  constructor
  · rintro ⟨l, r, y, hdiv, hy, hzero⟩
    obtain ⟨s, rfl⟩ := Binary64.isZero_iff_eq_zero.mp hzero
    exact ⟨l, r, s, hdiv, hy⟩
  · rintro ⟨l, r, s, hdiv, hy⟩
    exact ⟨l, r, _, hdiv, hy, Binary64.isZero_iff_eq_zero.mpr ⟨s, rfl⟩⟩

theorem evaluate_eq_divisionByZero_iff :
    e.evaluate = .error .divisionByZero ↔ e.DividesByZero := by
  rw [← eval_eq_none_iff, evaluate_eq]
  cases e.eval with
  | none => exact ⟨fun _ => rfl, fun _ => rfl⟩
  | some v =>
    constructor
    · intro h
      dsimp only at h
      split at h <;> cases h
    · intro h
      cases h

theorem evaluate_eq_notFinite_iff :
    e.evaluate = .error (.invalid .notFinite) ↔ ∃ v, e.eval = some v ∧ v.isFinite = false := by
  rw [evaluate_eq]
  cases e.eval with
  | none =>
    constructor
    · intro h
      cases h
    · rintro ⟨v, hv, -⟩
      cases hv
  | some v =>
    constructor
    · intro h
      refine ⟨v, rfl, Bool.eq_false_iff.mpr fun hfinite => ?_⟩
      dsimp only at h
      rw [if_pos hfinite] at h
      cases h
    · rintro ⟨w, hw, hfinite⟩
      obtain rfl := Option.some.inj hw
      dsimp only
      rw [hfinite]
      rfl

theorem evaluate_eq_error {failure : Failure} (h : e.evaluate = .error failure) :
    failure = .divisionByZero ∨ failure = .invalid .notFinite := by
  rw [evaluate_eq] at h
  cases hv : e.eval with
  | none =>
    rw [hv] at h
    exact .inl (Except.error.inj h).symm
  | some v =>
    rw [hv] at h
    dsimp only at h
    split at h
    · cases h
    · exact .inr (Except.error.inj h).symm

/-- **`evaluate_fails`** — an expression fails with a division by zero just if somewhere in it something
is divided by an operand whose value is a zero of either sign. It fails because its value is not finite
just if there is no such division and the value is NaN or an infinity. There is no other failure, and
none that a part of it has with a division by zero is hidden by what stands around the part. -/
theorem evaluate_fails (e : Expr Binary64) :
    (e.evaluate = .error .divisionByZero ↔
      ∃ l r s, binary .div l r ∈ e.parts ∧ r.eval = some (.zero s)) ∧
    (e.evaluate = .error (.invalid .notFinite) ↔
      (¬ ∃ l r s, binary .div l r ∈ e.parts ∧ r.eval = some (.zero s)) ∧
        (e.eval = some .nan ∨ ∃ s, e.eval = some (.infinite s))) ∧
    (∀ failure, e.evaluate = .error failure →
      failure = .divisionByZero ∨ failure = .invalid .notFinite) ∧
    ∀ p ∈ e.parts, p.evaluate = .error .divisionByZero → e.evaluate = .error .divisionByZero := by
  refine ⟨?_, ?_, fun failure h => evaluate_eq_error h, fun p hp h => ?_⟩
  · rw [evaluate_eq_divisionByZero_iff, dividesByZero_iff]
  · rw [evaluate_eq_notFinite_iff, ← dividesByZero_iff, ← eval_eq_none_iff]
    constructor
    · rintro ⟨v, hv, hfinite⟩
      rw [hv]
      refine ⟨Option.some_ne_none v, ?_⟩
      rcases Binary64.isFinite_eq_false_iff.mp hfinite with rfl | ⟨s, rfl⟩
      · exact .inl rfl
      · exact .inr ⟨s, rfl⟩
    · rintro ⟨-, hv | ⟨s, hv⟩⟩
      · exact ⟨_, hv, rfl⟩
      · exact ⟨_, hv, rfl⟩
  · rw [evaluate_eq_divisionByZero_iff] at h ⊢
    exact h.mono hp

/-- Infinities and NaN stand in front of, in and around the division by a negative zero. -/
example : (binary .sub (.literal .nan) (binary .mul (.literal (.infinite false))
    (binary .div (.literal (.infinite true)) (.neg (.literal (.zero false)))))).evaluate =
      .error .divisionByZero := by
  rw [evaluate_eq]
  rfl

end Expr

end Reckoner
