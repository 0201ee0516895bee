/-
# Reckoner.Proofs.Value.Exact — the exact value of an expression, and when evaluation finds it.

The expression that a text is written for has an exact value, which is the rational number that its
operators make of its numerals. Evaluation computes it with one rounding for each numeral and for each
operation. Where nothing has to be rounded, because the exact value of each part is that of some
binary64 number, the result is the exact value (`evaluate_exact`).

Nothing is refused then that has an exact value: zeros of either sign denote zero and nothing else does,
so a divisor is found to be zero only where it is.
-/
import Reckoner.Proofs.Calculator
import Reckoner.Proofs.Number.Rational
import Reckoner.Proofs.Value.Parts

namespace Reckoner

/-- **`op.exact p q`** — the result of an operator on two rational numbers. -/
def Op.exact : Op → ℚ → ℚ → ℚ
  | add, p, q => p + q
  | sub, p, q => p - q
  | mul, p, q => p * q
  | div, p, q => p / q

theorem Binary64.Denotes.apply {op : Op} {x y : Binary64} {p q : ℚ} (hx : x.Denotes p)
    (hy : y.Denotes q) (hzero : op = .div → q ≠ 0) (h : IsBinary64 (op.exact p q)) :
    (Arithmetic.apply op x y).Denotes (op.exact p q) := by
  rcases op with _ | _ | _ | _
  · exact hx.add hy h
  · exact hx.sub hy h
  · exact hx.mul hy h
  · exact hx.div hy (hzero rfl) h

namespace Expr

variable {d l r : Expr Decimal}

/-- **`d.exactValue`** — the exact value of an expression. Where something is divided by zero it means
nothing. -/
def exactValue : Expr Decimal → ℚ
  | literal n => n.toRat
  | neg e => -e.exactValue
  | binary op l r => op.exact l.exactValue r.exactValue

/-- **`d.IsExact`** — the exact value of each part of the expression is that of a binary64 number. -/
def IsExact (d : Expr Decimal) : Prop := ∀ p ∈ d.parts, IsBinary64 p.exactValue

theorem IsExact.of_mem (h : d.IsExact) (hl : l ∈ d.parts) : l.IsExact :=
  fun p hp => h p (mem_parts_trans hp hl)

/-- Fractions with a power of two below a numerator of 53 bits are exact. The list has a sign, a
numerator and an exponent for each part. -/
theorem IsExact.of_fractions (values : List (Bool × Nat × Nat))
    (hvalues : d.parts.map exactValue =
      values.map fun (s, m, k) => (Binary64.signed s m : ℚ) / 2 ^ k)
    (hbounds : ∀ value ∈ values, value.2.1 < 2 ^ 53 ∧ value.2.2 ≤ 1074) : d.IsExact := by
  intro p hp
  have hmem : p.exactValue ∈ d.parts.map exactValue := List.mem_map_of_mem hp
  rw [hvalues] at hmem
  obtain ⟨⟨s, m, k⟩, hmem, heq⟩ := List.mem_map.mp hmem
  rw [← heq]
  exact Binary64.isBinary64_div_pow s (hbounds _ hmem).1 (hbounds _ hmem).2

/-- Where no part has to be rounded, the value is the exact one. -/
theorem exists_eval_denotes (hdivisors : ∀ l r, binary .div l r ∈ d.parts → r.exactValue ≠ 0)
    (hexact : d.IsExact) :
    ∃ v, (d.map Binary64.ofDecimal).eval = some v ∧ v.Denotes d.exactValue := by
  induction d with
  | literal n =>
    exact ⟨_, rfl, Binary64.denotes_ofDecimal (hexact _ (mem_parts_self _))⟩
  | neg d ih =>
    have hmem : d ∈ (neg d).parts := mem_parts_neg_iff.mpr (.inr d.mem_parts_self)
    obtain ⟨x, hx, hvalue⟩ :=
      ih (fun l r hdiv => hdivisors l r (mem_parts_trans hdiv hmem)) (hexact.of_mem hmem)
    exact ⟨x.neg, eval_neg_eq_some_iff.mpr ⟨x, hx, rfl⟩, hvalue.neg⟩
  | binary op l r ihl ihr =>
    have hleft : l ∈ (binary op l r).parts :=
      mem_parts_binary_iff.mpr (.inr (.inl l.mem_parts_self))
    have hright : r ∈ (binary op l r).parts := right_mem_parts (mem_parts_self _)
    obtain ⟨x, hx, hleftValue⟩ :=
      ihl (fun l' r' hdiv => hdivisors l' r' (mem_parts_trans hdiv hleft)) (hexact.of_mem hleft)
    obtain ⟨y, hy, hrightValue⟩ :=
      ihr (fun l' r' hdiv => hdivisors l' r' (mem_parts_trans hdiv hright)) (hexact.of_mem hright)
    have hdivisor : op = .div → r.exactValue ≠ 0 := by
      rintro rfl
      exact hdivisors l r (mem_parts_self _)
    have hvalue := hleftValue.apply hrightValue hdivisor (hexact _ (mem_parts_self _))
    refine ⟨_, eval_binary_eq_some_iff.mpr ⟨x, y, hx, hy, ?_, rfl⟩, hvalue⟩
    -- the divisor is found to be zero only if its exact value is
    rintro ⟨hdiv, hzero⟩
    exact hdivisor hdiv (hrightValue.isZero_iff.mp hzero)

end Expr

open Grammar

/-- **`evaluate_exact`** — let a text be parsed, and be read by the grammar for an expression in which no
divisor has the exact value zero and each part has the exact value of some binary64 number. Then the
text has a result, and the result is the exact value of the expression. -/
theorem evaluate_exact {text : String} {t : Expr Binary64} {d : Expr Decimal}
    (hparse : Expr.parse text = .ok t) (hd : Layered .text text.toList d)
    (hdivisors : ∀ l r, .binary .div l r ∈ d.parts → r.exactValue ≠ 0) (hexact : d.IsExact) :
    ∃ v, evaluate text = .ok v ∧ v.isFinite = true ∧ v.toRat = d.exactValue := by
  obtain ⟨v, hv, hfinite, hvalue⟩ := Expr.exists_eval_denotes hdivisors hexact
  obtain ⟨e, he, rfl⟩ := Expr.parse_eq_ok_iff.mp hparse
  obtain ⟨hlayered, -⟩ := Expr.parseDecimal_eq_ok_iff.mp he
  obtain rfl := hlayered.unique hd
  exact ⟨v, evaluate_eq_ok_iff.mpr ⟨_, hparse, hv, hfinite⟩, hfinite, hvalue⟩

/-- Precedence and associativity both matter for this value, and zeros of both signs come up on the way
to it. -/
theorem evaluate_exact_of_signed_zeros :
    ∃ t d, Expr.parse "4-0.5-2*0.25-(1.5-1.5)/-4" = .ok t ∧
      Layered .text "4-0.5-2*0.25-(1.5-1.5)/-4".toList d ∧
      (∀ l r, .binary .div l r ∈ d.parts → r.exactValue ≠ 0) ∧ d.IsExact ∧
      ∃ v, evaluate "4-0.5-2*0.25-(1.5-1.5)/-4" = .ok v ∧ v.isFinite = true ∧ v.toRat = 3 := by
  have hread : Expr.parseDecimal "4-0.5-2*0.25-(1.5-1.5)/-4".toList =
      .ok (.binary .sub
        (.binary .sub (.binary .sub (.literal ⟨4, 0⟩) (.literal ⟨5, 1⟩))
          (.binary .mul (.literal ⟨2, 0⟩) (.literal ⟨25, 2⟩)))
        (.binary .div (.binary .sub (.literal ⟨15, 1⟩) (.literal ⟨15, 1⟩)) (.neg (.literal ⟨4, 0⟩)))) :=
    rfl
  have hparse := Expr.parse_eq_ok_iff.mpr ⟨_, hread, rfl⟩
  obtain ⟨hlayered, -⟩ := Expr.parseDecimal_eq_ok_iff.mp hread
  generalize hd : Expr.binary .sub _ _ = d at hread hparse hlayered
  have hdivisors : ∀ l r, .binary .div l r ∈ d.parts → r.exactValue ≠ 0 := by
    intro l r hmem
    subst hd
    obtain ⟨-, rfl⟩ : l = .binary .sub (.literal ⟨15, 1⟩) (.literal ⟨15, 1⟩) ∧
        r = .neg (.literal ⟨4, 0⟩) := by
      simpa [Expr.parts] using hmem
    decide +kernel
  have hexact : d.IsExact := by
    subst hd
    refine .of_fractions [(false, 3, 0), (false, 3, 0), (false, 7, 1), (false, 4, 0), (false, 1, 1),
      (false, 1, 1), (false, 2, 0), (false, 1, 2), (false, 0, 0), (false, 0, 0), (false, 3, 1),
      (false, 3, 1), (true, 4, 0), (false, 4, 0)] ?_ ?_
    · decide +kernel
    · decide
  have hvalue : d.exactValue = 3 := by
    subst hd
    decide +kernel
  obtain ⟨v, hv, hfinite, hexactly⟩ := evaluate_exact hparse hlayered hdivisors hexact
  exact ⟨_, d, hparse, hlayered, hdivisors, hexact, v, hv, hfinite, hexactly.trans hvalue⟩

end Reckoner
