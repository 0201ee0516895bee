/-
# Reckoner.Proofs.Walk — a walk over an expression comes to an end, and its end is the value.

`Reckoner.Expr.Walk` runs a walk until nothing is pending. Here the rounds are counted. `Walk.after n`
is the walk after `n` rounds; a fault that shows up after some rounds is the fault of the whole run
(`run_of_after_eq_error`), and a division by zero is the only one that a walk over an expression has.
-/
import Reckoner.Expr.Evaluate

namespace Reckoner

variable {α : Type}

theorem Expr.rounds_pos (e : Expr α) : 0 < e.rounds := by
  cases e <;> simp only [rounds] <;> omega

namespace Walk

theorem roundsLeft_pos {w : Walk α} (hw : w.pending ≠ []) : 0 < w.roundsLeft := by
  obtain ⟨pending, values⟩ := w
  match pending with
  | [] => exact absurd rfl hw
  | .visit e :: pending =>
    rw [roundsLeft, List.foldr_cons]
    exact Nat.add_pos_left e.rounds_pos _
  | .perform i :: pending =>
    rw [roundsLeft, List.foldr_cons]
    exact Nat.add_pos_left Nat.one_pos _

theorem roundsLeft_start (e : Expr α) : (start e).roundsLeft = e.rounds := by
  rw [roundsLeft, start, List.foldr_cons, List.foldr_nil]
  rfl

variable [Arithmetic α]

/-- **`w.after n`** — the walk after `n` rounds, or the fault that stopped it before. -/
def after (w : Walk α) : Nat → Except Fault (Walk α)
  | 0 => .ok w
  | n + 1 =>
    match w.round with
    | .ok w' => w'.after n
    | .error fault => .error fault

/-! ## A run, round by round -/

theorem round_of_pending_eq_nil {w : Walk α} (hw : w.pending = []) : w.round = .ok w := by
  rw [round, hw]

/-- A walk and the walk after its next step come to the same end. -/
theorem run_eq_of_round (w : Walk α) :
    w.run =
      match w.round with
      | .ok w' => w'.run
      | .error fault => .error fault := by
  by_cases hw : w.pending = []
  · rw [round_of_pending_eq_nil hw]
  · rw [run, dif_neg hw]
    split <;> rename_i h <;> rw [h]

theorem run_of_after_eq_error {n : Nat} {w : Walk α} {fault : Fault}
    (h : w.after n = .error fault) : w.run = .error fault := by
  induction n generalizing w with
  | zero => cases h
  | succ n ih =>
    rw [after] at h
    rw [run_eq_of_round]
    cases hr : w.round with
    | error fault' =>
      rw [hr] at h
      obtain rfl := Except.error.inj h
      rfl
    | ok w₁ => rw [hr] at h; exact ih h

/-! ## How many rounds there are -/

/-- After the rounds that its pending steps take, a walk is at its end. -/
theorem after_roundsLeft (w : Walk α) :
    w.after w.roundsLeft =
      match w.run with
      | .ok values => .ok ⟨[], values⟩
      | .error fault => .error fault := by
  -- along the run: nothing is pending, a round leads to the next walk, or it stops this one
  fun_induction run w with
  | case1 w hw =>
    obtain ⟨pending, values⟩ := w
    obtain rfl : pending = [] := hw
    rfl
  | case2 w hw w' h ih =>
    rw [← roundsLeft_of_round hw h, after, h]
    exact ih
  | case3 w hw fault h =>
    obtain ⟨n, hn⟩ := Nat.exists_eq_add_one_of_ne_zero (Nat.ne_of_gt (roundsLeft_pos hw))
    rw [hn, after, h]

theorem after_rounds_start (e : Expr α) :
    (start e).after e.rounds =
      match e.eval with
      | some v => .ok ⟨[], [v]⟩
      | none => .error .divisionByZero := by
  have h := after_roundsLeft (start e)
  rw [roundsLeft_start, run_start] at h
  rw [h]
  cases e.eval <;> rfl

/-- No round of a walk over an expression misses an operand. -/
theorem after_start_ne_missingOperand (e : Expr α) (n : Nat) :
    (start e).after n ≠ .error .missingOperand := by
  intro h
  have hrun := run_of_after_eq_error h
  rw [run_start] at hrun
  cases hv : e.eval <;> rw [hv] at hrun <;> cases hrun

end Walk

/-! ## The value -/

theorem Expr.evaluate_eq (e : Expr Binary64) :
    e.evaluate =
      match e.eval with
      | none => .error .divisionByZero
      | some v => if v.isFinite then .ok v else .error (.invalid .notFinite) := by
  rw [← value?_eq_eval]
  rfl

theorem Expr.evaluate_eq_ok_iff {e : Expr Binary64} {v : Binary64} :
    e.evaluate = .ok v ↔ e.eval = some v ∧ v.isFinite = true := by
  rw [evaluate_eq]
  cases e.eval with
  | none =>
    constructor
    · intro h
      cases h
    · rintro ⟨h, -⟩
      cases h
  | some w =>
    show (if w.isFinite = true then Except.ok w else _) = _ ↔ _
    by_cases hw : w.isFinite = true
    · rw [if_pos hw]
      constructor
      · intro h
        obtain rfl := Except.ok.inj h
        exact ⟨rfl, hw⟩
      · rintro ⟨h, -⟩
        rw [Option.some.inj h]
    · rw [if_neg hw]
      constructor
      · intro h
        cases h
      · rintro ⟨h, hv⟩
        rw [Option.some.inj h] at hw
        exact absurd hv hw

/-- **The walk is the value.** Over any arithmetic, the walk over an expression never misses an operand.
After `e.rounds` rounds nothing is pending and the one value left is that of the expression, or a
division by zero has stopped it, and the computed value is the recursive one. Over binary64 numbers the
result is that value, refused when it is not finite. -/
theorem walk_computes_eval :
    (∀ {α : Type} [Arithmetic α] (e : Expr α),
      (∀ n, (Walk.start e).after n ≠ .error .missingOperand) ∧
      (Walk.start e).after e.rounds =
        (match e.eval with
        | some v => .ok ⟨[], [v]⟩
        | none => .error .divisionByZero) ∧
      (Walk.start e).run =
        (match e.eval with
        | some v => .ok [v]
        | none => .error .divisionByZero) ∧
      e.value? = e.eval) ∧
    ∀ e : Expr Binary64,
      e.evaluate =
        match e.eval with
        | none => .error .divisionByZero
        | some v => if v.isFinite then .ok v else .error (.invalid .notFinite) := by
  refine ⟨?_, Expr.evaluate_eq⟩
  intro α _ e
  refine ⟨Walk.after_start_ne_missingOperand e, ?_, ?_, ?_⟩
  · exact Walk.after_rounds_start e
  · exact Walk.run_start e
  · exact e.value?_eq_eval

end Reckoner
