/-
# Reckoner.Expr.Walk — the value of an expression, computed with a stack of pending steps.

A `Walk` goes over an expression without recursion, so a long chain such as `1+1+…+1` costs no nesting.
It keeps two stacks: the steps that are still pending, and the values computed so far. Visiting a
literal puts it on the values; visiting an operator leaves its operands pending, the left one first,
and its instruction behind them. A walk may stop early, at a division by zero.

The pending steps amount to a list of instructions, `remaining`, and no round of the walk changes what
these would make of the values: that is its invariant (`exec_remaining_of_round`), whatever is pending
and whatever has been computed. It shows that a walk over an expression never misses an operand and
leaves exactly one value, the one that `Expr.eval` names.
-/
import Reckoner.Expr.Postfix

namespace Reckoner

variable {α : Type}

/-- **`e.rounds`** — how many rounds a walk over the expression takes: one for each literal, and two
for each operator, which is visited before its operands and performed after them. -/
def Expr.rounds : Expr α → Nat
  | literal _ => 1
  | neg e => e.rounds + 2
  | binary _ l r => l.rounds + r.rounds + 2

/-- One pending step of a walk. -/
inductive Step (α : Type)
  | visit (e : Expr α)
  | perform (i : Instruction α)

/-- **`s.rounds`** — how many rounds a pending step takes. -/
def Step.rounds : Step α → Nat
  | visit e => e.rounds
  | perform _ => 1

/-- **`Walk α`** — the pending steps of a walk, the next one first, and the values computed so far, the
last one first. -/
structure Walk (α : Type) where
  pending : List (Step α)
  values : List α

namespace Walk

/-- The walk over an expression, before its first round. -/
def start (e : Expr α) : Walk α := ⟨[.visit e], []⟩

/-- **`w.round`** — the walk after its next step; a walk with nothing pending stays as it is. -/
def round [Arithmetic α] (w : Walk α) : Except Fault (Walk α) :=
  match w.pending with
  | [] => .ok w
  | .visit (.literal v) :: pending => .ok ⟨pending, v :: w.values⟩
  | .visit (.neg e) :: pending => .ok ⟨.visit e :: .perform .negate :: pending, w.values⟩
  | .visit (.binary op l r) :: pending =>
    .ok ⟨.visit l :: .visit r :: .perform (.combine op) :: pending, w.values⟩
  | .perform i :: pending => (i.run w.values).map fun values => ⟨pending, values⟩

/-- **`w.roundsLeft`** — how many rounds the pending steps take. -/
def roundsLeft (w : Walk α) : Nat := w.pending.foldr (fun step rest => step.rounds + rest) 0

/-- A round that does not stop the walk is one round less to go. -/
theorem roundsLeft_of_round [Arithmetic α] {w w' : Walk α} (hw : w.pending ≠ [])
    (h : w.round = .ok w') : w'.roundsLeft + 1 = w.roundsLeft := by
  obtain ⟨pending, values⟩ := w
  match pending with
  | [] => exact absurd rfl hw
  | .visit (.literal v) :: pending =>
    obtain rfl := Except.ok.inj h
    simp only [roundsLeft, List.foldr_cons, Step.rounds, Expr.rounds]
    omega
  | .visit (.neg e) :: pending =>
    obtain rfl := Except.ok.inj h
    simp only [roundsLeft, List.foldr_cons, Step.rounds, Expr.rounds]
    omega
  | .visit (.binary op l r) :: pending =>
    obtain rfl := Except.ok.inj h
    simp only [roundsLeft, List.foldr_cons, Step.rounds, Expr.rounds]
    omega
  | .perform i :: pending =>
    simp only [round] at h
    cases hi : i.run values with
    | error fault => rw [hi] at h; cases h
    | ok stack =>
      rw [hi] at h
      obtain rfl := Except.ok.inj h
      simp only [roundsLeft, List.foldr_cons, Step.rounds]
      omega

/-- **`w.run`** — the values that are left when nothing is pending any more, or the fault that stopped
the walk. -/
def run [Arithmetic α] (w : Walk α) : Except Fault (List α) :=
  if _hw : w.pending = [] then .ok w.values
  else
    match _h : w.round with
    | .ok w' => run w'
    | .error fault => .error fault
termination_by w.roundsLeft
decreasing_by
  have hlt := roundsLeft_of_round _hw _h
  omega

/-! ## The invariant of a walk -/

/-- **`remaining pending`** — the instructions that pending steps amount to. -/
def remaining : List (Step α) → List (Instruction α)
  | [] => []
  | .visit e :: pending => e.programThen (remaining pending)
  | .perform i :: pending => i :: remaining pending

/-- A round keeps what the remaining instructions make of the values. -/
theorem exec_remaining_of_round [Arithmetic α] (w : Walk α) :
    exec (remaining w.pending) w.values =
      match w.round with
      | .ok w' => exec (remaining w'.pending) w'.values
      | .error fault => .error fault := by
  obtain ⟨pending, values⟩ := w
  match pending with
  | [] => rfl
  | .visit (.literal v) :: pending => rfl
  | .visit (.neg e) :: pending => rfl
  | .visit (.binary op l r) :: pending => rfl
  | .perform i :: pending =>
    simp only [remaining, exec, round]
    cases i.run values <;> rfl

/-- A walk leaves what its remaining instructions make of its values. -/
theorem run_eq_exec [Arithmetic α] (w : Walk α) :
    w.run = exec (remaining w.pending) w.values := by
  fun_induction run w with
  | case1 w hw => rw [hw]; rfl
  | case2 w hw w' h ih => rw [ih, exec_remaining_of_round w, h]
  | case3 w hw fault h => rw [exec_remaining_of_round w, h]

/-- Visiting an expression puts its value on top of the values and goes on with the steps that were
pending before, or stops at a division by zero. -/
theorem run_visit [Arithmetic α] (e : Expr α) (pending : List (Step α)) (values : List α) :
    run ⟨.visit e :: pending, values⟩ =
      match e.eval with
      | some v => run ⟨pending, v :: values⟩
      | none => .error .divisionByZero := by
  rw [run_eq_exec]
  show exec (e.programThen (remaining pending)) values = _
  rw [Expr.exec_programThen]
  cases e.eval with
  | none => rfl
  | some v => exact (run_eq_exec ⟨pending, v :: values⟩).symm

theorem run_start [Arithmetic α] (e : Expr α) :
    (start e).run =
      match e.eval with
      | some v => .ok [v]
      | none => .error .divisionByZero := by
  have hnil : ∀ v : α, run ⟨[], [v]⟩ = .ok [v] := fun v => by rw [run_eq_exec]; rfl
  rw [start, run_visit]
  cases e.eval with
  | none => rfl
  | some v => exact hnil v

end Walk

namespace Expr

/-- **`e.value?`** — the value that the walk over the expression leaves, none for a division by zero.
The other ways in which a walk could end do not occur. -/
def value? [Arithmetic α] (e : Expr α) : Option α :=
  match h : (Walk.start e).run with
  | .ok [v] => some v
  | .error .divisionByZero => none
  | .ok [] => absurd h (by rw [Walk.run_start]; cases e.eval <;> simp)
  | .ok (_ :: _ :: _) => absurd h (by rw [Walk.run_start]; cases e.eval <;> simp)
  | .error .missingOperand => absurd h (by rw [Walk.run_start]; cases e.eval <;> simp)

/-- The computed value is the value. -/
theorem value?_eq_eval [Arithmetic α] (e : Expr α) : e.value? = e.eval := by
  unfold value?
  have he := Walk.run_start e
  split <;> rename_i h <;> rw [h] at he <;> cases hv : e.eval <;> simp_all

end Expr

end Reckoner
