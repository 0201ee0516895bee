/-
# Reckoner.Expr.Postfix — an expression as a list of stack instructions.

In postfix order each operator stands after its operands. `Expr.programThen` lays an expression out that
way, in front of the instructions that follow it, and `exec` runs a list of instructions on a stack of
values; a list that belongs to no expression may miss an operand. `exec_programThen` relates the two for
any instructions that follow and any values already on the stack.
-/
import Reckoner.Expr.Eval

namespace Reckoner

variable {α : Type}

/-! ## Stack programs -/

/-- One step of a stack program. -/
inductive Instruction (α : Type)
  /-- Put a value on top of the stack. -/
  | push (value : α)
  /-- Replace the top of the stack by its negation. -/
  | negate
  /-- Replace the right operand, on top, and the left one below it by the operator's result. -/
  | combine (op : Op)
  deriving DecidableEq, Repr

/-- Why a stack program stopped. -/
inductive Fault
  | divisionByZero
  | missingOperand
  deriving DecidableEq, Repr

/-- **`i.run stack`** — the stack after one instruction. -/
def Instruction.run [Arithmetic α] : Instruction α → List α → Except Fault (List α)
  | .push v, stack => .ok (v :: stack)
  | .negate, x :: stack => .ok (Arithmetic.neg x :: stack)
  | .combine op, y :: x :: stack =>
    if op = .div ∧ Arithmetic.isZero y then .error .divisionByZero
    else .ok (Arithmetic.apply op x y :: stack)
  | _, _ => .error .missingOperand

/-- **`exec program stack`** — the stack after all instructions, or the first fault. -/
def exec [Arithmetic α] : List (Instruction α) → List α → Except Fault (List α)
  | [], stack => .ok stack
  | i :: program, stack =>
    match i.run stack with
    | .ok stack' => exec program stack'
    | .error fault => .error fault

namespace Expr

/-- **`e.programThen rest`** — the program of an expression in front of the instructions `rest`. -/
def programThen : Expr α → List (Instruction α) → List (Instruction α)
  | literal v, rest => .push v :: rest
  | neg e, rest => e.programThen (.negate :: rest)
  | binary op l r, rest => l.programThen (r.programThen (.combine op :: rest))

/-- The program of an expression puts its value on top of the stack and goes on, or stops at a
division by zero; it stops for no other reason. -/
theorem exec_programThen [Arithmetic α] (e : Expr α) (rest : List (Instruction α))
    (stack : List α) :
    exec (e.programThen rest) stack =
      match e.eval with
      | some v => exec rest (v :: stack)
      | none => .error .divisionByZero := by
  induction e generalizing rest stack with
  | literal v => rfl
  | neg e ih =>
    simp only [programThen, ih, eval]
    cases e.eval <;> rfl
  | binary op l r ihl ihr =>
    simp only [programThen, ihl, ihr, eval]
    cases l.eval with
    | none => rfl
    | some x =>
      cases r.eval with
      | none => rfl
      | some y =>
        simp only [exec, Instruction.run, Option.bind_some]
        by_cases hzero : op = .div ∧ Arithmetic.isZero y
        · rw [if_pos hzero, if_pos hzero]
        · rw [if_neg hzero, if_neg hzero]

end Expr

end Reckoner
