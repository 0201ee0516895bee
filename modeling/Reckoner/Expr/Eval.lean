/-
# Reckoner.Expr.Eval — the value of an expression, over any arithmetic.

`Arithmetic α` names what evaluation needs of a type of numbers: a negation, the four operators, and a
test for zero. No law is asked of them, so everything here holds of rounded arithmetic too.

`Expr.eval` says what the value of an expression IS, by recursion on the expression. How it is
COMPUTED, without recursion, is the matter of `Reckoner.Expr.Walk`.
-/
import Reckoner.Expr.Basic

namespace Reckoner

/-- **`Arithmetic α`** — the operations that an expression over `α` is evaluated with. -/
class Arithmetic (α : Type) where
  /-- The number with the other sign. -/
  neg : α → α
  /-- The result of an operator on its left and right operand. -/
  apply : Op → α → α → α
  /-- Whether a divisor is zero. -/
  isZero : α → Bool

variable {α : Type}

/-- **`e.eval`** — the value of an expression, the left operand before the right one; none when some
division met a divisor of zero. -/
def Expr.eval [Arithmetic α] : Expr α → Option α
  | literal v => some v
  | neg e => e.eval.map Arithmetic.neg
  | binary op l r => l.eval.bind fun x => r.eval.bind fun y =>
    if op = .div ∧ Arithmetic.isZero y then none else some (Arithmetic.apply op x y)

end Reckoner
