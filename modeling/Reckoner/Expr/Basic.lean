/-
# Reckoner.Expr.Basic — arithmetic expressions over any type of numbers.

An expression is a literal, a negated expression, or two expressions joined by one of four operators.
Parentheses, blanks and signs without effect belong to the written form and leave no trace here.

The type of literals is a parameter. A text is first read with exact decimal literals; `Expr.map`
turns them into binary64 numbers, and one expression can be interpreted over both.
-/

namespace Reckoner

/-- The four operators. -/
inductive Op
  | add
  | sub
  | mul
  | div
  deriving DecidableEq, Repr

/-- **`op.isTight`** — multiplication and division bind tighter than addition and subtraction. -/
def Op.isTight : Op → Bool
  | .add | .sub => false
  | .mul | .div => true

/-- **`Expr α`** — an expression with literals in `α`. -/
inductive Expr (α : Type)
  | literal (value : α)
  | neg (operand : Expr α)
  | binary (op : Op) (left right : Expr α)
  deriving DecidableEq, Repr

namespace Expr

variable {α β : Type}

/-- **`e.map f`** — the same expression with `f` applied to each literal. -/
def map (f : α → β) : Expr α → Expr β
  | literal v => literal (f v)
  | neg e => neg (e.map f)
  | binary op l r => binary op (l.map f) (r.map f)

/-- **`negateIf b e`** — the expression under the unary minus that may stand in front of it. -/
def negateIf (negated : Bool) (e : Expr α) : Expr α := if negated then neg e else e

/-- **`same eq d e`** — the two expressions have one shape, and `eq` holds between their literals. -/
def same (eq : α → α → Bool) : Expr α → Expr α → Bool
  | literal v, literal w => eq v w
  | neg d, neg e => same eq d e
  | binary o d₁ d₂, binary p e₁ e₂ => o == p && same eq d₁ e₁ && same eq d₂ e₂
  | _, _ => false

end Expr

end Reckoner
