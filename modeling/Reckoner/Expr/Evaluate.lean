/-
# Reckoner.Expr.Evaluate — the binary64 value of an expression or of a text.

Every operation is rounded once, and nothing is checked on the way but divisors: an intermediate
result may be infinite or NaN. Only the value of the whole expression has to be finite. A division by
zero is reported before that, wherever in the expression it stands.
-/
import Reckoner.Expr.Walk
import Reckoner.Expr.Parse

namespace Reckoner

/-- Binary64 numbers are an arithmetic, each operation rounded once. -/
instance Binary64.arithmetic : Arithmetic Binary64 where
  neg := neg
  apply
    | .add => add
    | .sub => sub
    | .mul => mul
    | .div => div
  isZero := isZero

/-- **`e.evaluate`** — the value of an expression, if it has one and it is finite. -/
def Expr.evaluate (e : Expr Binary64) : Except Failure Binary64 :=
  match e.value? with
  | none => .error .divisionByZero
  | some v => if v.isFinite then .ok v else .error (.invalid .notFinite)

/-- **`evaluate text`** — the value of the expression that a text is written for. -/
def evaluate (text : String) : Except Failure Binary64 :=
  (Expr.parse text).bind Expr.evaluate

end Reckoner
