/-
# Reckoner.Expr.Reading — reading an expression, one character at a time.

A deterministic machine reads an expression from left to right. Its state, `Reading`, is what the text
so far amounts to: the machine stands in front of an operand, inside a numeral, or after an operand,
and it knows the `Context`: what the current group holds to the left of this operand, and the groups
around it. There is no look-ahead, so the first character that no expression could go on with is the
one on which `step` fails.

## The written form

* Blanks may stand between tokens and never inside a numeral.
* A numeral is digits, with an optional point and optional further digits, or a point and digits.
* An operand is a numeral or a group in parentheses, behind at most one minus sign.
* A group, and the whole text, may start with one plus sign, which has no effect.
* Operands are joined by `+ - * /`; the last two bind tighter, and all associate to the left. A minus
  sign binds tightest.

Precedence is kept in `Pending`: an operand on the left waits there for its right operand, at most one
for each of the two levels.
-/
import Reckoner.Text.Blank
import Reckoner.Number.Decimal
import Reckoner.Expr.Basic

namespace Reckoner

namespace Expr

/-! ## What stands to the left of an operand -/

/-- **`Pending`** — the left operands of a group that wait for their right ones: of an addition or
subtraction, and inside its right operand of a multiplication or division. -/
structure Pending where
  sum : Option (Expr Decimal × Op)
  product : Option (Expr Decimal × Op)

/-- Nothing waits. -/
def Pending.empty : Pending := ⟨none, none⟩

/-- **`joinLeft waiting e`** — `e`, with the left operand that waits for it. -/
def joinLeft : Option (Expr Decimal × Op) → Expr Decimal → Expr Decimal
  | none, e => e
  | some (left, op), e => binary op left e

/-- **`p.close e`** — the expression of a group whose last operand is `e`. -/
def Pending.close (p : Pending) (e : Expr Decimal) : Expr Decimal :=
  joinLeft p.sum (joinLeft p.product e)

/-- **`p.push e op`** — what waits after the operand `e` and the operator `op`. A tight operator takes
the product so far as its left operand, a loose one all that the group holds. -/
def Pending.push (p : Pending) (e : Expr Decimal) (op : Op) : Pending :=
  if op.isTight then { p with product := some (joinLeft p.product e, op) }
  else ⟨some (p.close e, op), none⟩

/-- **`Context`** — the pending part of the current group, and those of the groups around it, the
innermost first, each with the sign in front of the group inside it. -/
structure Context where
  pending : Pending
  enclosing : List (Pending × Bool)

/-- The context at the start of a text. -/
def Context.outermost : Context := ⟨Pending.empty, []⟩

/-! ## Numerals -/

/-- **`Numeral`** — the part of a numeral that has been read. -/
inductive Numeral
  /-- Digits, and no point so far. -/
  | whole (digits : Nat)
  /-- A point with no digit before it, and none after it so far. -/
  | point
  /-- A point, and `scale` digits after it. -/
  | fraction (digits scale : Nat)

/-- **`n.extend c`** — the numeral with one more character, if that can belong to it. -/
def Numeral.extend (n : Numeral) (c : Char) : Option Numeral :=
  match n with
  | whole d =>
    if c.isDigit then some (whole (10 * d + digitValue c))
    else if c = '.' then some (fraction d 0)
    else none
  | point => if c.isDigit then some (fraction (digitValue c) 1) else none
  | fraction d k =>
    if c.isDigit then some (fraction (10 * d + digitValue c) (k + 1)) else none

/-- **`n.value?`** — the number that a complete numeral is written for. A point alone is none. -/
def Numeral.value? : Numeral → Option Decimal
  | whole d => some ⟨d, 0⟩
  | point => none
  | fraction d k => some ⟨d, k⟩

/-! ## The machine -/

/-- **`Slot`** — which signs may still stand in front of the operand to come. -/
inductive Slot
  /-- At the start of a group: a plus or a minus sign. -/
  | opening
  /-- After an operator, or after the plus sign of a group: a minus sign. -/
  | operand
  /-- After a minus sign: none. -/
  | negated
  deriving DecidableEq

/-- **`Reading`** — what the characters read so far amount to. -/
inductive Reading
  | before (slot : Slot) (context : Context)
  | inside (numeral : Numeral) (negated : Bool) (context : Context)
  | after (operand : Expr Decimal) (context : Context)

/-- The operator that a character is written for. -/
def opOf? (c : Char) : Option Op :=
  if c = '+' then some .add
  else if c = '-' then some .sub
  else if c = '*' then some .mul
  else if c = '/' then some .div
  else none

namespace Reading

/-- Nothing has been read. -/
def start : Reading := before .opening Context.outermost

/-- **`stepBefore slot context c`** — one character in front of an operand. -/
def stepBefore (slot : Slot) (context : Context) (c : Char) : Option Reading :=
  let negated := decide (slot = .negated)
  if isBlank c then some (before slot context)
  else if c.isDigit then some (inside (.whole (digitValue c)) negated context)
  else if c = '.' then some (inside .point negated context)
  else if c = '(' then
    some (before .opening ⟨Pending.empty, (context.pending, negated) :: context.enclosing⟩)
  else if c = '-' ∧ slot ≠ .negated then some (before .negated context)
  else if c = '+' ∧ slot = .opening then some (before .operand context)
  else none

/-- **`stepAfter e context c`** — one character after the operand `e`. -/
def stepAfter (e : Expr Decimal) (context : Context) (c : Char) : Option Reading :=
  if isBlank c then some (after e context)
  else if c = ')' then
    match context.enclosing with
    | [] => none
    | (outer, negated) :: enclosing =>
      some (after (negateIf negated (context.pending.close e)) ⟨outer, enclosing⟩)
  else (opOf? c).map fun op => before .operand { context with pending := context.pending.push e op }

/-- **`reading.step c`** — the reading after one more character, none if no expression goes on with
it. A numeral ends at the first character that cannot belong to it. -/
def step (reading : Reading) (c : Char) : Option Reading :=
  match reading with
  | before slot context => stepBefore slot context c
  | after e context => stepAfter e context c
  | inside n negated context =>
    match n.extend c with
    | some n' => some (inside n' negated context)
    | none => n.value?.bind fun d => stepAfter (negateIf negated (literal d)) context c

/-- **`reading.result?`** — the expression, if the text may end here. -/
def result? : Reading → Option (Expr Decimal)
  | before .. => none
  | after e ⟨pending, []⟩ => some (pending.close e)
  | after .. => none
  | inside n negated ⟨pending, []⟩ =>
    n.value?.map fun d => pending.close (negateIf negated (literal d))
  | inside .. => none

/-- **`reading.faultAt index`** — the position to blame when the character at `index` does not fit. A
point that should have been a numeral is itself at fault. -/
def faultAt (reading : Reading) (index : Nat) : Nat :=
  match reading with
  | inside .point .. => index - 1
  | _ => index

/-- **`reading.finish index cs`** — the expression of a text of which `cs` is left, from the character
at `index` on, or the position of the fault. -/
def finish (reading : Reading) (index : Nat) : List Char → Except Nat (Expr Decimal)
  | [] =>
    match reading.result? with
    | some e => .ok e
    | none => .error (reading.faultAt index)
  | c :: cs =>
    match reading.step c with
    | some next => next.finish (index + 1) cs
    | none => .error (reading.faultAt index)

end Reading

/-- **`read cs`** — the expression that `cs` is written for, or the position, counted in characters
from zero, at which it stops being one. -/
def read (cs : List Char) : Except Nat (Expr Decimal) := Reading.start.finish 0 cs

end Expr

end Reckoner
