/-
# Reckoner.Failure — why an expression has no value, and the wording of it.

A failure is a cause, not a text. The wording is nevertheless part of the interface: it is shown to the
user, sent to a remote adviser, and `Highlight.locate` decides by it what to point at.
-/

namespace Reckoner

/-- Why a text, or its value, is not a valid expression. Positions count characters from zero. -/
inductive Cause
  | empty
  | emptyGroup
  | trailingOperator
  | unexpectedCharacter (character : Char) (position : Nat)
  | malformed (position : Nat)
  | tooDeeplyNested (limit : Nat)
  | notFinite
  deriving DecidableEq, Repr

/-- Why an expression has no value. -/
inductive Failure
  | invalid (cause : Cause)
  | divisionByZero
  | unbalancedParentheses
  deriving DecidableEq, Repr

/-- The wording of a cause. -/
def Cause.message : Cause → String
  | empty => "nothing to evaluate"
  | emptyGroup => "empty parentheses"
  | trailingOperator => "expression ends with an operator"
  | unexpectedCharacter c p =>
    "unexpected character '" ++ c.toString ++ "' at position " ++ toString p
  | malformed p => "syntax error at position " ++ toString p
  | tooDeeplyNested limit =>
    "parentheses nested deeper than " ++ toString limit ++ " levels"
  | notFinite => "result is not mathematically valid"

namespace Failure

/-- **`failure.message`** — the wording of a failure; that of a cause stands behind
`Invalid expression: `. -/
def message : Failure → String
  | invalid cause => "Invalid expression: " ++ cause.message
  | divisionByZero => "Division by zero"
  | unbalancedParentheses => "Unbalanced parentheses"

/-- **`failure.cause?`** — the cause of an invalid expression. -/
def cause? : Failure → Option Cause
  | invalid cause => some cause
  | _ => none

/-- **`failure.isInvalid`** — the failure is that of an invalid expression. -/
def isInvalid (failure : Failure) : Bool := failure.cause?.isSome

end Failure

end Reckoner
