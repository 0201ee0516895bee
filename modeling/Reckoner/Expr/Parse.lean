/-
# Reckoner.Expr.Parse — from a text to an expression, or to the cause of its failure.

`parse` adds two checks in front of the reading machine and a diagnosis behind it. Balance and depth
of the parentheses are decided first, from the parentheses alone, so an unclosed group is reported as
such whatever else is wrong with the text. When the machine fails, `diagnose` names the most telling
cause: a foreign character, an empty group, an operator at the end, and only then a position.

The diagnosis looks past every kind of white space, where the machine skips blanks only. So a text
whose single fault is a no-break space is malformed at that space, and an operator in front of it is
still an operator at the end.
-/
import Reckoner.Failure
import Reckoner.Text.Search
import Reckoner.Expr.Reading

namespace Reckoner

/-- The deepest nesting of parentheses that is accepted. -/
def maxNesting : Nat := 256

/-- **`nestingFrom depth deepest cs`** — the deepest nesting once `cs` is read too, none unless every
`)` closes an earlier `(` and none stays open. -/
def nestingFrom (depth deepest : Nat) : List Char → Option Nat
  | [] => if depth = 0 then some deepest else none
  | c :: cs =>
    if c = '(' then nestingFrom (depth + 1) (max deepest (depth + 1)) cs
    else if c = ')' then
      match depth with
      | 0 => none
      | depth + 1 => nestingFrom depth deepest cs
    else nestingFrom depth deepest cs

/-- **`nesting? cs`** — the deepest nesting of parentheses in a balanced text. -/
def nesting? (cs : List Char) : Option Nat := nestingFrom 0 0 cs

/-- **`isOperator c`** — one of `+ - * /`. -/
def isOperator (c : Char) : Bool := c == '+' || c == '-' || c == '*' || c == '/'

/-- **`belongs c`** — a character that some expression is written with, or white space. -/
def belongs (c : Char) : Bool :=
  c.isDigit || isWhite c || c == '.' || c == '(' || c == ')' || isOperator c

/-- **`firstForeign index cs`** — the first character that does not belong, with its position. -/
def firstForeign (index : Nat) : List Char → Option (Char × Nat)
  | [] => none
  | c :: cs => if belongs c then firstForeign (index + 1) cs else some (c, index)

/-- **`withoutWhite cs`** — the text less its white space. -/
def withoutWhite (cs : List Char) : List Char := cs.filter fun c => !isWhite c

/-- **`diagnose cs position`** — why `cs`, which cannot be read beyond `position`, is no expression. -/
def diagnose (cs : List Char) (position : Nat) : Cause :=
  match firstForeign 0 cs with
  | some (c, index) => .unexpectedCharacter c index
  | none =>
    let compact := withoutWhite cs
    if occursIn ['(', ')'] compact then .emptyGroup
    else if compact.getLast?.any isOperator then .trailingOperator
    else .malformed position

namespace Expr

/-- **`parseDecimal cs`** — the expression that a text is written for, with its literals exact. -/
def parseDecimal (cs : List Char) : Except Failure (Expr Decimal) :=
  if cs.all isWhite then .error (.invalid .empty)
  else
    match nesting? cs with
    | none => .error .unbalancedParentheses
    | some depth =>
      if maxNesting < depth then .error (.invalid (.tooDeeplyNested maxNesting))
      else
        match read cs with
        | .ok e => .ok e
        | .error position => .error (.invalid (diagnose cs position))

/-- **`parse text`** — the expression that a text is written for, each literal rounded to the nearest
binary64 number. -/
def parse (text : String) : Except Failure (Expr Binary64) :=
  (parseDecimal text.toList).map (map Binary64.ofDecimal)

end Expr

end Reckoner
