/-
# Reckoner.Repair.Rule — four rules that mend a displayed expression.

Each rule looks for one kind of slip and rewrites the text, in the displayed spelling, without reading
it as an expression. A rule fires only if its result is not empty and differs from what it was given.

* `duplicateOperator` leaves one operator of each run of equal ones: `5++3` becomes `5+3`.
* `emptyParentheses` removes `()` and one operator right in front of it: `6×()` becomes `6`. It passes
  over the text once, so an empty pair that only appears by the removal stays, and where nothing at
  all is left, the result is `0`.
* `trailingOperator` trims the text and drops an operator at its end: `5+` becomes `5`.
* `unclosedParentheses` appends the missing `)`, as many as there are more `(`.

The operators meant here are the displayed ones, `+ - × ÷`; `*` and `/` are left alone.
-/
import Reckoner.Text.Blank
import Reckoner.Text.Search

namespace Reckoner

/-- The rules. -/
inductive Rule
  | duplicateOperator
  | emptyParentheses
  | trailingOperator
  | unclosedParentheses
  deriving DecidableEq, Repr

/-- **`isDisplayOperator c`** — one of `+ - × ÷`. -/
def isDisplayOperator (c : Char) : Bool := c == '+' || c == '-' || c == '×' || c == '÷'

/-- **`collapse cs`** — the text with each run of one operator shortened to a single character. -/
def collapse : List Char → List Char
  | [] => []
  | [c] => [c]
  | c :: d :: cs =>
    if isDisplayOperator c && c == d then collapse (d :: cs) else c :: collapse (d :: cs)

/-- **`dropEmptyGroups cs`** — the text without its empty pairs of parentheses, and without an operator
right in front of one, in a single pass from the left. -/
def dropEmptyGroups : List Char → List Char
  | [] => []
  | '(' :: ')' :: cs => dropEmptyGroups cs
  | c :: '(' :: ')' :: cs =>
    if isDisplayOperator c then dropEmptyGroups cs else c :: dropEmptyGroups ('(' :: ')' :: cs)
  | c :: cs => c :: dropEmptyGroups cs

namespace Rule

/-- The order in which the rules are tried. -/
def order : List Rule :=
  [duplicateOperator, emptyParentheses, trailingOperator, unclosedParentheses]

/-- What a rule says it did. -/
def message : Rule → String
  | duplicateOperator => "Removed duplicated operator."
  | emptyParentheses => "Removed empty parentheses."
  | trailingOperator => "Removed trailing operator."
  | unclosedParentheses => "Added missing closing parenthesis."

/-- **`rule.rewrite? cs`** — the text that a rule makes of `cs`, none if it finds no slip of its kind.
-/
def rewrite? (rule : Rule) (cs : List Char) : Option (List Char) :=
  match rule with
  | duplicateOperator => some (collapse cs)
  | emptyParentheses =>
    if occursIn ['(', ')'] cs then
      let rest := dropEmptyGroups cs
      some (if rest.isEmpty then ['0'] else rest)
    else none
  | trailingOperator =>
    let trimmed := trim cs
    if trimmed.getLast?.any isDisplayOperator then some trimmed.dropLast else none
  | unclosedParentheses =>
    let missing := cs.count '(' - cs.count ')'
    if missing = 0 then none else some (cs ++ List.replicate missing ')')

/-- **`rule.fire? cs`** — the text after the rule, if that is usable and different. -/
def fire? (rule : Rule) (cs : List Char) : Option (List Char) :=
  (rule.rewrite? cs).filter fun fixed => !fixed.isEmpty && fixed != cs

/-- **`rule.apply expression`** — the expression after the rule, if it fires. -/
def apply (rule : Rule) (expression : String) : Option String :=
  (rule.fire? expression.toList).map .ofList

end Rule

end Reckoner
