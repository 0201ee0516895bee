/-
# Reckoner.Repair.Suggestion — one repair, and a chain of repairs.

`suggestFix` offers the result of the first rule that fires, in the order of `Rule.order`; the rules
after it are not tried. `repairSteps` takes suggestion after suggestion until none is left or the
allowed number of rounds is used up. Whether a suggestion evaluates is not looked at here.
-/
import Reckoner.Repair.Rule

namespace Reckoner

/-- **`Suggestion`** — an expression to put in place of the one that failed, and what is said about it.
An empty fix means that there is nothing to put in its place. -/
structure Suggestion where
  fix : String
  message : String
  deriving DecidableEq, Repr

namespace Suggestion

/-- No correction is known. -/
def unavailable : Suggestion := ⟨"", "The expression contains an error."⟩

/-- **`s.isEmpty`** — there is nothing to put in place of the expression. -/
def isEmpty (s : Suggestion) : Bool := s.fix.isEmpty

end Suggestion

/-- **`firstFix? cs`** — the first rule that fires on `cs`, with its result. -/
def firstFix? (cs : List Char) : Option (Rule × List Char) :=
  Rule.order.findSome? fun rule => (rule.fire? cs).map (rule, ·)

/-- **`suggestFix expression`** — the suggestion of the first rule that fires. -/
def suggestFix (expression : String) : Suggestion :=
  match firstFix? expression.toList with
  | some (rule, fixed) => ⟨.ofList fixed, rule.message⟩
  | none => .unavailable

/-- How many repairs are chained before an expression is given up. -/
def maxRepairRounds : Nat := 4

/-- **`repairSteps rounds expression`** — the suggestions taken one after the other, each for the fix
of the one before, at most `rounds` of them. -/
def repairSteps : Nat → String → List Suggestion
  | 0, _ => []
  | rounds + 1, expression =>
    let suggestion := suggestFix expression
    if suggestion.isEmpty then [] else suggestion :: repairSteps rounds suggestion.fix

end Reckoner
