/-
# Reckoner.Calculator — one calculation, from a displayed expression to a result or a diagnosis.

`calculate` respells the expression, evaluates it, and either writes the result, with a tax figure if
one is wanted, or says what went wrong, where, and how it might be mended. At most one repair is
suggested. With validation on it is the first of the chained repairs that evaluates, under the
message of the first of them; with validation off it is the first repair, whatever it evaluates to.

A calculation itself never fails. What can fail is writing a number, when the configuration asks for
more places than are allowed, so an expression without a value is diagnosed under every configuration.
-/
import Reckoner.Config
import Reckoner.Highlight
import Reckoner.Spelling
import Reckoner.Expr.Evaluate
import Reckoner.Number.Fixed
import Reckoner.Repair.Suggestion

namespace Reckoner

/-- **`TaxFigure`** — the tax figure of a result, as a number and as text. -/
structure TaxFigure where
  value : Binary64
  formatted : String
  mode : TaxMode
  rate : Binary64
  label : String
  deriving DecidableEq

/-- **`Calculation`** — what became of a displayed expression. -/
inductive Calculation
  | success (expression : String) (value : Binary64) (result : String) (tax : Option TaxFigure)
  | failure (expression : String) (error : Failure) (highlight : Option Highlight)
      (suggestion : Option Suggestion)
  deriving DecidableEq

namespace Calculation

/-- The expression as it was entered. -/
def expression : Calculation → String
  | success e .. => e
  | failure e .. => e

/-- Whether there is a result. -/
def isSuccess : Calculation → Bool
  | success .. => true
  | failure .. => false

/-- The written result. -/
def result? : Calculation → Option String
  | success _ _ result _ => some result
  | failure .. => none

/-- Why there is no result. -/
def error? : Calculation → Option Failure
  | success .. => none
  | failure _ error _ _ => some error

/-- The suggested repair. -/
def suggestion? : Calculation → Option Suggestion
  | success .. => none
  | failure _ _ _ suggestion => suggestion

end Calculation

/-- **`evaluateDisplay expression`** — the value of a displayed expression. -/
def evaluateDisplay (expression : String) : Except Failure Binary64 :=
  evaluate (toEvaluator expression)

/-- **`evaluates expression`** — a displayed expression has a value. -/
def evaluates (expression : String) : Bool :=
  match evaluateDisplay expression with
  | .ok _ => true
  | .error _ => false

namespace Config

/-- **`config.localSuggestion expression`** — the repair to suggest for an expression without a value.
-/
def localSuggestion (config : Config) (expression : String) : Option Suggestion :=
  let first := suggestFix expression
  if first.isEmpty then none
  else if config.validateSuggestions then
    ((repairSteps maxRepairRounds expression).find? fun step => evaluates step.fix).map
      fun step => ⟨step.fix, first.message⟩
  else some first

/-- **`config.taxFigure value`** — the tax figure of a result; one that is not finite is left out. -/
def taxFigure (config : Config) (value : Binary64) : Except FormatFault (Option TaxFigure) :=
  match (config.tax.apply value).filter Binary64.isFinite with
  | none => .ok none
  | some taxed => do
    let formatted ← taxed.format config.maxFractionDigits
    return some ⟨taxed, formatted, config.tax.mode, config.tax.effectiveRate, config.tax.label⟩

/-- **`config.calculate expression`** — the calculation of a displayed expression. -/
def calculate (config : Config) (expression : String) : Except FormatFault Calculation :=
  match evaluateDisplay expression with
  | .ok value => do
    let result ← value.format config.maxFractionDigits
    let tax ← config.taxFigure value
    return .success expression value result tax
  | .error error =>
    .ok (.failure expression error (Highlight.locate expression error.message)
      (config.localSuggestion expression))

end Config

end Reckoner
