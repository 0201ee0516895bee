/-
# Reckoner.Config — the settings of a calculator.
-/
import Reckoner.Tax

namespace Reckoner

/-- How many fractional digits a result has, unless a configuration says otherwise. -/
def defaultMaxFractionDigits : Nat := 10

/-- **`Config`** — the settings of a calculator. -/
structure Config where
  /-- Results are rounded to this many fractional digits. -/
  maxFractionDigits : Nat
  /-- Only repairs that evaluate are suggested. -/
  validateSuggestions : Bool
  /-- How long a remote adviser may take, in milliseconds. -/
  remoteTimeoutMs : Nat
  tax : TaxSettings
  deriving DecidableEq

/-- The settings that hold unless a configuration says otherwise. -/
def Config.default : Config := ⟨defaultMaxFractionDigits, true, 5000, .default⟩

end Reckoner
