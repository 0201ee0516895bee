/-
# Reckoner.Config.Toml — settings read from a TOML document.

Every setting has a default, so the empty document is a configuration, and keys without a meaning are
passed over. A setting that is given has to have its type: counts are integers that are not negative,
and only the tax rate may be an integer or a float.

Two shapes are accepted besides the plain ones. The tax settings may be an array of their values, in
the order enabled, mode, rate, of which the last may be missing; and a tax mode may be a table whose
only key is the mode's name, with an empty table or array as its value. A date in place of the tax
settings is a table without any known key.
-/
import Reckoner.Config
import Reckoner.Toml.Reading

namespace Reckoner

namespace Toml

/-- **`count? value`** — an integer that is not negative. -/
def count? : Value → Option Nat
  | .integer i => if 0 ≤ i then some i.toNat else none
  | _ => none

/-- **`boolean? value`** — a truth value. -/
def boolean? : Value → Option Bool
  | .boolean b => some b
  | _ => none

/-- **`number? value`** — a float, or an integer rounded to the nearest one. -/
def number? : Value → Option Binary64
  | .float x => some x
  | .integer i => some (.ofInt i)
  | _ => none

/-- **`isEmptyCollection value`** — an array or a table that holds nothing. -/
def isEmptyCollection : Value → Bool
  | .array items => items.isEmpty
  | .table _ entries => entries.isEmpty
  | _ => false

/-- **`taxMode? value`** — a tax mode, by name or as a table with that name. -/
def taxMode? : Value → Option TaxMode
  | .string name => TaxMode.ofName? name
  | .table _ [(name, value)] => if isEmptyCollection value then TaxMode.ofName? name else none
  | _ => none

/-- **`orDefault default read value?`** — the default for a value that is not given, and else what is
read from it. -/
def orDefault {α : Type} (default : α) (read : Value → Option α) : Option Value → Option α
  | none => some default
  | some value => read value

/-- **`taxOf? enabled mode rate`** — tax settings from the values that are given for them. -/
def taxOf? (enabled mode rate : Option Value) : Option TaxSettings := do
  return {
    enabled := ← orDefault TaxSettings.default.enabled boolean? enabled
    mode := ← orDefault TaxSettings.default.mode taxMode? mode
    rate := ← orDefault TaxSettings.default.rate number? rate
  }

/-- **`tax? value`** — tax settings, as a table or as an array. -/
def tax? : Value → Option TaxSettings
  | .table _ t => taxOf? (t.lookup "enabled") (t.lookup "mode") (t.lookup "rate")
  | .array items => taxOf? items[0]? items[1]? items[2]?
  | .datetime => some .default
  | _ => none

/-- **`config? t`** — the settings in a document. -/
def config? (t : Table) : Option Config := do
  return {
    maxFractionDigits :=
      ← orDefault Config.default.maxFractionDigits count? (t.lookup "max_fraction_digits")
    validateSuggestions :=
      ← orDefault Config.default.validateSuggestions boolean? (t.lookup "validate_suggestions")
    remoteTimeoutMs :=
      ← orDefault Config.default.remoteTimeoutMs count? (t.lookup "remote_timeout_ms")
    tax := ← orDefault Config.default.tax tax? (t.lookup "tax")
  }

end Toml

/-- **`Config.ofToml? text`** — the settings in a TOML text, none if it is no TOML document or a setting
has the wrong type. -/
def Config.ofToml? (text : String) : Option Config := (Toml.read text.toList).bind Toml.config?

end Reckoner
