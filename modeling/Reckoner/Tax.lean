/-
# Reckoner.Tax — a tax figure derived from a result.

A mode says how the figure comes from the result: 15 percent on top, a chosen percentage on top, a
chosen percentage that the result already includes taken out of it, or the result divided by 0.93. The
arithmetic is binary64, each step rounded, and a chosen rate may be any number: minus one hundred
percent, for one, makes the factor zero.
-/
import Reckoner.Number.Decimal

namespace Reckoner

/-- How a tax figure is derived. -/
inductive TaxMode
  | add15
  | custom
  | extractCustom
  | divide93
  deriving DecidableEq, Repr

namespace TaxMode

/-- All modes. -/
def all : List TaxMode := [add15, custom, extractCustom, divide93]

/-- The name of a mode in a configuration. -/
def name : TaxMode → String
  | add15 => "add-15"
  | custom => "custom"
  | extractCustom => "extract-custom"
  | divide93 => "divide-93"

/-- **`ofName? s`** — the mode of that name. -/
def ofName? (s : String) : Option TaxMode := all.find? fun mode => mode.name == s

end TaxMode

/-- **`TaxSettings`** — whether there is a tax figure, its mode, and the percentage that the modes with
a chosen rate use. -/
structure TaxSettings where
  enabled : Bool
  mode : TaxMode
  rate : Binary64
  deriving DecidableEq

namespace TaxSettings

/-- No tax figure; 15 percent on top once it is enabled. -/
def default : TaxSettings := ⟨false, .add15, .ofNat 15⟩

/-- **`s.effectiveRate`** — the rate that is shown beside the figure. -/
def effectiveRate (s : TaxSettings) : Binary64 :=
  match s.mode with
  | .add15 => .ofNat 15
  | _ => s.rate

/-- **`s.factor`** — one plus the chosen percentage. -/
def factor (s : TaxSettings) : Binary64 := .add (.ofNat 1) (s.rate.div (.ofNat 100))

/-- **`s.apply value`** — the tax figure of a result, none when there is to be no figure. It need not
be finite. -/
def apply (s : TaxSettings) (value : Binary64) : Option Binary64 :=
  if s.enabled then
    some <| match s.mode with
      | .add15 => value.mul (.ofDecimal ⟨115, 2⟩)
      | .custom => value.mul s.factor
      | .extractCustom => value.div s.factor
      | .divide93 => value.div (.ofDecimal ⟨93, 2⟩)
  else
    none

/-- **`s.label`** — what the figure is. -/
def label (s : TaxSettings) : String :=
  match s.mode with
  | .extractCustom => "Amount before tax"
  | _ => "Total with tax"

end TaxSettings

end Reckoner
