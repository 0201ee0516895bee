/-
# Reckoner.Proofs.Config — which settings that are read let every calculation go through.

A configuration is accepted without a look at how many places it asks for, and a number is written with
no more than `maxPlaces`. So a document that gives a greater count is a configuration under which no
expression with a value is calculated, while every failure is diagnosed as under any other. No other
setting can stop a calculation: a tax figure is written with the same places, whatever its mode and
rate.
-/
import Reckoner.Config.Toml
import Reckoner.Proofs.Calculator
import Reckoner.Proofs.Repair.Offer

namespace Reckoner

/-! ## Settings in a document -/

namespace Toml

variable {table : Table} {config : Config} {value? : Option Value}

/-- The settings of a document are read one by one. -/
theorem config?_eq_some_iff :
    config? table = some config ↔
      orDefault Config.default.maxFractionDigits count? (table.lookup "max_fraction_digits") =
          some config.maxFractionDigits ∧
        orDefault Config.default.validateSuggestions boolean? (table.lookup "validate_suggestions") =
          some config.validateSuggestions ∧
        orDefault Config.default.remoteTimeoutMs count? (table.lookup "remote_timeout_ms") =
          some config.remoteTimeoutMs ∧
        orDefault Config.default.tax tax? (table.lookup "tax") = some config.tax := by
  simp only [config?, Option.bind_eq_bind, Option.bind_eq_some_iff, Option.pure_def,
    Option.some.injEq]
  constructor
  · rintro ⟨places, hplaces, validate, hvalidate, timeout, htimeout, tax, htax, rfl⟩
    exact ⟨hplaces, hvalidate, htimeout, htax⟩
  · rintro ⟨hplaces, hvalidate, htimeout, htax⟩
    exact ⟨_, hplaces, _, hvalidate, _, htimeout, _, htax, rfl⟩

theorem count?_eq_some_iff {value : Value} {n : Nat} :
    count? value = some n ↔ value = .integer n := by
  cases value with
  | integer i =>
    rw [count?, Value.integer.injEq]
    split <;> simp <;> omega
  | _ => simp [count?]

/-- A count that is given is an integer, and one that is not given has its default. -/
theorem orDefault_count?_eq_some_iff {default n : Nat} :
    orDefault default count? value? = some n ↔
      value? = none ∧ n = default ∨ value? = some (.integer n) := by
  cases value? with
  | none => simp [orDefault, eq_comm]
  | some value => simp [orDefault, count?_eq_some_iff]

/-- A bound on a count is one on the integer that is given, if the default obeys it. -/
theorem le_iff_of_orDefault {default n bound : Nat} (h : orDefault default count? value? = some n)
    (hdefault : default ≤ bound) : n ≤ bound ↔ ∀ i, value? = some (.integer i) → i ≤ bound := by
  rcases orDefault_count?_eq_some_iff.mp h with ⟨rfl, rfl⟩ | rfl
  · exact iff_of_true hdefault fun i hi => by cases hi
  · constructor
    · intro hle i hi
      cases hi
      exact Int.ofNat_le.mpr hle
    · intro hle
      exact Int.ofNat_le.mp (hle n rfl)

end Toml

/-! ## Calculations under a configuration -/

namespace Config

variable {config : Config} {expression : String}

/-- With as many places as can be written a calculation goes through, whatever the expression. -/
theorem exists_calculate (h : config.maxFractionDigits ≤ maxPlaces) (expression : String) :
    ∃ calculation, config.calculate expression = .ok calculation ∧
      calculation.expression = expression ∧
      (calculation.isSuccess = true ↔ evaluates expression = true) := by
  rw [evaluates]
  cases hv : evaluateDisplay expression with
  | error error => exact ⟨_, calculate_of_error hv, rfl, by simp [Calculation.isSuccess]⟩
  | ok v =>
    obtain ⟨tax, -, hc⟩ := calculate_eq_ok h hv
    exact ⟨_, hc, rfl, by simp [Calculation.isSuccess]⟩

/-- With more places nothing that has a value can be written. -/
theorem calculate_of_lt (h : maxPlaces < config.maxFractionDigits) {v : Binary64}
    (hv : evaluateDisplay expression = .ok v) :
    config.calculate expression = .error .placesOutOfRange := by
  rw [calculate, hv]
  show (v.format config.maxFractionDigits).bind _ = _
  rw [Binary64.format, if_neg (Nat.not_le.mpr h)]
  rfl

/-- A calculation does not go through just if there is a value, and it cannot be written. -/
theorem calculate_eq_error_iff {fault : FormatFault} :
    config.calculate expression = .error fault ↔
      maxPlaces < config.maxFractionDigits ∧ evaluates expression = true := by
  constructor
  · intro hfault
    have hplaces : maxPlaces < config.maxFractionDigits := by
      by_contra hle
      obtain ⟨calculation, hc, -⟩ := exists_calculate (Nat.le_of_not_lt hle) expression
      rw [hfault] at hc
      cases hc
    refine ⟨hplaces, ?_⟩
    cases hv : evaluateDisplay expression with
    | error error =>
      rw [calculate_of_error hv] at hfault
      cases hfault
    | ok v => exact evaluates_iff.mpr ⟨v, hv⟩
  · rintro ⟨hplaces, hevaluates⟩
    obtain ⟨v, hv⟩ := evaluates_iff.mp hevaluates
    exact calculate_of_lt hplaces hv

/-- **`calculate_of_toml`** — under settings that were read every expression is calculated, if the
document asks for no more places than can be written. If it asks for more, just the expressions without
a value are. The other settings have no part in this. -/
theorem calculate_of_toml {text : String} (h : ofToml? text = some config) :
    ∃ table, Toml.read text.toList = some table ∧
      (config.maxFractionDigits ≤ 65535 ↔
        ∀ i, table.lookup "max_fraction_digits" = some (.integer i) → i ≤ 65535) ∧
      (config.maxFractionDigits ≤ 65535 → ∀ e, ∃ calculation,
        config.calculate e = .ok calculation ∧ calculation.expression = e ∧
          (calculation.isSuccess = true ↔ evaluates e = true)) ∧
      ∀ e, config.calculate e = .error .placesOutOfRange ↔
        65535 < config.maxFractionDigits ∧ evaluates e = true := by
  obtain ⟨table, hread, hconfig⟩ := Option.bind_eq_some_iff.mp h
  obtain ⟨hplaces, -⟩ := Toml.config?_eq_some_iff.mp hconfig
  have hdefault : Config.default.maxFractionDigits ≤ 65535 := by decide
  exact ⟨table, hread, Toml.le_iff_of_orDefault hplaces hdefault, exists_calculate,
    fun e => calculate_eq_error_iff⟩

/-- A document may ask for the most places that can be written, and for a tax with them. -/
theorem calculate_of_toml_of_most_places :
    ∃ config, ofToml? "max_fraction_digits = 65535\ntax = [true, \"custom\", 5]" = some config ∧
      config.maxFractionDigits = 65535 ∧ config.tax = ⟨true, .custom, .ofNat 5⟩ ∧
      ∃ calculation, config.calculate "1÷3" = .ok calculation ∧ calculation.isSuccess = true := by
  let config : Config :=
    { default with maxFractionDigits := 65535, tax := ⟨true, .custom, .ofNat 5⟩ }
  have h : ofToml? "max_fraction_digits = 65535\ntax = [true, \"custom\", 5]" = some config := by
    decide +kernel
  obtain ⟨table, -, -, hcalculate, -⟩ := calculate_of_toml h
  obtain ⟨calculation, hc, -, hsuccess⟩ := hcalculate (Nat.le_refl _) "1÷3"
  exact ⟨config, h, rfl, rfl, calculation, hc, hsuccess.mpr (by decide +kernel)⟩

/-- A document that asks for one place more is read, and a mere `1` is not calculated then. -/
theorem calculate_of_one_place_more :
    ∃ config, ofToml? "max_fraction_digits = 65536" = some config ∧
      config.calculate "1" = .error .placesOutOfRange ∧
      ¬ ∃ calculation, config.calculate "1" = .ok calculation := by
  have h : ofToml? "max_fraction_digits = 65536" =
      some { default with maxFractionDigits := 65536 } := by decide +kernel
  have hfault : Config.calculate { default with maxFractionDigits := 65536 } "1" =
      .error .placesOutOfRange :=
    calculate_eq_error_iff.mpr ⟨Nat.lt_succ_self _, by decide +kernel⟩
  refine ⟨_, h, hfault, ?_⟩
  rintro ⟨calculation, hc⟩
  rw [hfault] at hc
  cases hc

end Config

end Reckoner
