/-
# Reckoner.Proofs.Repair.Offer — which repair a failed calculation offers.

A run of repairs goes through the iterates of one function, `mended`. So with validation on, what is
offered is the earliest of the first `maxRepairRounds` iterates that has a value, or nothing where none
of them has. An expression of which no repair is known is mended to the empty text. That text has no
value and stays as it is, so iterates beyond the end of a run never count.

The fix and the message need not come from the same round: the message is that of the first rule that
fires on the expression that failed.
-/
import Mathlib.Logic.Function.Iterate
import Reckoner.Proofs.Calculator
import Reckoner.Proofs.Repair.Run

namespace Reckoner

/-! ## The iterates -/

/-- **`mended expression`** — the expression after one repair, empty if no repair is known. -/
def mended (expression : String) : String := (suggestFix expression).fix

/-- **`EarliestMend n expression fix`** — `fix` is what `n` repairs make of the expression, and it is the
first on the way there that has a value. -/
structure EarliestMend (n : Nat) (expression fix : String) : Prop where
  pos : 0 < n
  eq_iterate : fix = mended^[n] expression
  evaluates_eq : evaluates fix = true
  earlier : ∀ m, 0 < m → m < n → evaluates (mended^[m] expression) = false

theorem evaluates_empty : evaluates "" = false := rfl

theorem evaluates_iff {expression : String} :
    evaluates expression = true ↔ ∃ v, evaluateDisplay expression = .ok v := by
  rw [evaluates]
  cases evaluateDisplay expression with
  | ok v => exact iff_of_true rfl ⟨v, rfl⟩
  | error _ => exact iff_of_false Bool.false_ne_true fun ⟨_, h⟩ => by cases h

variable {expression : String} {rule : Rule} {fixed : List Char}

theorem mended_of_firstFix?_eq_none (h : firstFix? expression.toList = none) :
    mended expression = "" := by
  rw [mended, suggestFix, h]
  rfl

theorem mended_of_firstFix?_eq_some (h : firstFix? expression.toList = some (rule, fixed)) :
    mended expression = .ofList fixed := by
  rw [mended, suggestFix_of_firstFix?_eq_some h]

/-- Without a first repair there is no later one. -/
theorem iterate_mended_of_firstFix?_eq_none (h : firstFix? expression.toList = none) (n : Nat) :
    mended^[n + 1] expression = "" := by
  rw [Function.iterate_succ_apply, mended_of_firstFix?_eq_none h]
  exact Function.iterate_fixed (show mended "" = "" from rfl) n

/-! ## The earliest repair that has a value -/

theorem EarliestMend.one (h : evaluates (mended expression) = true) :
    EarliestMend 1 expression (mended expression) where
  pos := Nat.one_pos
  eq_iterate := rfl
  evaluates_eq := h
  earlier := fun m hpos hlt => by omega

theorem EarliestMend.succ {n : Nat} {fix : String} (hfirst : evaluates (mended expression) = false)
    (h : EarliestMend n (mended expression) fix) : EarliestMend (n + 1) expression fix where
  pos := Nat.succ_pos n
  eq_iterate := h.eq_iterate
  evaluates_eq := h.evaluates_eq
  earlier := by
    intro m hpos hlt
    obtain ⟨k, rfl⟩ := Nat.exists_eq_succ_of_ne_zero (Nat.ne_of_gt hpos)
    rcases Nat.eq_zero_or_pos k with rfl | hk
    · exact hfirst
    · exact h.earlier k hk (Nat.lt_of_succ_lt_succ hlt)

/-- The step of a run that is accepted is the earliest repair that has a value. -/
theorem earliestMend_of_find? {rounds : Nat} {step : Suggestion}
    (h : (repairSteps rounds expression).find? (fun step => evaluates step.fix) = some step) :
    ∃ n, n ≤ rounds ∧ EarliestMend n expression step.fix := by
  induction rounds generalizing expression with
  | zero => cases h
  | succ rounds ih =>
    cases hfirst : firstFix? expression.toList with
    | none =>
      rw [repairSteps_of_firstFix?_eq_none hfirst] at h
      cases h
    | some firing =>
      obtain ⟨rule, fixed⟩ := firing
      have hmended := mended_of_firstFix?_eq_some hfirst
      rw [repairSteps_of_firstFix?_eq_some hfirst, ← hmended] at h
      cases heval : evaluates (mended expression) with
      | true =>
        simp only [List.find?_cons, heval] at h
        obtain rfl := Option.some.inj h
        exact ⟨1, Nat.succ_pos rounds, .one heval⟩
      | false =>
        simp only [List.find?_cons, heval] at h
        obtain ⟨n, hn, hmend⟩ := ih h
        exact ⟨n + 1, Nat.succ_le_succ hn, hmend.succ heval⟩

/-- A run without a step to accept has no repair with a value among its iterates. -/
theorem evaluates_iterate_of_find?_eq_none {rounds : Nat}
    (h : (repairSteps rounds expression).find? (fun step => evaluates step.fix) = none) {n : Nat}
    (hpos : 0 < n) (hn : n ≤ rounds) : evaluates (mended^[n] expression) = false := by
  induction rounds generalizing expression n with
  | zero => omega
  | succ rounds ih =>
    obtain ⟨m, rfl⟩ := Nat.exists_eq_add_one_of_ne_zero (Nat.ne_of_gt hpos)
    cases hfirst : firstFix? expression.toList with
    | none => rw [iterate_mended_of_firstFix?_eq_none hfirst, evaluates_empty]
    | some firing =>
      obtain ⟨rule, fixed⟩ := firing
      rw [repairSteps_of_firstFix?_eq_some hfirst, ← mended_of_firstFix?_eq_some hfirst] at h
      obtain ⟨hhead, htail⟩ := List.forall_mem_cons.mp (List.find?_eq_none.mp h)
      rcases Nat.eq_zero_or_pos m with rfl | hm
      · exact Bool.eq_false_iff.mpr hhead
      · exact ih (List.find?_eq_none.mpr htail) hm (Nat.le_of_succ_le_succ hn)

/-! ## The message -/

/-- **`rule.FiresFirst expression`** — the rule fires on the expression, and none that is tried before
it does. -/
def Rule.FiresFirst (rule : Rule) (expression : String) : Prop :=
  (rule.apply expression).isSome = true ∧
    ∃ earlier later, Rule.order = earlier ++ rule :: later ∧
      ∀ r ∈ earlier, r.apply expression = none

theorem Rule.firesFirst_of_firstFix? (h : firstFix? expression.toList = some (rule, fixed)) :
    rule.FiresFirst expression := by
  refine ⟨?_, ?_⟩
  · rw [Rule.apply, fire?_of_firstFix?_eq_some h]
    rfl
  · obtain ⟨earlier, r, later, horder, hfire, hearlier⟩ := List.findSome?_eq_some_iff.mp h
    obtain ⟨_, _, heq⟩ := Option.map_eq_some_iff.mp hfire
    obtain ⟨rfl, -⟩ := Prod.mk.inj heq
    refine ⟨earlier, later, horder, fun r hr => ?_⟩
    rw [Rule.apply, Option.map_eq_none_iff.mp (hearlier r hr)]
    rfl

/-! ## What is offered -/

namespace Config

variable {config : Config} {shown : String} {error : Failure} {highlight : Option Highlight}
  {suggestion : Option Suggestion}

theorem calculate_of_error (h : evaluateDisplay expression = .error error) :
    config.calculate expression =
      .ok (.failure expression error (Highlight.locate expression error.message)
        (config.localSuggestion expression)) := by
  rw [calculate, h]

/-- What has no value fails with the repair that is offered for it. -/
theorem exists_failure_of_localSuggestion {offer : Suggestion}
    (herror : evaluateDisplay expression = .error error)
    (hoffer : config.localSuggestion expression = some offer) :
    ∃ highlight, config.calculate expression =
      .ok (.failure expression error highlight (some offer)) := by
  refine ⟨Highlight.locate expression error.message, ?_⟩
  rw [calculate_of_error herror, hoffer]

/-- A failure is that of the evaluation. -/
theorem failure_of_calculate
    (h : config.calculate expression = .ok (.failure shown error highlight suggestion)) :
    evaluateDisplay expression = .error error ∧ shown = expression ∧
      highlight = Highlight.locate expression error.message ∧
      suggestion = config.localSuggestion expression := by
  cases hv : evaluateDisplay expression with
  | error failure =>
    rw [calculate_of_error hv] at h
    cases h
    exact ⟨rfl, rfl, rfl, rfl⟩
  | ok v =>
    -- what may go wrong with a value is its writing, and that is no failed calculation
    rw [calculate, hv] at h
    change (v.format config.maxFractionDigits).bind _ = _ at h
    cases hresult : v.format config.maxFractionDigits with
    | error _ =>
      rw [hresult] at h
      cases h
    | ok result =>
      rw [hresult] at h
      change (config.taxFigure v).bind _ = _ at h
      cases htax : config.taxFigure v with
      | error _ =>
        rw [htax] at h
        cases h
      | ok tax =>
        rw [htax] at h
        cases h

/-- With validation on, the fix is looked for along the run, under the message of its first step. -/
theorem localSuggestion_of_validate (h : config.validateSuggestions = true) :
    config.localSuggestion expression =
      ((repairSteps maxRepairRounds expression).find? fun step => evaluates step.fix).map
        fun step => ⟨step.fix, (suggestFix expression).message⟩ := by
  rw [localSuggestion, if_pos h]
  split
  · rename_i hempty
    rw [maxRepairRounds, repairSteps, if_pos hempty]
    rfl
  · rfl

theorem isSome_localSuggestion_iff (h : config.validateSuggestions = true) :
    (config.localSuggestion expression).isSome = true ↔
      ∃ n, 0 < n ∧ n ≤ 4 ∧ evaluates (mended^[n] expression) = true := by
  rw [localSuggestion_of_validate h]
  cases hfind : (repairSteps maxRepairRounds expression).find? fun step => evaluates step.fix with
  | none =>
    refine iff_of_false Bool.false_ne_true ?_
    rintro ⟨n, hpos, hn, heval⟩
    rw [evaluates_iterate_of_find?_eq_none hfind hpos hn] at heval
    cases heval
  | some step =>
    obtain ⟨n, hn, hmend⟩ := earliestMend_of_find? hfind
    exact iff_of_true rfl ⟨n, hmend.pos, hn, hmend.eq_iterate ▸ hmend.evaluates_eq⟩

/-- What is offered with validation on: a fix from the run, and the message of its first rule. -/
theorem earliestMend_of_localSuggestion (h : config.validateSuggestions = true)
    {offer : Suggestion} (hoffer : config.localSuggestion expression = some offer) :
    (∃ n, n ≤ 4 ∧ EarliestMend n expression offer.fix) ∧
      ∃ rule fixed, firstFix? expression.toList = some (rule, fixed) ∧
        offer.message = rule.message := by
  rw [localSuggestion_of_validate h] at hoffer
  obtain ⟨step, hfind, rfl⟩ := Option.map_eq_some_iff.mp hoffer
  obtain ⟨rule, fixed, hfirst⟩ :=
    exists_firstFix?_of_mem_repairSteps (List.mem_of_find?_eq_some hfind)
  obtain ⟨n, hn, hmend⟩ := earliestMend_of_find? hfind
  refine ⟨⟨n, hn, hmend⟩, rule, fixed, hfirst, ?_⟩
  rw [suggestFix_of_firstFix?_eq_some hfirst]

/-- With validation off, the first step of the run is offered as it is. -/
theorem localSuggestion_of_not_validate (h : config.validateSuggestions = false)
    (hfirst : firstFix? expression.toList = some (rule, fixed)) :
    config.localSuggestion expression = some ⟨.ofList fixed, rule.message⟩ := by
  rw [localSuggestion, h, isEmpty_suggestFix_of_firstFix?_eq_some hfirst,
    suggestFix_of_firstFix?_eq_some hfirst]
  rfl

/-- A first repair that has a value is offered whether it is validated or not. -/
theorem localSuggestion_of_evaluates (hfirst : firstFix? expression.toList = some (rule, fixed))
    (heval : evaluates (.ofList fixed) = true) :
    config.localSuggestion expression = some ⟨.ofList fixed, rule.message⟩ := by
  cases hvalidate : config.validateSuggestions with
  | false => exact localSuggestion_of_not_validate hvalidate hfirst
  | true =>
    rw [localSuggestion_of_validate hvalidate, maxRepairRounds,
      repairSteps_of_firstFix?_eq_some hfirst, suggestFix_of_firstFix?_eq_some hfirst]
    simp only [List.find?_cons, heval, Option.map_some]

/-- With validation on, a second repair is offered when the first one has no value and it has one, and
the message is still that of the first. -/
theorem localSuggestion_of_second {rule' : Rule} {fixed' : List Char}
    (hvalidate : config.validateSuggestions = true)
    (hfirst : firstFix? expression.toList = some (rule, fixed))
    (hnone : evaluates (.ofList fixed) = false) (hsecond : firstFix? fixed = some (rule', fixed'))
    (heval : evaluates (.ofList fixed') = true) :
    config.localSuggestion expression = some ⟨.ofList fixed', rule.message⟩ := by
  rw [← @String.toList_ofList fixed] at hsecond
  rw [localSuggestion_of_validate hvalidate, maxRepairRounds,
    repairSteps_of_firstFix?_eq_some hfirst, repairSteps_of_firstFix?_eq_some hsecond,
    suggestFix_of_firstFix?_eq_some hfirst]
  simp only [List.find?_cons, hnone, heval, Option.map_some]

/-- A success is that of an expression with a value. -/
theorem exists_value_of_success {v : Binary64} {result : String} {tax : Option TaxFigure}
    (h : config.calculate expression = .ok (.success shown v result tax)) :
    ∃ w, evaluateDisplay expression = .ok w := by
  cases hvalue : evaluateDisplay expression with
  | ok w => exact ⟨w, rfl⟩
  | error failure =>
    rw [calculate_of_error hvalue] at h
    cases h

/-- **`calculate_offers`** — with validation on, a failed calculation offers a repair just when one of
the first four repairs has a value. The fix is the earliest of them, neither empty nor what failed, and
it calculates; the message is that of the first rule that fires on what failed. With validation off, a
repair is offered then too, under the same message. -/
theorem calculate_offers (hplaces : config.maxFractionDigits ≤ 65535)
    (hvalidate : config.validateSuggestions = true)
    (hc : config.calculate expression = .ok (.failure shown error highlight suggestion)) :
    (suggestion.isSome = true ↔
        ∃ n, 0 < n ∧ n ≤ 4 ∧ ∃ v, evaluate (toEvaluator (mended^[n] expression)) = .ok v) ∧
      ∀ offer, suggestion = some offer →
        (∃ n, n ≤ 4 ∧ EarliestMend n expression offer.fix) ∧
          offer.fix ≠ "" ∧ offer.fix ≠ expression ∧
          (∃ rule, Rule.FiresFirst rule expression ∧ offer.message = rule.message) ∧
          (∃ v result tax, config.calculate offer.fix = .ok (.success offer.fix v result tax)) ∧
          ∃ fix, ({ config with validateSuggestions := false } : Config).calculate expression =
            .ok (.failure shown error highlight (some ⟨fix, offer.message⟩)) := by
  obtain ⟨herror, rfl, rfl, rfl⟩ := failure_of_calculate hc
  refine ⟨?_, fun offer hoffer => ?_⟩
  · rw [isSome_localSuggestion_iff hvalidate]
    simp only [evaluates_iff, evaluateDisplay]
  · obtain ⟨⟨n, hn, hmend⟩, rule, fixed, hfirst, hmessage⟩ :=
      earliestMend_of_localSuggestion hvalidate hoffer
    obtain ⟨v, hv⟩ := evaluates_iff.mp hmend.evaluates_eq
    obtain ⟨tax, -, hsuccess⟩ := calculate_eq_ok hplaces hv
    refine ⟨⟨n, hn, hmend⟩, ?_, ?_, ⟨rule, Rule.firesFirst_of_firstFix? hfirst, hmessage⟩,
      ⟨v, _, tax, hsuccess⟩, .ofList fixed, ?_⟩
    · intro hempty
      rw [hempty] at hv
      cases hv
    · -- what failed has no value
      intro hsame
      rw [hsame, herror] at hv
      cases hv
    · rw [calculate_of_error herror, localSuggestion_of_not_validate rfl hfirst, hmessage]

/-- The fourth repair is the earliest with a value. -/
theorem calculate_offers_of_four_repairs :
    Config.default.maxFractionDigits ≤ 65535 ∧ Config.default.validateSuggestions = true ∧
      Config.default.calculate "5++(-" =
        .ok (.failure "5++(-" .unbalancedParentheses (some ⟨"5++", "(", "-"⟩)
          (some ⟨"5", Rule.duplicateOperator.message⟩)) ∧
      (∃ n, n ≤ 4 ∧ EarliestMend n "5++(-" "5") ∧
      ∃ v result tax, Config.default.calculate "5" = .ok (.success "5" v result tax) := by
  have hc : Config.default.calculate "5++(-" =
      .ok (.failure "5++(-" .unbalancedParentheses (some ⟨"5++", "(", "-"⟩)
        (some ⟨"5", Rule.duplicateOperator.message⟩)) :=
    eq_ok_of_toOption_eq_some (by decide +kernel)
  obtain ⟨hearliest, -, -, -, hsuccess, -⟩ := (calculate_offers (by decide) rfl hc).2 _ rfl
  exact ⟨by decide, rfl, hc, hearliest, hsuccess⟩

end Config

end Reckoner
