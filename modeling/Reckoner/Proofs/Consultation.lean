/-
# Reckoner.Proofs.Consultation — what a remote adviser can change, and when it is asked.

An adviser has a say only where a calculation failed and no repair is known. It is asked once then, for
the expression as it was entered and the wording of the failure, and its suggestion takes the place of
the missing one. Nothing else of the calculation can change, whatever is delivered and whenever.

Waiting for the adviser is said in one step by `Delivery.within`. What happens is that the request is
looked at again and again, with the answer first and the clock second: an answer that is there is taken
even if the time is up, and without one the request is given up once the time is up. The two agree for
every sequence of looks in which there is one at the end of the time (`Delivery.findSome?_look`). A look
that only comes later may find an answer that was late.
-/
import Reckoner.Proofs.Repair.Offer
import Reckoner.Remote.Adviser

namespace Reckoner

/-! ## Waiting -/

namespace Delivery

/-- **`delivery.arrived now`** — the answer, if it has arrived after `now` milliseconds. -/
def arrived (delivery : Delivery) (now : Nat) : Option (Option Suggestion) :=
  match delivery with
  | never => none
  | after delay reply => if delay ≤ now then some reply else none

/-- **`delivery.look timeout now`** — the suggestion that the wait ends with, if it ends with a look
after `now` milliseconds. -/
def look (delivery : Delivery) (timeout now : Nat) : Option (Option Suggestion) :=
  match delivery.arrived now with
  | some reply => some (reply.filter (!·.isEmpty))
  | none => if timeout ≤ now then some none else none

variable {delivery : Delivery} {timeout now : Nat} {reply : Option Suggestion}

theorem arrived_eq_some_iff :
    delivery.arrived now = some reply ↔ ∃ delay, delivery = .after delay reply ∧ delay ≤ now := by
  cases delivery with
  | never => simp [arrived]
  | after delay answer => simp [arrived, and_comm]

/-- An answer that has arrived stays. -/
theorem arrived_mono (h : delivery.arrived now = some reply) (hle : now ≤ timeout) :
    delivery.arrived timeout = some reply := by
  obtain ⟨delay, rfl, hdelay⟩ := arrived_eq_some_iff.mp h
  exact arrived_eq_some_iff.mpr ⟨delay, rfl, hdelay.trans hle⟩

theorem within_eq_join_arrived (delivery : Delivery) (timeout : Nat) :
    delivery.within timeout = (delivery.arrived timeout).join.filter (!·.isEmpty) := by
  cases delivery with
  | never => rfl
  | after delay reply =>
    rw [within, arrived]
    split <;> rfl

theorem within_eq_some_iff {suggestion : Suggestion} :
    delivery.within timeout = some suggestion ↔
      ∃ delay ≤ timeout, delivery = .after delay (some suggestion) ∧ suggestion.fix ≠ "" := by
  have hempty : (!suggestion.isEmpty) = true ↔ suggestion.fix ≠ "" := by
    rw [Suggestion.isEmpty, Bool.not_eq_true', ← Bool.not_eq_true, String.isEmpty_iff]
  rw [within_eq_join_arrived, Option.filter_eq_some_iff, Option.join_eq_some_iff,
    arrived_eq_some_iff, hempty]
  constructor
  · rintro ⟨⟨delay, rfl, hdelay⟩, hfix⟩
    exact ⟨delay, hdelay, rfl, hfix⟩
  · rintro ⟨delay, hdelay, rfl, hfix⟩
    exact ⟨⟨delay, rfl, hdelay⟩, hfix⟩

/-- The look at the end of the time ends the wait. -/
theorem look_self (delivery : Delivery) (timeout : Nat) :
    delivery.look timeout timeout = some (delivery.within timeout) := by
  rw [look, within_eq_join_arrived]
  cases delivery.arrived timeout with
  | some reply => rfl
  | none => exact if_pos (Nat.le_refl timeout)

/-- A look before finds nothing yet, or what the wait ends with. -/
theorem look_of_lt (delivery : Delivery) (h : now < timeout) :
    delivery.look timeout now = none ∨
      delivery.look timeout now = some (delivery.within timeout) := by
  rw [look, within_eq_join_arrived]
  cases hnow : delivery.arrived now with
  | some reply =>
    rw [arrived_mono hnow (Nat.le_of_lt h)]
    exact .inr rfl
  | none => exact .inl (if_neg (Nat.not_le.mpr h))

/-- Looks from time to time end the wait as `within` says, if there is one at the end of the time. -/
theorem findSome?_look {instants : List Nat} (hsorted : instants.Pairwise (· ≤ ·))
    (hend : timeout ∈ instants) :
    instants.findSome? (delivery.look timeout) = some (delivery.within timeout) := by
  induction instants with
  | nil => cases hend
  | cons now later ih =>
    obtain ⟨hlater, hsorted⟩ := List.pairwise_cons.mp hsorted
    rw [List.findSome?_cons]
    rcases List.mem_cons.mp hend with rfl | hend
    · rw [look_self]
    · rcases Nat.eq_or_lt_of_le (hlater timeout hend) with rfl | hlt
      · rw [look_self]
      · -- the look at the end of the time is still to come
        rcases delivery.look_of_lt hlt with hnone | hsome
        · rw [hnone]
          exact ih hsorted hend
        · rw [hsome]

end Delivery

/-! ## The consultation -/

namespace Config

variable {config : Config} {adviser : Adviser} {expression : String} {calculation : Calculation}

theorem consult_of_ok (h : config.calculate expression = .ok calculation) :
    config.consult adviser expression = .ok (config.complete adviser calculation) := by
  rw [consult, h]
  rfl

/-- What needs no help is left as it is, and nobody is asked. -/
theorem complete_of_settled (h : calculation.isSuccess = true ∨ calculation.suggestion?.isSome = true) :
    config.complete adviser calculation = ⟨calculation, []⟩ := by
  cases calculation with
  | success shown v result tax => rfl
  | failure shown error highlight suggestion =>
    cases suggestion with
    | some offer => rfl
    | none => rcases h with h | h <;> cases h

/-- A failure is that of the expression that was entered. -/
theorem exists_of_unsettled (h : config.calculate expression = .ok calculation)
    (hfailure : calculation.isSuccess = false) (hnone : calculation.suggestion? = none) :
    ∃ error highlight, calculation = .failure expression error highlight none := by
  cases calculation with
  | success shown v result tax => cases hfailure
  | failure shown error highlight suggestion =>
    obtain ⟨-, rfl, -, -⟩ := failure_of_calculate h
    obtain rfl : suggestion = none := hnone
    exact ⟨error, highlight, rfl⟩

/-- **`consult_asks_once`** — a calculation that succeeds or comes with a suggestion is left as it is,
and the adviser is not asked. Otherwise it is asked once, for the expression as entered and the wording
of the error, and only the suggestion of the calculation changes: to the adviser's, where one with a fix
arrives in time, and this is what looking at the request from time to time until the end of the time
comes to as well. -/
theorem consult_asks_once (config : Config) (adviser : Adviser) (expression : String) :
    (∀ fault, config.calculate expression = .error fault →
      config.consult adviser expression = .error fault) ∧
    ∀ calculation, config.calculate expression = .ok calculation →
      (calculation.isSuccess = true ∨ calculation.suggestion?.isSome = true →
        config.consult adviser expression = .ok ⟨calculation, []⟩) ∧
      (calculation.isSuccess = false → calculation.suggestion? = none →
        ∃ error highlight, calculation = .failure expression error highlight none ∧
          ∃ suggestion, config.consult adviser expression =
              .ok ⟨.failure expression error highlight suggestion, [(expression, error.message)]⟩ ∧
            (∀ s, suggestion = some s ↔ ∃ delay ≤ config.remoteTimeoutMs,
              adviser expression error.message = .after delay (some s) ∧ s.fix ≠ "") ∧
            ∀ instants : List Nat, instants.Pairwise (· ≤ ·) → config.remoteTimeoutMs ∈ instants →
              instants.findSome? ((adviser expression error.message).look config.remoteTimeoutMs) =
                some suggestion) := by
  refine ⟨fun fault hfault => ?_, fun calculation hc => ⟨fun hsettled => ?_, fun hfailure hnone => ?_⟩⟩
  · rw [consult, hfault]
    rfl
  · rw [consult_of_ok hc, complete_of_settled hsettled]
  · obtain ⟨error, highlight, rfl⟩ := exists_of_unsettled hc hfailure hnone
    refine ⟨error, highlight, rfl, _, consult_of_ok hc, fun s => Delivery.within_eq_some_iff, ?_⟩
    intro instants hsorted hend
    exact Delivery.findSome?_look hsorted hend

/-- The answer arrives at the very end of the time, for the one of two expressions that needs it. -/
theorem consult_asks_once_of_last_moment :
    ∃ adviser : Adviser, adviser "8÷0" "Division by zero" = .after 5000 (some ⟨"8÷2", "Not by zero."⟩) ∧
      Config.default.calculate "8÷0" =
        .ok (.failure "8÷0" .divisionByZero (some ⟨"8", "÷0", ""⟩) none) ∧
      Config.default.consult adviser "8÷0" =
        .ok ⟨.failure "8÷0" .divisionByZero (some ⟨"8", "÷0", ""⟩) (some ⟨"8÷2", "Not by zero."⟩),
          [("8÷0", "Division by zero")]⟩ ∧
      Config.default.calculate "2+2" = .ok (.success "2+2" (.ofNat 4) "4" none) ∧
      Config.default.consult adviser "2+2" = .ok ⟨.success "2+2" (.ofNat 4) "4" none, []⟩ := by
  let adviser : Adviser := fun _ _ => .after 5000 (some ⟨"8÷2", "Not by zero."⟩)
  have hzero : Config.default.calculate "8÷0" =
      .ok (.failure "8÷0" .divisionByZero (some ⟨"8", "÷0", ""⟩) none) :=
    eq_ok_of_toOption_eq_some (by decide +kernel)
  have hsum : Config.default.calculate "2+2" = .ok (.success "2+2" (.ofNat 4) "4" none) :=
    eq_ok_of_toOption_eq_some (by decide +kernel)
  obtain ⟨error, highlight, heq, suggestion, hconsult, hsuggestion, -⟩ :=
    ((consult_asks_once .default adviser "8÷0").2 _ hzero).2 rfl rfl
  cases heq
  obtain rfl : suggestion = some ⟨"8÷2", "Not by zero."⟩ :=
    (hsuggestion _).mpr ⟨5000, Nat.le_refl _, rfl, by decide⟩
  have hleft := ((consult_asks_once .default adviser "2+2").2 _ hsum).1 (.inl rfl)
  exact ⟨adviser, rfl, hzero, hconsult, hsum, hleft⟩

end Config

end Reckoner
