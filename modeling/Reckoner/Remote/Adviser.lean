/-
# Reckoner.Remote.Adviser — asking a remote adviser when no repair is known.

An adviser is known by what it would deliver for an expression and the wording of its failure: an
answer after some time, or none ever. Time is a number of milliseconds and nothing more; an answer that
takes exactly as long as is allowed is still in time.

`consult` calculates first. The adviser is asked only when the calculation failed and no repair of its
own is suggested, and then once. What was asked is part of the outcome.
-/
import Reckoner.Calculator

namespace Reckoner

/-- **`Delivery`** — what becomes of a request. -/
inductive Delivery
  /-- Nothing arrives. -/
  | never
  /-- The answer, or the news that there is none, arrives after some milliseconds. -/
  | after (delay : Nat) (reply : Option Suggestion)
  deriving DecidableEq, Repr

/-- **`Adviser`** — what is delivered for an expression and the wording of its failure. -/
abbrev Adviser := String → String → Delivery

/-- The adviser that never has a suggestion. -/
def Adviser.silent : Adviser := fun _ _ => .after 0 none

/-- **`delivery.within timeout`** — the suggestion that arrives in time and has a fix. -/
def Delivery.within (delivery : Delivery) (timeout : Nat) : Option Suggestion :=
  match delivery with
  | never => none
  | after delay reply => if delay ≤ timeout then reply.filter (!·.isEmpty) else none

/-- **`Consultation`** — a calculation, and what the adviser was asked for it. -/
structure Consultation where
  calculation : Calculation
  asked : List (String × String)
  deriving DecidableEq

namespace Config

/-- **`config.complete adviser calculation`** — the calculation with the adviser's suggestion, if it
lacks one. -/
def complete (config : Config) (adviser : Adviser) (calculation : Calculation) : Consultation :=
  match calculation with
  | .failure expression error highlight none =>
    let message := error.message
    let suggestion := (adviser expression message).within config.remoteTimeoutMs
    ⟨.failure expression error highlight suggestion, [(expression, message)]⟩
  | _ => ⟨calculation, []⟩

/-- **`config.consult adviser expression`** — the calculation of a displayed expression, with the
adviser's help where it is needed. -/
def consult (config : Config) (adviser : Adviser) (expression : String) :
    Except FormatFault Consultation :=
  (config.calculate expression).map (config.complete adviser)

end Config

end Reckoner
