/-
# Reckoner.Proofs.Position — the position that is given for a character of a displayed expression.

An expression is parsed in the evaluator's spelling, and a failure is reported together with the
expression as it is displayed. The position of an unexpected character counts the characters of the
evaluator's spelling. The two spellings differ in length by the percent signs alone, each of which is
spelled with three characters more. So the position is too large by three for each percent sign in front
of the character, and with none there it is the position in the displayed expression.
-/
import Reckoner.Proofs.Diagnosis
import Reckoner.Proofs.Repair.Offer

namespace Reckoner

variable {cs front back : List Char} {c : Char}

/-! ## Respelled characters -/

theorem length_respell (cs : List Char) : (respell cs).length = cs.length + 3 * cs.count '%' := by
  induction cs with
  | nil => rfl
  | cons c cs ih =>
    rw [respell_cons, List.length_append, ih, List.length_cons, List.count_cons]
    simp only [evaluatorSpelling]
    repeat' split
    all_goals simp_all
    all_goals omega

theorem evaluatorSpelling_of_foreign {d : Char} (hc : Foreign c) (h : c ∈ evaluatorSpelling d) :
    evaluatorSpelling d = [d] := by
  refine evaluatorSpelling_of_mem_of_not_mem h fun hmem => ?_
  have hbelongs : ['*', '/', '1', '0'].all belongs = true := rfl
  rw [← belongs_eq_false_iff, List.all_eq_true.mp hbelongs c hmem] at hc
  cases hc

/-! ## Failures -/

/-- A failure that is neither a division by zero nor a value that is not finite is one of parsing. -/
theorem parse_eq_error_of_evaluate {text : String} {error : Failure}
    (h : evaluate text = .error error) (hzero : error ≠ .divisionByZero)
    (hfinite : error ≠ .invalid .notFinite) : Expr.parse text = .error error := by
  cases hparse : Expr.parse text with
  | error failure =>
    rw [evaluate, hparse] at h
    rw [Except.error.inj h]
  | ok e =>
    rw [evaluate, hparse] at h
    change e.evaluate = _ at h
    rw [Expr.evaluate_eq] at h
    cases hv : e.eval with
    | none =>
      rw [hv] at h
      exact absurd (Except.error.inj h).symm hzero
    | some v =>
      rw [hv] at h
      dsimp only at h
      split at h
      · cases h
      · exact absurd (Except.error.inj h).symm hfinite

namespace Config

variable {config : Config} {expression shown : String} {highlight : Option Highlight}
  {suggestion : Option Suggestion} {error : Failure} {position : Nat}

/-- **`calculate_position`** — the unexpected character of a failed calculation is the first character
of the expression that the evaluator cannot read, and the position is as many characters behind it as
the percent signs in front of it have been spelled with in excess, which is three for each. Without a
percent sign in front of it, it stands in the expression at that position. -/
theorem calculate_position
    (h : config.calculate expression =
      .ok (.failure shown (.invalid (.unexpectedCharacter c position)) highlight suggestion)) :
    ∃ front rest, expression.toList = front ++ c :: rest ∧ Foreign c ∧
      (∀ x ∈ front, ∀ y ∈ evaluatorSpelling x, ¬ Foreign y) ∧
      position = front.length + 3 * front.count '%' ∧
      ('%' ∉ front → position < expression.length ∧ expression.toList[position]? = some c) := by
  obtain ⟨herror, -⟩ := failure_of_calculate h
  have hparse := parse_eq_error_of_evaluate herror (by simp) (by simp)
  rw [Expr.parse_eq_error_iff, toList_toEvaluator] at hparse
  have hflaw : (Flaw.foreign c position).FirstIn (respell expression.toList) :=
    Expr.firstIn_of_parseDecimal hparse
  obtain ⟨hin, -⟩ := hflaw
  generalize hrespelled : respell expression.toList = text at hin
  cases hin with
  | @foreign before behind c hbefore hc =>
    obtain ⟨front, rest, hexpression, rfl, -⟩ :=
      exists_of_respell_eq (fun _ => evaluatorSpelling_of_foreign hc) hrespelled
    refine ⟨front, rest, hexpression, hc, fun x hx y hy => ?_, length_respell front, ?_⟩
    · exact hbefore y (List.mem_flatMap.mpr ⟨x, hx, hy⟩)
    · intro hpercent
      rw [length_respell, List.count_eq_zero_of_not_mem hpercent, ← String.length_toList,
        hexpression, List.length_append, List.length_cons]
      exact ⟨by omega, by simp⟩

theorem exists_failure_of_parseDecimal (config : Config)
    (h : Expr.parseDecimal (respell expression.toList) = .error error) :
    ∃ highlight suggestion,
      config.calculate expression = .ok (.failure expression error highlight suggestion) := by
  rw [← toList_toEvaluator, ← Expr.parse_eq_error_iff] at h
  refine ⟨_, _, calculate_of_error ?_⟩
  rw [evaluateDisplay, evaluate, h]
  rfl

/-- The number sign of `50%×#` has a percent sign in front of it, and that of `2×3÷#` has none. -/
theorem calculate_position_of_number_sign :
    (∃ highlight suggestion, Config.default.calculate "50%×#" =
        .ok (.failure "50%×#" (.invalid (.unexpectedCharacter '#' 7)) highlight suggestion) ∧
      ∃ front rest, "50%×#".toList = front ++ '#' :: rest ∧
        7 = front.length + 3 * front.count '%') ∧
    ∃ highlight suggestion, Config.default.calculate "2×3÷#" =
        .ok (.failure "2×3÷#" (.invalid (.unexpectedCharacter '#' 4)) highlight suggestion) ∧
      4 < "2×3÷#".length ∧ "2×3÷#".toList[4]? = some '#' := by
  have hread : Expr.parseDecimal (respell "50%×#".toList) =
      .error (.invalid (.unexpectedCharacter '#' 7)) := rfl
  have hread' : Expr.parseDecimal (respell "2×3÷#".toList) =
      .error (.invalid (.unexpectedCharacter '#' 4)) := rfl
  obtain ⟨highlight, suggestion, hpercent⟩ := Config.default.exists_failure_of_parseDecimal hread
  obtain ⟨highlight', suggestion', hplain⟩ := Config.default.exists_failure_of_parseDecimal hread'
  obtain ⟨front, rest, hsplit, -, -, hposition, -⟩ := calculate_position hpercent
  obtain ⟨front', rest', hsplit', -, -, -, hfound⟩ := calculate_position hplain
  have hfree : '%' ∉ front' := by
    intro hmem
    have hin : '%' ∈ "2×3÷#".toList := by
      rw [hsplit']
      exact List.mem_append_left _ hmem
    exact absurd hin (by decide)
  exact ⟨⟨_, _, hpercent, front, rest, hsplit, hposition⟩, _, _, hplain, hfound hfree⟩

/-- Behind a percent sign the position is not one of the expression. -/
theorem calculate_position_beyond_end :
    (∃ highlight suggestion, Config.default.calculate "5%a" =
        .ok (.failure "5%a" (.invalid (.unexpectedCharacter 'a' 5)) highlight suggestion)) ∧
      ¬ 5 < "5%a".length ∧ "5%a".toList[5]? ≠ some 'a' := by
  have hread : Expr.parseDecimal (respell "5%a".toList) =
      .error (.invalid (.unexpectedCharacter 'a' 5)) := rfl
  exact ⟨Config.default.exists_failure_of_parseDecimal hread, by decide, by decide⟩

end Config

end Reckoner
