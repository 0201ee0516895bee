/-
# Reckoner.Proofs.Repair.EmptyGroup — an empty group as it is diagnosed, highlighted and removed.

The diagnosis looks for an empty group in the evaluator's spelling, and past all white space. The highlight
and the rule `emptyParentheses` look for `()` in the displayed text. The spelling makes no difference,
because neither a parenthesis nor white space comes of another character (`emptyGroup_in_respell_iff`). The
white space does: a group with some in it is diagnosed, and it is neither highlighted nor removed.

So the diagnosis alone promises neither. But a highlight stands just where the rule fires, and both are
there just if some `(` is directly followed by `)` (`calculate_emptyGroup`).
-/
import Reckoner.Proofs.Highlight.Parts
import Reckoner.Proofs.Position
import Reckoner.Proofs.Repair.Slips

namespace Reckoner

variable {cs : List Char} {c : Char} {expression shown : String}

/-! ## Empty groups in the evaluator's spelling -/

theorem isWhite_of_white_evaluatorSpelling (h : White (evaluatorSpelling c)) : isWhite c = true := by
  unfold evaluatorSpelling at h
  split at h
  · exact absurd h (by decide)
  split at h
  · exact absurd h (by decide)
  split at h
  · exact absurd h (by decide)
  · exact h c List.mem_cons_self

theorem white_of_white_respell (h : White (respell cs)) : White cs := by
  intro c hc
  refine isWhite_of_white_evaluatorSpelling fun d hd => ?_
  exact h d (List.mem_flatMap.mpr ⟨c, hc, hd⟩)

theorem emptyGroup_in_respell_iff :
    Flaw.emptyGroup.In (respell cs) ↔ Flaw.emptyGroup.In cs := by
  constructor
  · intro h
    generalize hrespelled : respell cs = text at h
    cases h with
    | @emptyGroup front white rest hwhite =>
      -- each of the two parentheses stands in the displayed text
      obtain ⟨before, behind, rfl, hbefore, -⟩ :=
        exists_of_respell_eq (fun _ h => evaluatorSpelling_of_mem_of_not_mem h (by decide)) hrespelled
      obtain ⟨before, inner, rfl, -, rfl⟩ :=
        exists_of_respell_eq (fun _ h => evaluatorSpelling_of_mem_of_not_mem h (by decide)) hbefore
      exact .emptyGroup (white_of_white_respell hwhite)
  · intro h
    cases h with
    | @emptyGroup front white rest hwhite =>
      rw [respell_append, respell_append, respell_cons, respell_cons, respell_of_white hwhite]
      exact .emptyGroup hwhite

theorem emptyGroup_in_iff :
    Flaw.emptyGroup.In cs ↔
      ∃ front white rest, cs = front ++ '(' :: white ++ ')' :: rest ∧ White white := by
  constructor
  · intro h
    cases h with
    | emptyGroup hwhite => exact ⟨_, _, _, rfl, hwhite⟩
  · rintro ⟨front, white, rest, rfl, hwhite⟩
    exact .emptyGroup hwhite

/-- Without white space in the text, there is none in its empty group. -/
theorem emptyGroup_infix_of_not_white (h : Flaw.emptyGroup.In cs)
    (hcs : ∀ c ∈ cs, isWhite c = false) : ['(', ')'] <:+: cs := by
  rw [← emptyGroup_infix_iff, withoutWhite, List.filter_eq_self.mpr fun c hc => by rw [hcs c hc]; rfl] at h
  exact h

/-! ## The highlight and the rule -/

namespace Highlight

/-- For an empty group nothing else is looked for. -/
theorem span?_emptyGroup (expression : String) :
    span? expression (Failure.invalid .emptyGroup).message = emptyGroup? expression.toList := by
  rw [span?_eq_of_subjects (u := false) (z := false) (v := true) expression (by decide) (by decide)
    (by decide)]
  rfl

theorem locate_emptyGroup_isSome_iff :
    (locate expression (Failure.invalid .emptyGroup).message).isSome = true ↔
      ['(', ')'] <:+: expression.toList := by
  rw [Option.isSome_iff_ne_none, ne_eq, locate_eq_none_iff_span?, span?_emptyGroup,
    emptyGroup?_eq_none_iff, not_not]

end Highlight

theorem Rule.apply_emptyParentheses_isSome_iff :
    (emptyParentheses.apply expression).isSome = true ↔ ['(', ')'] <:+: expression.toList := by
  rw [Option.isSome_iff_ne_none, ne_eq, apply_eq_none_iff]
  exact (not_congr filled_iff).trans not_not

/-! ## Failures -/

namespace Config

variable {config : Config} {highlight : Option Highlight} {suggestion : Option Suggestion}

theorem emptyGroup_in_of_evaluateDisplay
    (h : evaluateDisplay expression = .error (.invalid .emptyGroup)) :
    Flaw.emptyGroup.In expression.toList := by
  have hparse := parse_eq_error_of_evaluate h (by simp) (by simp)
  rw [Expr.parse_eq_error_iff, toList_toEvaluator] at hparse
  have hflaw : Flaw.emptyGroup.FirstIn (respell expression.toList) :=
    Expr.firstIn_of_parseDecimal hparse
  exact emptyGroup_in_respell_iff.mp hflaw.mem

/-- **`calculate_emptyGroup`** — an expression with an empty group by its diagnosis has a `(` with nothing
but white space between it and a `)`. The failure carries a highlight just if the rule `emptyParentheses`
fires, and each of the two just if `()` stands in the expression. It does if the expression has no white
space. What is highlighted is the first `()`. -/
theorem calculate_emptyGroup
    (h : config.calculate expression =
      .ok (.failure shown (.invalid .emptyGroup) highlight suggestion)) :
    (∃ front white rest, expression.toList = front ++ '(' :: white ++ ')' :: rest ∧ White white) ∧
    (highlight.isSome = true ↔ ['(', ')'] <:+: expression.toList) ∧
    ((Rule.emptyParentheses.apply expression).isSome = true ↔
      ['(', ')'] <:+: expression.toList) ∧
    ((∀ c ∈ expression.toList, isWhite c = false) → ['(', ')'] <:+: expression.toList) ∧
    ∀ found, highlight = some found →
      found.focus = "()" ∧ expression = found.before ++ found.focus ++ found.after ∧
      ∀ front back : String, expression = front ++ "()" ++ back →
        found.before.length ≤ front.length := by
  obtain ⟨herror, -, rfl, -⟩ := failure_of_calculate h
  have hgroup := emptyGroup_in_of_evaluateDisplay herror
  refine ⟨emptyGroup_in_iff.mp hgroup, Highlight.locate_emptyGroup_isSome_iff,
    Rule.apply_emptyParentheses_isSome_iff, emptyGroup_infix_of_not_white hgroup, ?_⟩
  intro found hfound
  have happend := Highlight.eq_append_of_locate hfound
  rw [Highlight.locate, Highlight.span?_emptyGroup] at hfound
  refine ⟨Highlight.focus_of_emptyGroup? hfound, happend, fun front back hparts => ?_⟩
  rw [← String.length_toList (s := front)]
  exact Highlight.length_le_of_emptyGroup? hfound (eq_append_iff.mp hparts)

/-- Of the two empty groups of `6×( )+()` only the second is highlighted, and only that one is removed. -/
theorem calculate_emptyGroup_of_two :
    Config.default.calculate "6×( )+()" =
        .ok (.failure "6×( )+()" (.invalid .emptyGroup) (some ⟨"6×( )+", "()", ""⟩) none) ∧
      (∃ fixed, Rule.emptyParentheses.apply "6×( )+()" = some fixed) ∧
      "6×( )+()" = "6×( )+" ++ "()" ++ "" := by
  have hc : Config.default.calculate "6×( )+()" =
      .ok (.failure "6×( )+()" (.invalid .emptyGroup) (some ⟨"6×( )+", "()", ""⟩) none) :=
    eq_ok_of_toOption_eq_some (by decide +kernel)
  obtain ⟨-, hhighlight, hrule, -, hparts⟩ := calculate_emptyGroup hc
  obtain ⟨-, happend, -⟩ := hparts _ rfl
  exact ⟨hc, Option.isSome_iff_exists.mp (hrule.mpr (hhighlight.mp rfl)), happend⟩

/-- The group of `( )` is diagnosed as empty. It is not highlighted and the rule does not fire. -/
theorem calculate_emptyGroup_of_blank :
    Config.default.calculate "( )" = .ok (.failure "( )" (.invalid .emptyGroup) none none) ∧
      Rule.emptyParentheses.apply "( )" = none :=
  ⟨eq_ok_of_toOption_eq_some (by decide +kernel), by decide⟩

end Config

end Reckoner
