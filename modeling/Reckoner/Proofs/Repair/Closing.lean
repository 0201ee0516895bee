/-
# Reckoner.Proofs.Repair.Closing — three ways to tell that parentheses are left open.

The rule `unclosedParentheses` compares two counts, the highlight keeps a stack, and the evaluator measures
the depth, on the text in its own spelling. The first two always agree: a rule fires where a highlight
stands. The evaluator asks for more, because a `)` that closes nothing is as wrong for it as a parenthesis
that is left open, and only the second is mended. So what the rule leaves is balanced for the evaluator just
if no prefix of the expression closes more parentheses than it opens, and otherwise it is refused as
unbalanced once more, with neither a repair of this kind nor a highlight.

Respelling does not matter for any of this, because it neither adds nor moves a parenthesis.
-/
import Reckoner.Proofs.Highlight.Parts
import Reckoner.Proofs.Position
import Reckoner.Proofs.Repair.Slips

namespace Reckoner

variable {cs : List Char} {depth deepest : Nat} {expression fixed text : String}

/-! ## Balance in the evaluator's spelling -/

theorem nestingFrom_respell (depth deepest : Nat) (cs : List Char) :
    nestingFrom depth deepest (respell cs) = nestingFrom depth deepest cs := by
  induction cs generalizing depth deepest with
  | nil => rfl
  | cons c cs ih =>
    rw [respell_cons]
    by_cases hopen : c = '('
    · subst hopen
      show nestingFrom depth deepest ('(' :: respell cs) = _
      rw [nestingFrom_open, nestingFrom_open, ih]
    by_cases hclose : c = ')'
    · subst hclose
      show nestingFrom depth deepest (')' :: respell cs) = _
      cases depth with
      | zero => rfl
      | succ depth => rw [nestingFrom_close_succ, nestingFrom_close_succ, ih]
    · -- no parenthesis comes of any other character
      rw [nestingFrom_other hopen hclose, ← ih]
      unfold evaluatorSpelling
      repeat' split
      all_goals simp [nestingFrom_other, hopen, hclose]

theorem nesting?_toEvaluator (expression : String) :
    nesting? (toEvaluator expression).toList = nesting? expression.toList := by
  rw [toList_toEvaluator]
  exact nestingFrom_respell 0 0 expression.toList

theorem balanced_toEvaluator_iff :
    Balanced (toEvaluator expression).toList ↔ Balanced expression.toList := by
  rw [← nesting?_isSome_iff, nesting?_toEvaluator, nesting?_isSome_iff]

theorem balanced_of_white (h : White cs) : Balanced cs :=
  balanced_of_free (not_mem_of_white h rfl) (not_mem_of_white h rfl)

namespace Expr

/-- Parsing speaks of unbalanced parentheses wherever they are unbalanced, and nowhere else. -/
theorem parse_eq_unbalanced_iff :
    parse text = .error .unbalancedParentheses ↔ ¬ Balanced text.toList := by
  rw [parse_eq_error_iff]
  constructor
  · intro h
    have hflaw : Flaw.unbalanced.FirstIn text.toList := firstIn_of_parseDecimal h
    cases hflaw.mem with
    | unbalanced hbalanced => exact hbalanced
  · intro h
    exact parseDecimal_of_unbalanced (fun hwhite => h (balanced_of_white hwhite)) h

end Expr

theorem evaluateDisplay_eq_unbalanced_iff :
    evaluateDisplay expression = .error .unbalancedParentheses ↔ ¬ Balanced expression.toList := by
  rw [← balanced_toEvaluator_iff, ← Expr.parse_eq_unbalanced_iff]
  constructor
  · intro h
    exact parse_eq_error_of_evaluate h (by simp) (by simp)
  · intro h
    rw [evaluateDisplay, evaluate, h]
    rfl

theorem Config.calculate_eq_unbalanced_iff (config : Config) :
    (∃ highlight suggestion, config.calculate expression =
        .ok (.failure expression .unbalancedParentheses highlight suggestion)) ↔
      ¬ Balanced expression.toList := by
  rw [← evaluateDisplay_eq_unbalanced_iff]
  constructor
  · rintro ⟨highlight, suggestion, h⟩
    exact (failure_of_calculate h).1
  · intro h
    exact ⟨_, _, calculate_of_error h⟩

/-! ## Parentheses that are closed at the end -/

/-- With the missing parentheses appended, a text is balanced if it closed none too early. -/
theorem balanced_append_close_iff (h : cs.count ')' ≤ cs.count '(') :
    Balanced (cs ++ List.replicate (cs.count '(' - cs.count ')') ')') ↔
      ∀ p, p <+: cs → p.count ')' ≤ p.count '(' := by
  constructor
  · intro hbalanced p hp
    exact hbalanced.closed_le p (hp.trans (List.prefix_append _ _))
  · intro hclosed
    refine ⟨forall_prefix_append hclosed fun q hq => ?_, ?_⟩
    · have hlength : q.count ')' ≤ q.length := List.count_le_length
      have hmissing := hq.length_le
      rw [List.length_replicate] at hmissing
      rw [List.count_append, List.count_append]
      omega
    · rw [List.count_append, List.count_append, List.count_replicate_self, List.count_replicate,
        if_neg (by decide)]
      omega

namespace Rule

theorem apply_eq_some_iff {rule : Rule} :
    rule.apply expression = some fixed ↔ rule.fire? expression.toList = some fixed.toList := by
  rw [apply, Option.map_eq_some_iff]
  constructor
  · rintro ⟨cs, hcs, rfl⟩
    rw [hcs, String.toList_ofList]
  · intro h
    exact ⟨fixed.toList, h, String.ofList_toList⟩

theorem apply_unclosedParentheses_eq_none_iff :
    unclosedParentheses.apply expression = none ↔
      expression.toList.count '(' ≤ expression.toList.count ')' :=
  apply_eq_none_iff

end Rule

namespace Highlight

theorem locate_unbalanced_eq_none_iff :
    locate expression Failure.unbalancedParentheses.message = none ↔
      expression.toList.count '(' ≤ expression.toList.count ')' := by
  rw [locate_eq_none_iff_span?, span?_unbalancedParentheses, unclosed?_eq_none_iff]

end Highlight

/-- **`unclosedParentheses_agrees`** — the rule fires on an expression just if unbalanced parentheses would
be highlighted in it. It is then refused as unbalanced, and what the rule makes of it is the expression with
closing parentheses behind it. There the rule does not fire again and there is no highlight. The evaluator
finds this text balanced, and no calculation says any more that it is unbalanced, just if no prefix of the
expression closes more parentheses than it opens. -/
theorem unclosedParentheses_agrees (expression : String) :
    ((Rule.unclosedParentheses.apply expression).isSome = true ↔
      (Highlight.locate expression Failure.unbalancedParentheses.message).isSome = true) ∧
    ∀ fixed, Rule.unclosedParentheses.apply expression = some fixed →
      evaluateDisplay expression = .error .unbalancedParentheses ∧
      (∃ n, fixed.toList = expression.toList ++ List.replicate n ')') ∧
      Rule.unclosedParentheses.apply fixed = none ∧
      Highlight.locate fixed Failure.unbalancedParentheses.message = none ∧
      ((nesting? (toEvaluator fixed).toList).isSome = true ↔
        ∀ p, p <+: expression.toList → p.count ')' ≤ p.count '(') ∧
      (evaluateDisplay fixed ≠ .error .unbalancedParentheses ↔
        ∀ p, p <+: expression.toList → p.count ')' ≤ p.count '(') ∧
      ∀ config : Config,
        (¬ ∃ highlight suggestion, config.calculate fixed =
            .ok (.failure fixed .unbalancedParentheses highlight suggestion)) ↔
          ∀ p, p <+: expression.toList → p.count ')' ≤ p.count '(' := by
  constructor
  · rw [Option.isSome_iff_ne_none, Option.isSome_iff_ne_none, ne_eq, ne_eq,
      Rule.apply_unclosedParentheses_eq_none_iff, Highlight.locate_unbalanced_eq_none_iff]
  · intro fixed h
    have hfire := Rule.apply_eq_some_iff.mp h
    obtain ⟨hexcess, hfixed⟩ := Rule.fire?_unclosedParentheses hfire
    obtain ⟨-, hzero, -⟩ := Rule.excess_nonClosing_of_fire?_unclosedParentheses hfire
    have hmore := (count_close_lt_iff expression.toList).mpr hexcess
    have hsame : fixed.toList.count '(' ≤ fixed.toList.count ')' := by
      unfold excess at hzero
      omega
    have hbalanced := balanced_append_close_iff (Nat.le_of_lt hmore)
    rw [← hfixed] at hbalanced
    have hopen : ¬ Balanced expression.toList := fun h => by
      rw [h.count_eq] at hmore
      exact Nat.lt_irrefl _ hmore
    refine ⟨evaluateDisplay_eq_unbalanced_iff.mpr hopen, ⟨_, hfixed⟩,
      Rule.apply_unclosedParentheses_eq_none_iff.mpr hsame,
      Highlight.locate_unbalanced_eq_none_iff.mpr hsame, ?_, ?_, fun config => ?_⟩
    · rw [nesting?_toEvaluator, nesting?_isSome_iff, hbalanced]
    · rw [ne_eq, evaluateDisplay_eq_unbalanced_iff, not_not, hbalanced]
    · rw [config.calculate_eq_unbalanced_iff, not_not, hbalanced]

/-- Both parentheses of `5×(1+(2` are closed at the end. In `(1))((` a `)` that closes nothing is counted
too, so only one is appended and the text stays unbalanced. -/
theorem unclosedParentheses_agrees_of_stray_close :
    (Rule.unclosedParentheses.apply "5×(1+(2" = some "5×(1+(2))" ∧
      Rule.unclosedParentheses.apply "5×(1+(2))" = none ∧
      evaluateDisplay "5×(1+(2))" ≠ .error .unbalancedParentheses) ∧
    (Rule.unclosedParentheses.apply "(1))((" = some "(1))(()" ∧
      Highlight.locate "(1))(()" Failure.unbalancedParentheses.message = none ∧
      evaluateDisplay "(1))(()" = .error .unbalancedParentheses) := by
  have hfire : Rule.unclosedParentheses.apply "5×(1+(2" = some "5×(1+(2))" := by decide
  have hfire' : Rule.unclosedParentheses.apply "(1))((" = some "(1))(()" := by decide
  obtain ⟨-, -, hagain, -, hnesting, heval, -⟩ := (unclosedParentheses_agrees "5×(1+(2").2 _ hfire
  obtain ⟨-, -, -, hlocate, -, heval', -⟩ := (unclosedParentheses_agrees "(1))((").2 _ hfire'
  refine ⟨⟨hfire, hagain, heval.mpr (hnesting.mp (by decide))⟩, hfire', hlocate, ?_⟩
  by_contra hne
  have hprefix := heval'.mp hne "(1))".toList ⟨"((".toList, rfl⟩
  exact absurd hprefix (by decide)

end Reckoner
