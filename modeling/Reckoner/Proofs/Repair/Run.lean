/-
# Reckoner.Proofs.Repair.Run — a chain of repairs comes to an end, and where it ends.

Repairs shorten a text, but for `unclosedParentheses`, which makes it longer and may so give the other
rules new work. What goes down with every repair is the `effort` of a text: the characters that are no
closing parenthesis, and one more while a parenthesis is left open. The `0` that stands in for a text of
which nothing is left costs no effort, and no rule fires on it. So there are at most as many repairs as
the effort of the text, and this is at most one more than its length.
-/
import Reckoner.Proofs.Repair.Rules

namespace Reckoner

/-! ## The effort of a text -/

/-- **`effort cs`** — how many repairs a text can take at the most. -/
def effort (cs : List Char) : Nat :=
  if cs = ['0'] then 0 else nonClosing cs + if 0 < excess cs then 1 else 0

theorem effort_le (cs : List Char) :
    effort cs ≤ nonClosing cs + if 0 < excess cs then 1 else 0 := by
  unfold effort
  split
  · exact Nat.zero_le _
  · exact Nat.le_refl _

theorem effort_le_length_add_one (cs : List Char) : effort cs ≤ cs.length + 1 := by
  have hle := effort_le cs
  have hlen := nonClosing_add_count cs
  split at hle <;> omega

/-- Every repair lowers the effort. -/
theorem effort_lt_of_firstFix? {cs fixed : List Char} {rule : Rule}
    (h : firstFix? cs = some (rule, fixed)) : effort fixed < effort cs := by
  have hfire := fire?_of_firstFix?_eq_some h
  have hcs : cs ≠ ['0'] := by
    rintro rfl
    cases h
  have hle := effort_le fixed
  rw [effort.eq_def cs, if_neg hcs]
  by_cases hrule : rule = .unclosedParentheses
  · subst hrule
    -- closing takes the excess away and adds nothing else that counts
    obtain ⟨hpos, hzero, hsame⟩ := Rule.excess_nonClosing_of_fire?_unclosedParentheses hfire
    rw [hzero, if_neg (by decide), hsame] at hle
    rw [if_pos hpos]
    omega
  · -- the other rules keep the excess, and a mere `0` costs nothing
    obtain ⟨hex, hlt | ⟨rfl, hpos⟩⟩ := Rule.excess_nonClosing_of_fire? hfire hrule
    · rw [hex] at hle
      omega
    · show 0 < _
      omega

/-! ## One round -/

variable {expression : String} {rule : Rule} {fixed : List Char}

theorem repairSteps_of_firstFix?_eq_none (h : firstFix? expression.toList = none) (rounds : Nat) :
    repairSteps rounds expression = [] := by
  cases rounds with
  | zero => rfl
  | succ rounds =>
    have hs : suggestFix expression = .unavailable := by rw [suggestFix, h]
    rw [repairSteps, hs]
    rfl

theorem suggestFix_of_firstFix?_eq_some (h : firstFix? expression.toList = some (rule, fixed)) :
    suggestFix expression = ⟨.ofList fixed, rule.message⟩ := by
  rw [suggestFix, h]

theorem isEmpty_suggestFix_of_firstFix?_eq_some
    (h : firstFix? expression.toList = some (rule, fixed)) :
    (suggestFix expression).isEmpty = false := by
  have hne : fixed ≠ [] := (Rule.fire?_eq_some_iff.mp (fire?_of_firstFix?_eq_some h)).2.1
  rw [suggestFix_of_firstFix?_eq_some h]
  show (String.ofList fixed).isEmpty = false
  simpa using hne

theorem repairSteps_of_firstFix?_eq_some (h : firstFix? expression.toList = some (rule, fixed))
    (rounds : Nat) :
    repairSteps (rounds + 1) expression =
      ⟨.ofList fixed, rule.message⟩ :: repairSteps rounds (.ofList fixed) := by
  have hnonempty := isEmpty_suggestFix_of_firstFix?_eq_some h
  rw [suggestFix_of_firstFix?_eq_some h] at hnonempty
  rw [repairSteps, suggestFix_of_firstFix?_eq_some h, hnonempty]
  rfl

/-- A run that takes a step has a rule that fires first. -/
theorem exists_firstFix?_of_mem_repairSteps {rounds : Nat} {step : Suggestion}
    (h : step ∈ repairSteps rounds expression) :
    ∃ rule fixed, firstFix? expression.toList = some (rule, fixed) := by
  cases hfirst : firstFix? expression.toList with
  | none =>
    rw [repairSteps_of_firstFix?_eq_none hfirst] at h
    cases h
  | some firing => exact ⟨firing.1, firing.2, rfl⟩

/-! ## The whole run -/

/-- **`trail rounds expression`** — the expressions that a run of repairs goes through. -/
def trail (rounds : Nat) (expression : String) : List String :=
  expression :: (repairSteps rounds expression).map Suggestion.fix

/-- **`repaired rounds expression`** — where the run ends: the last fix, or the expression itself when
there was none. -/
def repaired (rounds : Nat) (expression : String) : String :=
  ((repairSteps rounds expression).map Suggestion.fix).getLastD expression

/-- **`closes expression`** — the rule that fires on the expression is `unclosedParentheses`. -/
def closes (expression : String) : Bool :=
  (firstFix? expression.toList).any fun (rule, _) => rule == .unclosedParentheses

theorem trail_of_firstFix?_eq_none (h : firstFix? expression.toList = none) (rounds : Nat) :
    trail rounds expression = [expression] := by
  rw [trail, repairSteps_of_firstFix?_eq_none h, List.map_nil]

theorem trail_of_firstFix?_eq_some (h : firstFix? expression.toList = some (rule, fixed))
    (rounds : Nat) : trail (rounds + 1) expression = expression :: trail rounds (.ofList fixed) := by
  rw [trail, repairSteps_of_firstFix?_eq_some h, List.map_cons, trail]

theorem repaired_of_firstFix?_eq_none (h : firstFix? expression.toList = none) (rounds : Nat) :
    repaired rounds expression = expression := by
  rw [repaired, repairSteps_of_firstFix?_eq_none h, List.map_nil, List.getLastD_nil]

theorem repaired_of_firstFix?_eq_some (h : firstFix? expression.toList = some (rule, fixed))
    (rounds : Nat) : repaired (rounds + 1) expression = repaired rounds (.ofList fixed) := by
  rw [repaired, repairSteps_of_firstFix?_eq_some h, List.map_cons, List.getLastD_cons, repaired]

/-- Along a run the effort goes down from each expression to every later one. -/
theorem pairwise_effort_trail (rounds : Nat) (expression : String) :
    (trail rounds expression).Pairwise fun a b => effort b.toList < effort a.toList := by
  induction rounds generalizing expression with
  | zero => exact List.pairwise_singleton _ _
  | succ rounds ih =>
    cases h : firstFix? expression.toList with
    | none =>
      rw [trail_of_firstFix?_eq_none h]
      exact List.pairwise_singleton _ _
    | some p =>
      obtain ⟨rule, fixed⟩ := p
      have hlt := effort_lt_of_firstFix? h
      have htail := ih (.ofList fixed)
      rw [trail_of_firstFix?_eq_some h]
      refine List.pairwise_cons.mpr ⟨?_, htail⟩
      intro later hlater
      rcases List.mem_cons.mp hlater with rfl | hlater
      · rwa [String.toList_ofList]
      · have hnext := (List.pairwise_cons.mp htail).1 later hlater
        rw [String.toList_ofList] at hnext
        exact Nat.lt_trans hnext hlt

theorem nodup_trail (rounds : Nat) (expression : String) : (trail rounds expression).Nodup := by
  refine (pairwise_effort_trail rounds expression).imp ?_
  rintro a b hlt rfl
  exact Nat.lt_irrefl _ hlt

theorem length_repairSteps_le (rounds : Nat) (expression : String) :
    (repairSteps rounds expression).length ≤ effort expression.toList := by
  induction rounds generalizing expression with
  | zero => exact Nat.zero_le _
  | succ rounds ih =>
    cases h : firstFix? expression.toList with
    | none =>
      rw [repairSteps_of_firstFix?_eq_none h]
      exact Nat.zero_le _
    | some p =>
      obtain ⟨rule, fixed⟩ := p
      have hlt := effort_lt_of_firstFix? h
      have htail := ih (.ofList fixed)
      rw [String.toList_ofList] at htail
      rw [repairSteps_of_firstFix?_eq_some h, List.length_cons]
      omega

/-- A run with as many rounds as there is effort ends where no rule fires. -/
theorem firstFix?_repaired_eq_none {rounds : Nat} (hr : effort expression.toList ≤ rounds) :
    firstFix? (repaired rounds expression).toList = none := by
  induction rounds generalizing expression with
  | zero =>
    cases h : firstFix? expression.toList with
    | none => rwa [repaired_of_firstFix?_eq_none h]
    | some p =>
      -- a fix would lower the effort, but there is none left
      have hlt := effort_lt_of_firstFix? h
      omega
  | succ rounds ih =>
    cases h : firstFix? expression.toList with
    | none => rwa [repaired_of_firstFix?_eq_none h]
    | some p =>
      obtain ⟨rule, fixed⟩ := p
      have hlt := effort_lt_of_firstFix? h
      rw [repaired_of_firstFix?_eq_some h]
      refine ih ?_
      rw [String.toList_ofList]
      omega

/-! ## Closing happens once -/

/-- Without an open parenthesis there is nothing to close, and no rule opens one. -/
theorem countP_closes_eq_zero {rounds : Nat} (hex : excess expression.toList ≤ 0) :
    (trail rounds expression).countP closes = 0 := by
  have hno : ∀ {e : String}, excess e.toList ≤ 0 → closes e = false := by
    intro e he
    cases h : firstFix? e.toList with
    | none => rw [closes, h, Option.any_none]
    | some p =>
      obtain ⟨rule, fixed⟩ := p
      rw [closes, h, Option.any_some, beq_eq_false_iff_ne]
      rintro rfl
      have hfire := fire?_of_firstFix?_eq_some h
      have hpos := (Rule.excess_nonClosing_of_fire?_unclosedParentheses hfire).1
      omega
  induction rounds generalizing expression with
  | zero =>
    show [expression].countP closes = 0
    rw [List.countP_cons_of_neg (by rw [hno hex]; decide), List.countP_nil]
  | succ rounds ih =>
    cases h : firstFix? expression.toList with
    | none =>
      rw [trail_of_firstFix?_eq_none h, List.countP_cons_of_neg (by rw [hno hex]; decide),
        List.countP_nil]
    | some p =>
      obtain ⟨rule, fixed⟩ := p
      have hfire := fire?_of_firstFix?_eq_some h
      have hrule : rule ≠ .unclosedParentheses := by
        rintro rfl
        have hpos := (Rule.excess_nonClosing_of_fire?_unclosedParentheses hfire).1
        omega
      rw [trail_of_firstFix?_eq_some h, List.countP_cons_of_neg (by rw [hno hex]; decide)]
      refine ih ?_
      rwa [String.toList_ofList, (Rule.excess_nonClosing_of_fire? hfire hrule).1]

theorem countP_closes_le_one (rounds : Nat) (expression : String) :
    (trail rounds expression).countP closes ≤ 1 := by
  induction rounds generalizing expression with
  | zero => exact List.countP_le_length
  | succ rounds ih =>
    cases h : firstFix? expression.toList with
    | none =>
      rw [trail_of_firstFix?_eq_none h]
      exact List.countP_le_length
    | some p =>
      obtain ⟨rule, fixed⟩ := p
      rw [trail_of_firstFix?_eq_some h]
      by_cases hrule : rule = .unclosedParentheses
      · subst hrule
        -- this is the one that closes; behind it nothing is open any more
        have hfire := fire?_of_firstFix?_eq_some h
        have hzero := (Rule.excess_nonClosing_of_fire?_unclosedParentheses hfire).2.1
        have hrest : excess (String.ofList fixed).toList ≤ 0 := by
          rw [String.toList_ofList]
          exact Int.le_of_eq hzero
        rw [List.countP_cons, countP_closes_eq_zero hrest]
        split <;> omega
      · have hno : closes expression = false := by
          rw [closes, h, Option.any_some, beq_eq_false_iff_ne]
          exact hrule
        rw [List.countP_cons_of_neg (by rw [hno]; decide)]
        exact ih _

/-! ## The end of a run -/

/-- **Repairs come to an end.** A run takes at most one repair more than the expression has characters;
it goes through no expression twice, and at most one of them is one whose parentheses get closed. With
that many rounds it ends at an expression for which no fix is suggested, and which has none of the
slips that the rules look for. -/
theorem repairs_end (expression : String) :
    (∀ rounds,
      (repairSteps rounds expression).length ≤ expression.length + 1 ∧
      (trail rounds expression).Nodup ∧
      (trail rounds expression).countP closes ≤ 1) ∧
    ∀ rounds, expression.length + 1 ≤ rounds →
      let final := (repaired rounds expression).toList
      suggestFix (repaired rounds expression) = .unavailable ∧
      (∀ op, isDisplayOperator op = true → ¬ [op, op] <:+: final) ∧
      ¬ ['(', ')'] <:+: final ∧
      final.count '(' ≤ final.count ')' ∧
      (∀ op, (trim final).getLast? = some op → isDisplayOperator op = true → trim final = [op]) := by
  have heffort : effort expression.toList ≤ expression.length + 1 := by
    have hle := effort_le_length_add_one expression.toList
    rwa [String.length_toList] at hle
  constructor
  · intro rounds
    refine ⟨?_, nodup_trail rounds expression, countP_closes_le_one rounds expression⟩
    exact Nat.le_trans (length_repairSteps_le rounds expression) heffort
  · intro rounds hrounds final
    have hnone : firstFix? final = none :=
      firstFix?_repaired_eq_none (Nat.le_trans heffort hrounds)
    have hstable := fire?_of_firstFix?_eq_none hnone
    refine ⟨?_, ?_, ?_, ?_, ?_⟩
    · rw [suggestFix, show firstFix? (repaired rounds expression).toList = none from hnone]
    · intro op hop
      exact Rule.not_infix_of_fire?_eq_none (hstable _) hop
    · exact Rule.not_emptyGroup_of_fire?_eq_none (hstable _)
    · have hex : (final.count '(' : Int) - final.count ')' ≤ 0 :=
        Rule.excess_le_zero_of_fire?_eq_none (hstable _)
      omega
    · intro op hlast hop
      exact Rule.trim_eq_of_fire?_eq_none (hstable _) hlast hop

/-- Two open parentheses take three repairs, the most that two characters can take. -/
theorem repairs_end_of_two_openers :
    "((".length + 1 ≤ 3 ∧ (repairSteps 3 "((").length = 3 ∧
      suggestFix (repaired 3 "((") = .unavailable :=
  ⟨by decide, by decide, ((repairs_end "((").2 3 (by decide)).1⟩

end Reckoner
