/-
# Reckoner.Proofs.Repair.Slips — when a rule of repair fires, and on which valid expressions.

Each rule looks for slips of one kind. It fires just when the text has such a slip; `Rule.Spares` says
what a text without one looks like, and mentions no rewriting.

The rules do not read expressions and the parser knows nothing of the rules, so the two need not agree
on what is malformed. They do but for one case. No displayed expression that can be parsed has an empty
pair of parentheses, an operator at its end or a parenthesis left open, nor `+`, `×` or `÷` twice in a
row. But a minus sign may stand in front of an operand behind a minus sign, and to the rules this is a
doubled operator: `5--3`, which is 8, is mended to `5-3`.
-/
import Reckoner.Proofs.Repair.Offer

namespace Reckoner

open Grammar

/-! ## Texts that a rule spares -/

/-- **`rule.Spares cs`** — the text has no slip of the kind that the rule mends. An operator by itself
is not one that could be dropped. -/
def Rule.Spares : Rule → List Char → Prop
  | duplicateOperator, cs => Undoubled cs
  | emptyParentheses, cs => Filled cs
  | trailingOperator, cs =>
    ∀ front op, trim cs = front ++ [op] → isDisplayOperator op = true → front = []
  | unclosedParentheses, cs => cs.count '(' ≤ cs.count ')'

variable {cs fixed : List Char} {rule : Rule}

theorem collapse_eq_self (h : Undoubled cs) : collapse cs = cs := by
  fun_induction collapse cs with
  | case1 => rfl
  | case2 c => rfl
  | case3 c d cs hrun _ =>
    rw [Bool.and_eq_true, beq_iff_eq] at hrun
    exact absurd hrun.2 ((List.isChain_cons_cons.mp h).1 hrun.1)
  | case4 c d cs _ ih => rw [ih (List.isChain_cons_cons.mp h).2]

namespace Rule

theorem spares_of_fire?_eq_none (h : rule.fire? cs = none) : rule.Spares cs := by
  cases rule with
  | duplicateOperator =>
    exact undoubled_iff.mpr fun op hop => not_infix_of_fire?_eq_none h hop
  | emptyParentheses => exact filled_iff.mpr (not_emptyGroup_of_fire?_eq_none h)
  | trailingOperator =>
    intro front op htrim hop
    have hlast : (trim cs).getLast? = some op := by rw [htrim, List.getLast?_concat]
    have halone := trim_eq_of_fire?_eq_none h hlast hop
    rw [htrim] at halone
    exact List.append_left_eq_self.mp halone
  | unclosedParentheses =>
    have hexcess : (cs.count '(' : Int) - cs.count ')' ≤ 0 := excess_le_zero_of_fire?_eq_none h
    show cs.count '(' ≤ cs.count ')'
    omega

theorem not_spares_of_fire?_eq_some (h : rule.fire? cs = some fixed) : ¬ rule.Spares cs := by
  obtain ⟨hrewrite, hne, hchange⟩ := fire?_eq_some_iff.mp h
  cases rule with
  | duplicateOperator =>
    intro hspares
    exact hchange ((Option.some.inj hrewrite).symm.trans (collapse_eq_self hspares))
  | emptyParentheses =>
    intro hspares
    exact filled_iff.mp hspares (fire?_emptyParentheses h).1
  | trailingOperator =>
    intro hspares
    obtain ⟨op, hop, htrim⟩ := fire?_trailingOperator h
    exact hne (hspares fixed op htrim hop)
  | unclosedParentheses =>
    intro (hspares : cs.count '(' ≤ cs.count ')')
    have hexcess : (0 : Int) < cs.count '(' - cs.count ')' := (fire?_unclosedParentheses h).1
    omega

/-- A rule fires just when the text has a slip of its kind. -/
theorem fire?_eq_none_iff : rule.fire? cs = none ↔ rule.Spares cs := by
  constructor
  · exact spares_of_fire?_eq_none
  · intro hspares
    cases h : rule.fire? cs with
    | none => rfl
    | some fixed => exact absurd hspares (not_spares_of_fire?_eq_some h)

theorem apply_eq_none_iff {expression : String} :
    rule.apply expression = none ↔ rule.Spares expression.toList := by
  rw [apply, Option.map_eq_none_iff, fire?_eq_none_iff]

theorem exists_fire?_of_not_spares (h : ¬ rule.Spares cs) : ∃ fixed, rule.fire? cs = some fixed := by
  cases hfire : rule.fire? cs with
  | none => exact absurd (spares_of_fire?_eq_none hfire) h
  | some fixed => exact ⟨fixed, rfl⟩

/-! ### What the rules make of their slips -/

theorem fire?_of_not_undoubled (h : ¬ Undoubled cs) :
    duplicateOperator.fire? cs = some (collapse cs) := by
  have hspares : ¬ duplicateOperator.Spares cs := h
  obtain ⟨fixed, hfire⟩ := exists_fire?_of_not_spares hspares
  rw [hfire, ← (fire?_eq_some_iff.mp hfire).1, rewrite?]

theorem fire?_of_not_filled (h : ¬ Filled cs) (hne : dropEmptyGroups cs ≠ []) :
    emptyParentheses.fire? cs = some (dropEmptyGroups cs) := by
  have hspares : ¬ emptyParentheses.Spares cs := h
  obtain ⟨fixed, hfire⟩ := exists_fire?_of_not_spares hspares
  rcases (fire?_emptyParentheses hfire).2 with ⟨hnil, -⟩ | ⟨-, hfixed⟩
  · exact absurd hnil hne
  · rw [hfire, hfixed]

theorem fire?_of_open (h : cs.count ')' < cs.count '(') :
    unclosedParentheses.fire? cs =
      some (cs ++ List.replicate (cs.count '(' - cs.count ')') ')') := by
  have hspares : ¬ unclosedParentheses.Spares cs := Nat.not_le.mpr h
  obtain ⟨fixed, hfire⟩ := exists_fire?_of_not_spares hspares
  rw [hfire, (fire?_unclosedParentheses hfire).2]

end Rule

/-! ## The first slip -/

theorem firstFix?_eq_none_iff : firstFix? cs = none ↔ ∀ rule : Rule, rule.Spares cs := by
  constructor
  · intro h rule
    exact Rule.spares_of_fire?_eq_none (fire?_of_firstFix?_eq_none h rule)
  · intro h
    refine List.findSome?_eq_none_iff.mpr fun rule _ => ?_
    rw [Rule.fire?_eq_none_iff.mpr (h rule), Option.map_none]

/-- The rule that fires is the first one if the text is spared by those that are tried before it. -/
theorem firstFix?_eq_some {earlier later : List Rule} (horder : Rule.order = earlier ++ rule :: later)
    (hearlier : ∀ r ∈ earlier, r.Spares cs) (h : rule.fire? cs = some fixed) :
    firstFix? cs = some (rule, fixed) := by
  refine List.findSome?_eq_some_iff.mpr ⟨earlier, rule, later, horder, ?_, fun r hr => ?_⟩
  · rw [h, Option.map_some]
  · rw [Rule.fire?_eq_none_iff.mpr (hearlier r hr), Option.map_none]

/-- And the rules that are tried before it have spared the text. -/
theorem spares_of_firstFix? {r : Rule} (h : firstFix? cs = some (rule, fixed))
    (hr : r ∈ Rule.order.takeWhile (· ≠ rule)) : r.Spares cs := by
  obtain ⟨earlier, tried, later, horder, hfire, hearlier⟩ := List.findSome?_eq_some_iff.mp h
  obtain ⟨_, -, hpair⟩ := Option.map_eq_some_iff.mp hfire
  obtain rfl : tried = rule := congrArg Prod.fst hpair
  have hmem : r ∈ earlier := by
    rw [horder, List.takeWhile_append, List.takeWhile_cons_of_neg (by simp), List.append_nil] at hr
    split at hr
    · exact hr
    · exact (List.takeWhile_prefix _).subset hr
  exact Rule.spares_of_fire?_eq_none (Option.map_eq_none_iff.mp (hearlier r hmem))

/-- `duplicateOperator` is tried before the other rules. -/
theorem firstFix?_duplicateOperator (h : ¬ Undoubled cs) :
    firstFix? cs = some (.duplicateOperator, collapse cs) := by
  have horder : Rule.order = [] ++ .duplicateOperator :: Rule.order.tail := rfl
  exact firstFix?_eq_some horder (by simp) (Rule.fire?_of_not_undoubled h)

/-- `emptyParentheses` is tried next. -/
theorem firstFix?_emptyParentheses (hundoubled : Undoubled cs) (hempty : ¬ Filled cs)
    (hne : dropEmptyGroups cs ≠ []) :
    firstFix? cs = some (.emptyParentheses, dropEmptyGroups cs) := by
  have horder : Rule.order = [.duplicateOperator] ++ .emptyParentheses :: _ := rfl
  refine firstFix?_eq_some horder ?_ (Rule.fire?_of_not_filled hempty hne)
  intro r hr
  obtain rfl := List.mem_singleton.mp hr
  exact hundoubled

/-! ## Valid expressions -/

variable {d : Expr Decimal}

theorem Grammar.Layered.spares (h : Layered .text (respell cs) d)
    (hrule : rule ≠ .duplicateOperator) : rule.Spares cs := by
  cases rule with
  | duplicateOperator => exact absurd rfl hrule
  | emptyParentheses => exact h.filled
  | trailingOperator =>
    intro front op htrim hop
    obtain ⟨before, behind, -, hbehind, hcs⟩ := exists_eq_append_trim cs
    have hsplit : cs = (before ++ front) ++ op :: behind := by
      rw [hcs, htrim]
      simp only [List.append_assoc, List.singleton_append]
    rw [hsplit] at h
    exact absurd h (not_trailing hop hbehind d)
  | unclosedParentheses => exact Nat.le_of_eq h.count_eq

theorem Grammar.Layered.undoubled_iff (h : Layered .text (respell cs) d) :
    Undoubled cs ↔ ¬ ['-', '-'] <:+: cs := by
  constructor
  · intro hundoubled
    exact Reckoner.undoubled_iff.mp hundoubled '-' rfl
  · exact h.undoubled

/-- On a valid expression no rule but `duplicateOperator` fires, and that one on two minus signs only. -/
theorem Grammar.Layered.fire?_eq_none_iff (h : Layered .text (respell cs) d) :
    rule.fire? cs = none ↔ ¬ (rule = .duplicateOperator ∧ ['-', '-'] <:+: cs) := by
  rw [Rule.fire?_eq_none_iff, not_and]
  by_cases hrule : rule = .duplicateOperator
  · subst hrule
    exact h.undoubled_iff.trans ⟨fun hminus _ => hminus, fun hminus => hminus rfl⟩
  · exact iff_of_true (h.spares hrule) fun heq => absurd heq hrule

theorem Grammar.Layered.firstFix?_eq_none (h : Layered .text (respell cs) d)
    (hminus : ¬ ['-', '-'] <:+: cs) : firstFix? cs = none := by
  refine firstFix?_eq_none_iff.mpr fun rule => ?_
  exact Rule.fire?_eq_none_iff.mp (h.fire?_eq_none_iff.mpr fun hdouble => hminus hdouble.2)

theorem Grammar.Layered.firstFix?_eq_some (h : Layered .text (respell cs) d)
    (hminus : ['-', '-'] <:+: cs) : firstFix? cs = some (.duplicateOperator, collapse cs) :=
  firstFix?_duplicateOperator fun hundoubled => h.undoubled_iff.mp hundoubled hminus

/-! ## Failures of valid expressions -/

/-- A failure that is not one of syntax is that of an expression that can be parsed. -/
theorem exists_parse_of_error {text : String} {error : Failure} (h : evaluate text = .error error)
    (herror : error = .divisionByZero ∨ error = .invalid .notFinite) :
    ∃ t, Expr.parse text = .ok t := by
  cases hparse : Expr.parse text with
  | ok t => exact ⟨t, rfl⟩
  | error failure =>
    exfalso
    rw [evaluate, hparse] at h
    obtain rfl := Except.error.inj h
    rcases Expr.exists_firstIn_or_malformed (Expr.parse_eq_error_iff.mp hparse) with
      ⟨flaw, -, rfl⟩ | ⟨position, rfl⟩
    · rcases herror with herror | herror <;> cases flaw <;> cases herror
    · rcases herror with herror | herror <;> cases herror

/-- Whatever is offered, its message is that of the rule that fires first. -/
theorem Config.exists_firstFix?_of_localSuggestion {config : Config} {expression : String}
    {offer : Suggestion} (h : config.localSuggestion expression = some offer) :
    ∃ rule fixed, firstFix? expression.toList = some (rule, fixed) ∧
      offer.message = rule.message := by
  cases hvalidate : config.validateSuggestions with
  | true => exact (earliestMend_of_localSuggestion hvalidate h).2
  | false =>
    cases hfirst : firstFix? expression.toList with
    | none =>
      have hunavailable : suggestFix expression = .unavailable := by rw [suggestFix, hfirst]
      rw [localSuggestion, hunavailable] at h
      cases h
    | some firing =>
      rw [localSuggestion_of_not_validate hvalidate hfirst] at h
      obtain rfl := Option.some.inj h
      exact ⟨firing.1, firing.2, rfl, rfl⟩

/-- **`repair_spares_valid`** — on an expression that can be parsed no rule fires but
`duplicateOperator`, and that one fires just when a minus sign follows a minus sign. So nothing is
suggested for a valid expression without two minus signs in a row, and a failure that is not one of
syntax comes with no suggestion but for them. -/
theorem repair_spares_valid (e : String) :
    (∀ t, Expr.parse (toEvaluator e) = .ok t →
      (∀ rule : Rule, (rule.apply e).isSome = true ↔
        rule = .duplicateOperator ∧ ['-', '-'] <:+: e.toList) ∧
      (¬ ['-', '-'] <:+: e.toList → suggestFix e = .unavailable) ∧
      (['-', '-'] <:+: e.toList →
        suggestFix e = ⟨.ofList (collapse e.toList), Rule.duplicateOperator.message⟩)) ∧
    ∀ (config : Config) (shown : String) (error : Failure) (highlight : Option Highlight)
      (suggestion : Option Suggestion),
      config.calculate e = .ok (.failure shown error highlight suggestion) →
      error = .divisionByZero ∨ error = .invalid .notFinite →
      ∀ offer, suggestion = some offer →
        ['-', '-'] <:+: e.toList ∧ offer.message = Rule.duplicateOperator.message := by
  constructor
  · intro t ht
    obtain ⟨d, hd, -, -⟩ := Expr.parse_toEvaluator_eq_ok_iff.mp ht
    refine ⟨fun rule => ?_, fun hminus => ?_, fun hminus => ?_⟩
    · rw [Rule.apply, Option.isSome_map, ← not_iff_not, Bool.not_eq_true, Option.isSome_eq_false_iff,
        Option.isNone_iff_eq_none]
      exact hd.fire?_eq_none_iff
    · rw [suggestFix, hd.firstFix?_eq_none hminus]
    · rw [suggestFix, hd.firstFix?_eq_some hminus]
  · intro config shown error highlight suggestion hc herror offer hoffer
    obtain ⟨hvalue, rfl, rfl, rfl⟩ := Config.failure_of_calculate hc
    obtain ⟨t, ht⟩ := exists_parse_of_error hvalue herror
    obtain ⟨d, hd, -, -⟩ := Expr.parse_toEvaluator_eq_ok_iff.mp ht
    obtain ⟨rule, fixed, hfirst, hmessage⟩ := Config.exists_firstFix?_of_localSuggestion hoffer
    by_cases hminus : ['-', '-'] <:+: shown.toList
    · rw [hd.firstFix?_eq_some hminus] at hfirst
      cases hfirst
      exact ⟨hminus, hmessage⟩
    · rw [hd.firstFix?_eq_none hminus] at hfirst
      cases hfirst

/-- Both expressions divide by zero. Only the one with two minus signs in a row is mended, to an
expression of another value. -/
theorem repair_spares_valid_of_zero_divisors :
    (∃ t, Expr.parse (toEvaluator "-8÷0") = .ok t) ∧ ¬ ['-', '-'] <:+: "-8÷0".toList ∧
      suggestFix "-8÷0" = .unavailable ∧
      ['-', '-'] <:+: "1÷(-2--2)".toList ∧
      Config.default.calculate "1÷(-2--2)" =
        .ok (.failure "1÷(-2--2)" .divisionByZero none
          (some ⟨"1÷(-2-2)", "Removed duplicated operator."⟩)) ∧
      "Removed duplicated operator." = Rule.duplicateOperator.message := by
  have hparse : ∃ t, Expr.parse (toEvaluator "-8÷0") = .ok t := ⟨_, rfl⟩
  have hminus : ¬ ['-', '-'] <:+: "-8÷0".toList := by decide
  have hc : Config.default.calculate "1÷(-2--2)" =
      .ok (.failure "1÷(-2--2)" .divisionByZero none
        (some ⟨"1÷(-2-2)", "Removed duplicated operator."⟩)) :=
    Config.eq_ok_of_toOption_eq_some (by decide +kernel)
  obtain ⟨t, ht⟩ := hparse
  obtain ⟨-, hnone, -⟩ := (repair_spares_valid "-8÷0").1 t ht
  obtain ⟨hdouble, hmessage⟩ :=
    (repair_spares_valid "1÷(-2--2)").2 _ _ _ _ _ hc (.inl rfl) _ rfl
  exact ⟨⟨t, ht⟩, hminus, hnone hminus, hdouble, hc, hmessage⟩

/-- The difference of 5 and -3 can be parsed, and it is mended to the difference of 5 and 3. -/
theorem suggestFix_of_double_minus :
    (∃ t, Expr.parse (toEvaluator "5--3") = .ok t) ∧
      suggestFix "5--3" = ⟨"5-3", "Removed duplicated operator."⟩ ∧
      suggestFix "5--3" ≠ .unavailable := by
  have hfix : suggestFix "5--3" = ⟨"5-3", "Removed duplicated operator."⟩ := by decide +kernel
  refine ⟨⟨_, rfl⟩, hfix, ?_⟩
  rw [hfix]
  decide

end Reckoner
