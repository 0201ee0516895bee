/-
# Reckoner.Proofs.Repair.Insertions — a slip that was typed into an expression is taken out again.

Two slips are put into an expression that has a value: an operator `+`, `×` or `÷` that stands in it is
typed a second time, or an operator and an empty pair of parentheses are typed somewhere. What comes of
it can never be parsed, wherever that place is. The rule that mends it leaves everything else as it is
and gives the expression back, and no rule is tried before it that would fire. As the expression has a
value, it makes no difference whether suggestions are validated.

The expression must not have a minus sign behind a minus sign, for that would be mended too. And the
operator in front of the empty pair must not repeat the character that it is typed behind.
-/
import Reckoner.Proofs.Repair.Slips

namespace Reckoner

open Grammar

variable {op : Char} {front rest cs : List Char}

/-! ## A doubled operator -/

theorem head?_append_cons (c : Char) (front rest rest' : List Char) :
    (front ++ c :: rest).head? = (front ++ c :: rest').head? := by
  cases front <;> rfl

/-- Collapsing looks only at the next character. -/
theorem collapse_cons_congr {c : Char} {as bs : List Char} (hhead : as.head? = bs.head?)
    (h : collapse as = collapse bs) : collapse (c :: as) = collapse (c :: bs) := by
  cases as with
  | nil => rw [List.head?_eq_none_iff.mp hhead.symm]
  | cons a as =>
    obtain ⟨bs, rfl⟩ := List.head?_eq_some_iff.mp hhead.symm
    rw [collapse, collapse, h]

theorem collapse_double (hop : isDisplayOperator op = true) (front rest : List Char) :
    collapse (front ++ op :: op :: rest) = collapse (front ++ op :: rest) := by
  induction front with
  | nil => rw [List.nil_append, collapse, hop, beq_self_eq_true, Bool.and_self, if_pos rfl]; rfl
  | cons c front ih => exact collapse_cons_congr (head?_append_cons op front _ _) ih

theorem not_undoubled_double (hop : isDisplayOperator op = true) (front rest : List Char) :
    ¬ Undoubled (front ++ op :: op :: rest) := by
  intro h
  refine undoubled_iff.mp h op hop ⟨front, rest, ?_⟩
  rw [List.append_assoc]
  rfl

/-- The doubled operator is mended first, and nothing else is. -/
theorem firstFix?_double (hop : isDisplayOperator op = true)
    (h : Undoubled (front ++ op :: rest)) :
    firstFix? (front ++ op :: op :: rest) = some (.duplicateOperator, front ++ op :: rest) := by
  rw [firstFix?_duplicateOperator (not_undoubled_double hop front rest), collapse_double hop,
    collapse_eq_self h]

/-! ## An operator and an empty pair of parentheses -/

theorem isDisplayOperator_ne (hop : isDisplayOperator op = true) : op ≠ '(' ∧ op ≠ ')' := by
  constructor
  · rintro rfl
    cases hop
  · rintro rfl
    cases hop

theorem dropEmptyGroups_cons {c : Char} (hpair : ∀ rest, c = '(' → cs ≠ ')' :: rest)
    (hnext : ∀ rest, cs ≠ '(' :: ')' :: rest) :
    dropEmptyGroups (c :: cs) = c :: dropEmptyGroups cs := by
  rw [dropEmptyGroups.eq_def]
  split
  · rename_i heq
    cases heq
  · rename_i heq
    cases heq
    exact absurd rfl (hpair _ rfl)
  · rename_i heq
    cases heq
    exact absurd rfl (hnext _)
  · rename_i heq
    cases heq
    rfl

theorem Filled.head?_ne (h : Filled ('(' :: front ++ rest.take 1)) :
    (front ++ rest).head? ≠ some ')' := by
  have hhead : (front ++ rest.take 1).head? = (front ++ rest).head? := by
    cases front with
    | nil => cases rest <;> rfl
    | cons _ _ => rfl
  rw [← hhead]
  intro hclose
  exact (List.isChain_cons.mp h).1 ')' hclose rfl rfl

/-- The pass leaves a part without empty pairs as it is, unless it would take the last character of it
for an operator in front of a pair. -/
theorem dropEmptyGroups_append (h : Filled (front ++ rest.take 1)) (hrest : rest.head? ≠ some '(') :
    dropEmptyGroups (front ++ rest) = front ++ dropEmptyGroups rest := by
  induction front with
  | nil => rfl
  | cons c front ih =>
    have htail : Filled (front ++ rest.take 1) := List.IsChain.tail h
    rw [List.cons_append, dropEmptyGroups_cons, ih htail, List.cons_append]
    · rintro tail rfl heq
      exact h.head?_ne (by rw [heq, List.head?_cons])
    · intro tail heq
      cases front with
      | nil =>
        rw [List.nil_append] at heq
        exact hrest (by rw [heq, List.head?_cons])
      | cons x front =>
        rw [List.cons_append, List.cons.injEq] at heq
        obtain ⟨rfl, hclose⟩ := heq
        exact htail.head?_ne (by rw [hclose, List.head?_cons])

theorem dropEmptyGroups_eq_self (h : Filled cs) : dropEmptyGroups cs = cs := by
  have happend : dropEmptyGroups (cs ++ []) = cs ++ dropEmptyGroups [] :=
    dropEmptyGroups_append (by simpa using h) (by simp)
  simpa [dropEmptyGroups] using happend

theorem dropEmptyGroups_pair (hop : isDisplayOperator op = true) (hfront : Filled front)
    (hrest : Filled rest) : dropEmptyGroups (front ++ op :: '(' :: ')' :: rest) = front ++ rest := by
  obtain ⟨hopen, hclose⟩ := isDisplayOperator_ne hop
  have hpair : dropEmptyGroups (op :: '(' :: ')' :: rest) = rest := by
    rw [dropEmptyGroups, if_pos hop, dropEmptyGroups_eq_self hrest]
  have hlast : Filled (front ++ (op :: '(' :: ')' :: rest).take 1) := by
    refine List.isChain_append.mpr ⟨hfront, List.isChain_singleton op, ?_⟩
    rintro c - d hd -
    obtain rfl := Option.some.inj hd
    exact hclose
  rw [dropEmptyGroups_append hlast, hpair]
  intro hhead
  exact hopen (Option.some.inj hhead)

theorem undoubled_pair (h : Undoubled (front ++ rest)) (hop : isDisplayOperator op = true)
    (hlast : front.getLast? ≠ some op) : Undoubled (front ++ op :: '(' :: ')' :: rest) := by
  obtain ⟨hfront, hrest, -⟩ := List.isChain_append.mp h
  obtain ⟨hopen, -⟩ := isDisplayOperator_ne hop
  have hpair : Undoubled (op :: '(' :: ')' :: rest) := by
    refine List.isChain_cons_cons.mpr ⟨fun _ => hopen, List.isChain_cons_cons.mpr ⟨?_, ?_⟩⟩
    · intro hparen
      cases hparen
    · refine List.isChain_cons.mpr ⟨fun c _ hparen => ?_, hrest⟩
      cases hparen
  refine List.isChain_append.mpr ⟨hfront, hpair, ?_⟩
  rintro c hc d hd - rfl
  obtain rfl := Option.some.inj hd
  exact hlast hc

theorem not_filled_pair (op : Char) (front rest : List Char) :
    ¬ Filled (front ++ op :: '(' :: ')' :: rest) := by
  rw [filled_iff, not_not]
  exact ⟨front ++ [op], rest, by simp⟩

/-- The empty pair is mended first, together with the operator, and nothing else is. -/
theorem firstFix?_pair (hundoubled : Undoubled (front ++ rest)) (hfilled : Filled (front ++ rest))
    (hne : front ++ rest ≠ []) (hop : isDisplayOperator op = true) (hlast : front.getLast? ≠ some op) :
    firstFix? (front ++ op :: '(' :: ')' :: rest) = some (.emptyParentheses, front ++ rest) := by
  obtain ⟨hfront, hrest, -⟩ := List.isChain_append.mp hfilled
  have hdrop := dropEmptyGroups_pair hop hfront hrest
  have hfirst := firstFix?_emptyParentheses (undoubled_pair hundoubled hop hlast)
    (not_filled_pair op front rest) (by rwa [hdrop])
  rwa [hdrop] at hfirst

/-! ## The expression is given back -/

namespace Config

variable {config : Config}

/-- What is typed cannot be parsed, its first repair is the expression, and that has a value. -/
theorem calculate_mended {e : String} {v : Binary64} {rule : Rule} {typed : String}
    (hv : evaluateDisplay e = .ok v) (hinvalid : ∀ d, ¬ Layered .text (respell typed.toList) d)
    (hfirst : firstFix? typed.toList = some (rule, e.toList)) :
    ∃ error highlight, config.calculate typed =
      .ok (.failure typed error highlight (some ⟨e, rule.message⟩)) := by
  obtain ⟨failure, hfailure⟩ := exists_error_of_not_layered hinvalid
  have hmended : evaluates (.ofList e.toList) = true := by
    rw [String.ofList_toList]
    exact evaluates_iff.mpr ⟨v, hv⟩
  have hoffer : config.localSuggestion typed = _ := localSuggestion_of_evaluates hfirst hmended
  rw [String.ofList_toList] at hoffer
  exact ⟨failure, exists_failure_of_localSuggestion hfailure hoffer⟩

/-- **`calculate_insertion`** — a slip that was typed into an expression with a value is undone exactly:
an operator typed twice, and an operator with an empty pair of parentheses behind it. -/
theorem calculate_insertion {e shown result : String} {v : Binary64} {tax : Option TaxFigure}
    (hc : config.calculate e = .ok (.success shown v result tax))
    (hminus : ¬ ['-', '-'] <:+: e.toList) :
    (∀ (a b : String) (op : Char), op ∈ ['+', '×', '÷'] → e = a.push op ++ b →
      ∃ error highlight, config.calculate ((a.push op).push op ++ b) =
        .ok (.failure ((a.push op).push op ++ b) error highlight
          (some ⟨e, Rule.duplicateOperator.message⟩))) ∧
    ∀ (a b : String) (op : Char), isDisplayOperator op = true → e = a ++ b →
      a.toList.getLast? ≠ some op →
      ∃ error highlight, config.calculate (a.push op ++ "()" ++ b) =
        .ok (.failure (a.push op ++ "()" ++ b) error highlight
          (some ⟨e, Rule.emptyParentheses.message⟩)) := by
  obtain ⟨w, hw⟩ := exists_value_of_success hc
  obtain ⟨d, hd, -⟩ := evaluateDisplay_eq_ok_iff.mp hw
  have hundoubled := hd.undoubled hminus
  constructor
  · intro a b op hmem he
    have hop : isDisplayOperator op = true := by
      simp only [List.mem_cons, List.not_mem_nil, or_false] at hmem
      rcases hmem with rfl | rfl | rfl <;> rfl
    have hsplit : e.toList = a.toList ++ op :: b.toList := by simp [he]
    have htyped : ((a.push op).push op ++ b).toList = a.toList ++ op :: op :: b.toList := by simp
    refine calculate_mended hw (fun d hd => ?_) ?_
    · rw [htyped] at hd
      exact hd.not_displayed_double hmem ⟨a.toList, b.toList, by simp⟩
    · rw [hsplit] at hundoubled ⊢
      rw [htyped]
      exact firstFix?_double hop hundoubled
  · intro a b op hop he hlast
    have hsplit : e.toList = a.toList ++ b.toList := by simp [he]
    have htyped : (a.push op ++ "()" ++ b).toList = a.toList ++ op :: '(' :: ')' :: b.toList := by
      simp
    have hfilled := hd.filled
    have hne : e.toList ≠ [] := by
      intro hnil
      obtain ⟨c, hmem, -⟩ := hd.exists_not_white
      rw [hnil] at hmem
      cases hmem
    refine calculate_mended hw (fun d hd => ?_) ?_
    · rw [htyped] at hd
      exact not_filled_pair op _ _ hd.filled
    · rw [hsplit] at hundoubled hfilled hne ⊢
      rw [htyped]
      exact firstFix?_pair hundoubled hfilled hne hop hlast

/-- The empty pair is typed within a numeral here, and the numeral is joined again. -/
theorem calculate_insertion_of_numeral :
    (∃ v result tax, Config.default.calculate "12×3" = .ok (.success "12×3" v result tax)) ∧
      ¬ ['-', '-'] <:+: "12×3".toList ∧
      (∃ error highlight, Config.default.calculate "12××3" =
        .ok (.failure "12××3" error highlight (some ⟨"12×3", Rule.duplicateOperator.message⟩))) ∧
      ∃ error highlight, Config.default.calculate "1-()2×3" =
        .ok (.failure "1-()2×3" error highlight (some ⟨"12×3", Rule.emptyParentheses.message⟩)) := by
  have hv : evaluateDisplay "12×3" = .ok (.ofNat 36) := eq_ok_of_toOption_eq_some (by decide +kernel)
  have hplaces : Config.default.maxFractionDigits ≤ maxPlaces := by decide
  obtain ⟨tax, -, hc⟩ := calculate_eq_ok hplaces hv
  have hminus : ¬ ['-', '-'] <:+: "12×3".toList := by decide
  obtain ⟨hdouble, hpair⟩ := calculate_insertion hc hminus
  exact ⟨⟨_, _, tax, hc⟩, hminus, hdouble "12" "3" '×' (by decide) rfl,
    hpair "1" "2×3" '-' rfl rfl (by decide)⟩

end Config

end Reckoner
