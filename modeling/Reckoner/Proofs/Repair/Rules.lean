/-
# Reckoner.Proofs.Repair.Rules — what each rule of repair does to a text.

Two quantities tell the rules apart. `excess` is the number of parentheses opened less the number of
those closed; the first three rules keep it, and `unclosedParentheses` brings a positive excess down to
zero. `nonClosing` counts the characters that are no closing parenthesis; the first three rules lower
it, and `unclosedParentheses` keeps it. The one exception is the `0` that stands in for a text of which
nothing is left.

A text on which no rule fires has none of the slips that the rules look for; this is said for each rule
by itself.
-/
import Reckoner.Proofs.Text
import Reckoner.Repair.Suggestion

namespace Reckoner

/-! ## Two quantities of a text -/

/-- **`nonClosing cs`** — how many characters are no closing parenthesis. -/
def nonClosing (cs : List Char) : Nat := cs.countP (· != ')')

/-- **`excess cs`** — how many parentheses are opened, less those that are closed. -/
def excess (cs : List Char) : Int := cs.count '(' - cs.count ')'

theorem nonClosing_append (as bs : List Char) :
    nonClosing (as ++ bs) = nonClosing as + nonClosing bs := List.countP_append

theorem nonClosing_cons_of_ne {c : Char} (hc : c ≠ ')') (cs : List Char) :
    nonClosing (c :: cs) = nonClosing cs + 1 := List.countP_cons_of_pos (bne_iff_ne.mpr hc)

theorem nonClosing_le_of_sublist {as bs : List Char} (h : as.Sublist bs) :
    nonClosing as ≤ nonClosing bs := h.countP_le

theorem nonClosing_add_count (cs : List Char) : nonClosing cs + cs.count ')' = cs.length := by
  induction cs with
  | nil => rfl
  | cons c cs ih =>
    by_cases hc : c = ')'
    · subst hc
      rw [List.count_cons_self, List.length_cons, ← ih]
      rfl
    · rw [nonClosing_cons_of_ne hc, List.count_cons_of_ne hc, List.length_cons, ← ih]
      omega

theorem excess_append (as bs : List Char) : excess (as ++ bs) = excess as + excess bs := by
  simp only [excess, List.count_append]
  omega

theorem excess_cons (c : Char) (cs : List Char) : excess (c :: cs) = excess [c] + excess cs :=
  excess_append [c] cs

theorem excess_eq_zero {cs : List Char} (hopen : '(' ∉ cs) (hclose : ')' ∉ cs) :
    excess cs = 0 := by
  rw [excess, List.count_eq_zero_of_not_mem hopen, List.count_eq_zero_of_not_mem hclose]
  rfl

theorem excess_of_white {cs : List Char} (h : White cs) : excess cs = 0 :=
  excess_eq_zero (not_mem_of_white h rfl) (not_mem_of_white h rfl)

theorem excess_operator {c : Char} (h : isDisplayOperator c = true) : excess [c] = 0 := by
  apply excess_eq_zero
  · rw [List.mem_singleton]
    rintro rfl
    cases h
  · rw [List.mem_singleton]
    rintro rfl
    cases h

/-! ## Runs of one operator -/

theorem collapse_sublist (cs : List Char) : (collapse cs).Sublist cs := by
  -- `case3` drops the first of two equal operators, `case4` keeps the first character
  fun_induction collapse cs with
  | case1 => exact .refl _
  | case2 c => exact .refl _
  | case3 c d cs h ih => exact ih.cons c
  | case4 c d cs h ih => exact ih.cons_cons c

theorem excess_collapse (cs : List Char) : excess (collapse cs) = excess cs := by
  fun_induction collapse cs with
  | case1 => rfl
  | case2 c => rfl
  | case3 c d cs h ih =>
    rw [Bool.and_eq_true] at h
    rw [ih, excess_cons c, excess_operator h.1, Int.zero_add]
  | case4 c d cs h ih => rw [excess_cons, ih, ← excess_cons]

theorem count_collapse {x : Char} (hx : isDisplayOperator x = false) (cs : List Char) :
    (collapse cs).count x = cs.count x := by
  fun_induction collapse cs with
  | case1 => rfl
  | case2 c => rfl
  | case3 c d cs h ih =>
    have hc : c ≠ x := by
      rintro rfl
      rw [hx] at h
      cases h
    rw [ih, List.count_cons_of_ne hc]
  | case4 c d cs h ih => rw [List.count_cons, ih, ← List.count_cons]

/-- Only operators go, so a text that changes loses characters that are no closing parenthesis. -/
theorem nonClosing_collapse_lt {cs : List Char} (h : collapse cs ≠ cs) :
    nonClosing (collapse cs) < nonClosing cs := by
  have hlt : (collapse cs).length < cs.length :=
    Nat.lt_of_le_of_ne (collapse_sublist cs).length_le
      fun heq => h ((collapse_sublist cs).eq_of_length heq)
  have hnew := nonClosing_add_count (collapse cs)
  have hold := nonClosing_add_count cs
  rw [count_collapse rfl] at hnew
  omega

theorem collapse_ne_nil {cs : List Char} (h : cs ≠ []) : collapse cs ≠ [] := by
  fun_induction collapse cs with
  | case1 => exact absurd rfl h
  | case2 c => exact h
  | case3 c d cs _ ih => exact ih (List.cons_ne_nil d cs)
  | case4 c d cs _ _ => exact List.cons_ne_nil _ _

/-- A text without a run to shorten has no two equal operators next to each other. -/
theorem isDisplayOperator_eq_false_of_collapse_eq {cs : List Char} (h : collapse cs = cs)
    {op : Char} (hop : [op, op] <:+: cs) : isDisplayOperator op = false := by
  fun_induction collapse cs with
  | case1 => simp at hop
  | case2 c => exact absurd hop.length_le (by simp)
  | case3 c d cs _ _ =>
    have hle := (collapse_sublist (d :: cs)).length_le
    rw [h, List.length_cons] at hle
    omega
  | case4 c d cs hne ih =>
    rw [List.cons_inj_right] at h
    rcases List.infix_cons_iff.mp hop with hp | hi
    · rw [List.cons_prefix_cons, List.cons_prefix_cons] at hp
      obtain ⟨rfl, rfl, -⟩ := hp
      rw [Bool.and_eq_true, beq_self_eq_true] at hne
      exact Bool.eq_false_iff.mpr fun htrue => hne ⟨htrue, rfl⟩
    · exact ih h hi

/-! ## Empty pairs of parentheses -/

theorem dropEmptyGroups_sublist (cs : List Char) : (dropEmptyGroups cs).Sublist cs := by
  -- a pair goes by itself in `case2`, and with the operator in front of it in `case3`
  fun_induction dropEmptyGroups cs with
  | case1 => exact .refl _
  | case2 cs ih => exact (ih.cons ')').cons '('
  | case3 c cs _ ih => exact ((ih.cons ')').cons '(').cons c
  | case4 c cs _ ih => exact ih.cons_cons c
  | case5 c cs _ _ ih => exact ih.cons_cons c

theorem excess_dropEmptyGroups (cs : List Char) : excess (dropEmptyGroups cs) = excess cs := by
  have hpair (rest : List Char) : excess ('(' :: ')' :: rest) = excess rest := by
    have h : excess ['(', ')'] = 0 := rfl
    rw [show '(' :: ')' :: rest = ['(', ')'] ++ rest from rfl, excess_append, h, Int.zero_add]
  fun_induction dropEmptyGroups cs with
  | case1 => rfl
  | case2 cs ih => rw [ih, hpair]
  | case3 c cs hop ih => rw [ih, excess_cons c, excess_operator hop, hpair, Int.zero_add]
  | case4 c cs _ ih => rw [excess_cons, ih, ← excess_cons]
  | case5 c cs _ _ ih => rw [excess_cons, ih, ← excess_cons]

/-- Where there is an empty pair, its opening parenthesis goes. -/
theorem nonClosing_dropEmptyGroups_lt {cs : List Char} (h : ['(', ')'] <:+: cs) :
    nonClosing (dropEmptyGroups cs) < nonClosing cs := by
  have hle (rest : List Char) : nonClosing (dropEmptyGroups rest) ≤ nonClosing rest :=
    nonClosing_le_of_sublist (dropEmptyGroups_sublist rest)
  have hpair (rest : List Char) : nonClosing ('(' :: ')' :: rest) = nonClosing rest + 1 :=
    nonClosing_cons_of_ne (by decide) (')' :: rest)
  have hcons (c : Char) (rest : List Char) : nonClosing rest ≤ nonClosing (c :: rest) :=
    nonClosing_le_of_sublist (List.sublist_cons_self c rest)
  fun_induction dropEmptyGroups cs with
  | case1 => simp at h
  | case2 cs _ =>
    rw [hpair]
    exact Nat.lt_succ_of_le (hle cs)
  | case3 c cs _ _ =>
    have hc := hcons c ('(' :: ')' :: cs)
    rw [hpair] at hc
    exact Nat.lt_of_lt_of_le (Nat.lt_succ_of_le (hle cs)) hc
  | case4 c cs _ ih =>
    -- no operator stands in front of the pair, so it goes when its turn comes
    have hrest := ih ⟨[], cs, rfl⟩
    have hnew := nonClosing_append [c] (dropEmptyGroups ('(' :: ')' :: cs))
    have hold := nonClosing_append [c] ('(' :: ')' :: cs)
    rw [List.singleton_append] at hnew hold
    omega
  | case5 c cs hfirst _ ih =>
    have hnew := nonClosing_append [c] (dropEmptyGroups cs)
    have hold := nonClosing_append [c] cs
    rw [List.singleton_append] at hnew hold
    rcases List.infix_cons_iff.mp h with hp | hi
    · -- the pair does not stand in front, or the pass would have removed it there
      rw [List.cons_prefix_cons] at hp
      obtain ⟨rfl, rest, rfl⟩ := hp
      exact absurd rfl (hfirst rest rfl)
    · have hrest := ih hi
      omega

/-! ## The rules -/

namespace Rule

theorem fire?_eq_some_iff {rule : Rule} {cs fixed : List Char} :
    rule.fire? cs = some fixed ↔ rule.rewrite? cs = some fixed ∧ fixed ≠ [] ∧ fixed ≠ cs := by
  rw [fire?, Option.filter_eq_some_iff, Bool.and_eq_true, Bool.not_eq_true', bne_iff_ne,
    List.isEmpty_eq_false_iff]

theorem fire?_eq_none {rule : Rule} {cs fixed : List Char} (h : rule.fire? cs = none)
    (hr : rule.rewrite? cs = some fixed) (hne : fixed ≠ []) : fixed = cs := by
  by_cases hcs : fixed = cs
  · exact hcs
  · rw [fire?_eq_some_iff.mpr ⟨hr, hne, hcs⟩] at h
    cases h

variable {cs fixed : List Char}

/-! ### What a rule does when it fires -/

theorem fire?_emptyParentheses (h : emptyParentheses.fire? cs = some fixed) :
    ['(', ')'] <:+: cs ∧
      (dropEmptyGroups cs = [] ∧ fixed = ['0'] ∨
        dropEmptyGroups cs ≠ [] ∧ fixed = dropEmptyGroups cs) := by
  have hr := (fire?_eq_some_iff.mp h).1
  simp only [rewrite?] at hr
  by_cases hocc : occursIn ['(', ')'] cs = true
  · rw [if_pos hocc] at hr
    refine ⟨occursIn_iff.mp hocc, ?_⟩
    by_cases hnil : dropEmptyGroups cs = []
    · rw [hnil] at hr
      exact .inl ⟨hnil, (Option.some.inj hr).symm⟩
    · rw [if_neg (by rwa [List.isEmpty_iff])] at hr
      exact .inr ⟨hnil, (Option.some.inj hr).symm⟩
  · rw [if_neg hocc] at hr
    cases hr

theorem fire?_trailingOperator (h : trailingOperator.fire? cs = some fixed) :
    ∃ op, isDisplayOperator op = true ∧ trim cs = fixed ++ [op] := by
  have hr := (fire?_eq_some_iff.mp h).1
  simp only [rewrite?] at hr
  cases hlast : (trim cs).getLast? with
  | none =>
    rw [hlast] at hr
    cases hr
  | some op =>
    rw [hlast, Option.any_some] at hr
    by_cases hop : isDisplayOperator op = true
    · rw [if_pos hop] at hr
      obtain ⟨body, hbody⟩ := List.getLast?_eq_some_iff.mp hlast
      refine ⟨op, hop, ?_⟩
      rw [← Option.some.inj hr, hbody, List.dropLast_concat]
    · rw [if_neg hop] at hr
      cases hr

theorem fire?_unclosedParentheses (h : unclosedParentheses.fire? cs = some fixed) :
    0 < excess cs ∧ fixed = cs ++ List.replicate (cs.count '(' - cs.count ')') ')' := by
  have hr := (fire?_eq_some_iff.mp h).1
  simp only [rewrite?] at hr
  by_cases hzero : cs.count '(' - cs.count ')' = 0
  · rw [if_pos hzero] at hr
    cases hr
  · rw [if_neg hzero] at hr
    refine ⟨?_, (Option.some.inj hr).symm⟩
    show (0 : Int) < cs.count '(' - cs.count ')'
    omega

/-- Every rule but the last one keeps the excess, and lowers `nonClosing` or leaves a mere `0`. -/
theorem excess_nonClosing_of_fire? {rule : Rule} (h : rule.fire? cs = some fixed)
    (hrule : rule ≠ .unclosedParentheses) :
    excess fixed = excess cs ∧
      (nonClosing fixed < nonClosing cs ∨ fixed = ['0'] ∧ 0 < nonClosing cs) := by
  cases rule with
  | duplicateOperator =>
    obtain ⟨hr, -, hne⟩ := fire?_eq_some_iff.mp h
    obtain rfl : collapse cs = fixed := Option.some.inj hr
    exact ⟨excess_collapse cs, .inl (nonClosing_collapse_lt hne)⟩
  | emptyParentheses =>
    obtain ⟨hocc, ⟨hnil, rfl⟩ | ⟨-, rfl⟩⟩ := fire?_emptyParentheses h
    · have hex := excess_dropEmptyGroups cs
      have hlt := nonClosing_dropEmptyGroups_lt hocc
      rw [hnil] at hex hlt
      exact ⟨hex, .inr ⟨rfl, hlt⟩⟩
    · exact ⟨excess_dropEmptyGroups cs, .inl (nonClosing_dropEmptyGroups_lt hocc)⟩
  | trailingOperator =>
    obtain ⟨op, hop, htrim⟩ := fire?_trailingOperator h
    obtain ⟨front, back, hfront, hback, hcs⟩ := exists_eq_append_trim cs
    rw [htrim] at hcs
    -- what is dropped, an operator and white space, is no parenthesis
    have hne : op ≠ ')' := by
      rintro rfl
      cases hop
    constructor
    · rw [hcs, excess_append, excess_append, excess_append, excess_of_white hfront,
        excess_of_white hback, excess_operator hop]
      omega
    · rw [hcs, nonClosing_append, nonClosing_append, nonClosing_append, nonClosing_cons_of_ne hne]
      exact .inl (by omega)
  | unclosedParentheses => exact absurd rfl hrule

/-- The last rule closes what is open, and appends nothing else. -/
theorem excess_nonClosing_of_fire?_unclosedParentheses
    (h : unclosedParentheses.fire? cs = some fixed) :
    0 < excess cs ∧ excess fixed = 0 ∧ nonClosing fixed = nonClosing cs := by
  obtain ⟨hpos, rfl⟩ := fire?_unclosedParentheses h
  refine ⟨hpos, ?_, ?_⟩
  · have hcount : (cs ++ List.replicate (cs.count '(' - cs.count ')') ')').count '(' = cs.count '(' := by
      rw [List.count_append, List.count_replicate, if_neg (by decide), Nat.add_zero]
    simp only [excess] at hpos ⊢
    rw [hcount, List.count_append, List.count_replicate_self]
    omega
  · rw [nonClosing_append, nonClosing, nonClosing, List.countP_replicate, if_neg (by decide),
      Nat.add_zero]

/-! ### What holds of a text on which a rule does not fire -/

theorem not_infix_of_fire?_eq_none {op : Char} (h : duplicateOperator.fire? cs = none)
    (hop : isDisplayOperator op = true) : ¬ [op, op] <:+: cs := by
  intro hocc
  have hne : cs ≠ [] := by
    rintro rfl
    simp at hocc
  have hsame := fire?_eq_none h rfl (collapse_ne_nil hne)
  rw [isDisplayOperator_eq_false_of_collapse_eq hsame hocc] at hop
  cases hop

theorem not_emptyGroup_of_fire?_eq_none (h : emptyParentheses.fire? cs = none) :
    ¬ ['(', ')'] <:+: cs := by
  intro hocc
  have hlt := nonClosing_dropEmptyGroups_lt hocc
  have hr : emptyParentheses.rewrite? cs =
      some (if (dropEmptyGroups cs).isEmpty then ['0'] else dropEmptyGroups cs) := by
    simp only [rewrite?]
    rw [if_pos (occursIn_iff.mpr hocc)]
  by_cases hnil : dropEmptyGroups cs = []
  · rw [hnil] at hr
    have hcs := fire?_eq_none h hr (List.cons_ne_nil _ _)
    rw [← hcs] at hocc
    exact absurd hocc.length_le (by decide)
  · rw [if_neg (by rwa [List.isEmpty_iff])] at hr
    rw [fire?_eq_none h hr hnil] at hlt
    exact absurd hlt (Nat.lt_irrefl _)

/-- An operator at the end of the trimmed text is all that there is. -/
theorem trim_eq_of_fire?_eq_none {op : Char} (h : trailingOperator.fire? cs = none)
    (hlast : (trim cs).getLast? = some op) (hop : isDisplayOperator op = true) :
    trim cs = [op] := by
  obtain ⟨body, hbody⟩ := List.getLast?_eq_some_iff.mp hlast
  have hr : trailingOperator.rewrite? cs = some body := by
    simp only [rewrite?]
    rw [hlast, Option.any_some, if_pos hop, hbody, List.dropLast_concat]
  cases body with
  | nil => exact hbody
  | cons c body =>
    -- the rule would leave a text that is shorter and not empty, so it would fire
    obtain ⟨front, back, -, -, hcs⟩ := exists_eq_append_trim cs
    have hlen := congrArg List.length hcs
    rw [hbody, ← fire?_eq_none h hr (List.cons_ne_nil c body)] at hlen
    simp only [List.length_append, List.length_singleton] at hlen
    omega

theorem excess_le_zero_of_fire?_eq_none (h : unclosedParentheses.fire? cs = none) :
    excess cs ≤ 0 := by
  by_cases hzero : cs.count '(' - cs.count ')' = 0
  · show (cs.count '(' : Int) - cs.count ')' ≤ 0
    omega
  · have hr : unclosedParentheses.rewrite? cs =
        some (cs ++ List.replicate (cs.count '(' - cs.count ')') ')') := by
      simp only [rewrite?]
      rw [if_neg hzero]
    have hrep : List.replicate (cs.count '(' - cs.count ')') ')' ≠ [] := by
      rw [ne_eq, List.replicate_eq_nil_iff]
      exact hzero
    have hcs := fire?_eq_none h hr (List.append_ne_nil_of_right_ne_nil _ hrep)
    exact absurd (List.append_right_eq_self.mp hcs) hrep

end Rule

/-! ## The first rule that fires -/

theorem fire?_of_firstFix?_eq_some {cs fixed : List Char} {rule : Rule}
    (h : firstFix? cs = some (rule, fixed)) : rule.fire? cs = some fixed := by
  obtain ⟨r, -, hr⟩ := List.exists_of_findSome?_eq_some h
  obtain ⟨f, hf, heq⟩ := Option.map_eq_some_iff.mp hr
  obtain ⟨rfl, rfl⟩ := Prod.mk.inj heq
  exact hf

theorem fire?_of_firstFix?_eq_none {cs : List Char} (h : firstFix? cs = none) (rule : Rule) :
    rule.fire? cs = none := by
  have hmem : rule ∈ Rule.order := by cases rule <;> decide
  exact Option.map_eq_none_iff.mp (List.findSome?_eq_none_iff.mp h rule hmem)

end Reckoner
