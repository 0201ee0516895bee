/-
# Reckoner.Proofs.Display — displayed expressions, and what those that can be parsed are free of.

Respelling goes character by character, so it goes part by part, keeps what stands side by side, and
changes nothing but `×`, `÷` and `%`. What is known of the texts of the grammar comes back along it: a
displayed expression that can be parsed has no sign twice in a row but a minus sign, no empty pair of
parentheses, no operator at its end, and no parenthesis that is left open.

A minus sign may follow a minus sign, because the second one belongs to an operand: in `5--3` the first
one subtracts and the second one negates. So the two cannot be told from a doubled operator by what
stands side by side.
-/
import Mathlib.Data.List.Chain
import Mathlib.Data.List.Infix
import Reckoner.Spelling
import Reckoner.Expr.Evaluate
import Reckoner.Repair.Rule
import Reckoner.Proofs.Diagnosis

namespace Reckoner

/-! ## Pairs of neighbours -/

/-- What holds of all neighbours holds of each pair that stands side by side, and conversely. -/
theorem isChain_iff_forall_infix {R : Char → Char → Prop} {cs : List Char} :
    cs.IsChain R ↔ ∀ c d, [c, d] <:+: cs → R c d := by
  constructor
  · intro h c d hinfix
    exact List.isChain_pair.mp ( List.IsChain.infix h hinfix)
  · intro h
    exact (List.isChain_isInfix cs).imp h

/-- **`Undoubled cs`** — no displayed operator stands next to itself. -/
def Undoubled (cs : List Char) : Prop := cs.IsChain fun c d => isDisplayOperator c = true → c ≠ d

instance : DecidablePred Undoubled := fun cs =>
  inferInstanceAs (Decidable (cs.IsChain fun c d => isDisplayOperator c = true → c ≠ d))

/-- **`Filled cs`** — no pair of parentheses is empty. -/
def Filled (cs : List Char) : Prop := cs.IsChain fun c d => c = '(' → d ≠ ')'

theorem isDisplayOperator_iff {c : Char} :
    isDisplayOperator c = true ↔ c = '+' ∨ c = '-' ∨ c = '×' ∨ c = '÷' := by
  simp only [isDisplayOperator, Bool.or_eq_true, beq_iff_eq, or_assoc]

theorem undoubled_iff {cs : List Char} :
    Undoubled cs ↔ ∀ op, isDisplayOperator op = true → ¬ [op, op] <:+: cs := by
  rw [Undoubled, isChain_iff_forall_infix]
  constructor
  · intro h op hop hinfix
    exact h op op hinfix hop rfl
  · rintro h c d hinfix hc rfl
    exact h c hc hinfix

theorem filled_iff {cs : List Char} : Filled cs ↔ ¬ ['(', ')'] <:+: cs := by
  rw [Filled, isChain_iff_forall_infix]
  constructor
  · intro h hinfix
    exact h '(' ')' hinfix rfl rfl
  · rintro h c d hinfix rfl rfl
    exact h hinfix

/-! ## Respelling -/

/-- **`respell cs`** — the characters that the evaluator reads for a displayed text. -/
def respell (cs : List Char) : List Char := cs.flatMap evaluatorSpelling

theorem toList_toEvaluator (text : String) : (toEvaluator text).toList = respell text.toList :=
  String.toList_ofList

theorem respell_append (as bs : List Char) : respell (as ++ bs) = respell as ++ respell bs :=
  List.flatMap_append

theorem respell_cons (c : Char) (cs : List Char) :
    respell (c :: cs) = evaluatorSpelling c ++ respell cs := List.flatMap_cons

theorem respell_singleton (c : Char) : respell [c] = evaluatorSpelling c := by
  simp [respell]

theorem evaluatorSpelling_eq_self {c : Char} (hmul : c ≠ '×') (hdiv : c ≠ '÷') (hpercent : c ≠ '%') :
    evaluatorSpelling c = [c] := by
  rw [evaluatorSpelling, if_neg hmul, if_neg hdiv, if_neg hpercent]

theorem respell_eq_self {cs : List Char} (h : ∀ c ∈ cs, evaluatorSpelling c = [c]) :
    respell cs = cs := by
  induction cs with
  | nil => rfl
  | cons c cs ih =>
    obtain ⟨hc, hcs⟩ := List.forall_mem_cons.mp h
    rw [respell_cons, hc, ih hcs, List.singleton_append]

theorem evaluatorSpelling_of_isWhite {c : Char} (h : isWhite c = true) :
    evaluatorSpelling c = [c] := by
  apply evaluatorSpelling_eq_self <;> (rintro rfl; cases h)

theorem respell_of_white {cs : List Char} (h : White cs) : respell cs = cs :=
  respell_eq_self fun c hc => evaluatorSpelling_of_isWhite (h c hc)

theorem evaluatorSpelling_of_isDigit {c : Char} (h : c.isDigit = true) :
    evaluatorSpelling c = [c] := by
  apply evaluatorSpelling_eq_self <;> (rintro rfl; cases h)

/-- A displayed operator is spelled as one operator of the evaluator's. -/
theorem exists_operator_spelling {op : Char} (hop : isDisplayOperator op = true) :
    ∃ c ∈ operators, evaluatorSpelling op = [c] := by
  rcases isDisplayOperator_iff.mp hop with rfl | rfl | rfl | rfl
  · exact ⟨'+', by decide, rfl⟩
  · exact ⟨'-', by decide, rfl⟩
  · exact ⟨'*', by decide, rfl⟩
  · exact ⟨'/', by decide, rfl⟩

theorem respell_replicate_close (n : Nat) :
    respell (List.replicate n ')') = List.replicate n ')' := by
  refine respell_eq_self fun c hc => ?_
  rw [List.eq_of_mem_replicate hc]
  rfl

/-- A character that is spelled as itself, and for no other one, is as frequent as before. -/
theorem count_respell {c : Char} (h : ∀ d, (evaluatorSpelling d).count c = [d].count c)
    (cs : List Char) : (respell cs).count c = cs.count c := by
  induction cs with
  | nil => rfl
  | cons d cs ih =>
    rw [respell_cons, List.count_append, h, ih, ← List.count_append, List.singleton_append]

theorem count_open_respell (cs : List Char) : (respell cs).count '(' = cs.count '(' := by
  apply count_respell
  intro d
  simp only [evaluatorSpelling]
  repeat' split
  all_goals simp_all

theorem count_close_respell (cs : List Char) : (respell cs).count ')' = cs.count ')' := by
  apply count_respell
  intro d
  simp only [evaluatorSpelling]
  repeat' split
  all_goals simp_all

/-- What is neither an operator nor a digit of the evaluator's own is spelled for itself only. -/
theorem evaluatorSpelling_of_mem_of_not_mem {c d : Char} (h : c ∈ evaluatorSpelling d)
    (hc : c ∉ ['*', '/', '1', '0']) : evaluatorSpelling d = [d] := by
  simp only [List.mem_cons, List.not_mem_nil, or_false, not_or] at hc
  obtain ⟨hstar, hslash, hone, hzero⟩ := hc
  unfold evaluatorSpelling at h ⊢
  split at h
  · exact absurd (List.mem_singleton.mp h) hstar
  split at h
  · exact absurd (List.mem_singleton.mp h) hslash
  split at h
  · simp [hslash, hone, hzero] at h
  · rename_i hmul hdiv hpercent
    rw [if_neg hmul, if_neg hdiv, if_neg hpercent]

/-- A character that is spelled as itself, and for no other one, comes from a place of the displayed
text, and what stands around it from what stands around that place. -/
theorem exists_of_respell_eq {c : Char} {cs front back : List Char}
    (hown : ∀ d, c ∈ evaluatorSpelling d → evaluatorSpelling d = [d])
    (h : respell cs = front ++ c :: back) :
    ∃ before behind, cs = before ++ c :: behind ∧ respell before = front ∧ respell behind = back := by
  induction cs generalizing front with
  | nil => exact absurd h.symm (by simp [respell])
  | cons d cs ih =>
    rw [respell_cons] at h
    rcases List.append_eq_append_iff.mp h with ⟨front', rfl, hrest⟩ | ⟨middle, hspelling, hrest⟩
    · obtain ⟨before, behind, rfl, rfl, rfl⟩ := ih hrest
      exact ⟨d :: before, behind, rfl, respell_cons d before, rfl⟩
    cases middle with
    | nil =>
      obtain ⟨before, behind, rfl, hnil, rfl⟩ := @ih [] hrest.symm
      rw [List.append_nil] at hspelling
      refine ⟨d :: before, behind, rfl, ?_, rfl⟩
      rw [respell_cons, hnil, List.append_nil, hspelling]
    | cons x middle =>
      obtain ⟨rfl, rfl⟩ := List.cons.inj hrest
      have hself := hown d (by rw [hspelling]; simp)
      rw [hself, List.singleton_eq_append_iff] at hspelling
      simp only [List.cons.injEq, reduceCtorEq, and_false, or_false] at hspelling
      obtain ⟨rfl, rfl, rfl⟩ := hspelling
      exact ⟨[], cs, rfl, rfl, rfl⟩

/-! ## What no text of the grammar has -/

open Reckoner.Expr Grammar Reading

namespace Expr.Reading

variable {r next : Reading} {c : Char}

theorem exists_of_stepAfter {e : Expr Decimal} {context : Context} (hc : c ∈ operators)
    (h : stepAfter e context c = some next) : ∃ context', next = before .operand context' := by
  have hblank := isBlank_eq_false_of_mem_symbols c (mem_symbols_of_mem_operators hc)
  have hclose : c ≠ ')' := by
    rintro rfl
    simp [operators] at hc
  rw [stepAfter, hblank, if_neg Bool.false_ne_true, if_neg hclose] at h
  obtain ⟨op, -, rfl⟩ := Option.map_eq_some_iff.mp h
  exact ⟨_, rfl⟩

/-- Behind an operator that is no minus sign the machine awaits an operand with its sign. -/
theorem exists_eq_before_operand (hc : c ∈ ['+', '*', '/']) (h : r.step c = some next) :
    ∃ context, next = before .operand context := by
  have hop : c ∈ operators := by
    simp only [operators, List.mem_cons] at hc ⊢
    tauto
  cases r with
  | before slot context =>
    simp only [List.mem_cons, List.not_mem_nil, or_false] at hc
    rcases hc with rfl | rfl | rfl
    · cases slot with
      | opening => exact ⟨context, (Option.some.inj h).symm⟩
      | operand | negated => cases h
    · cases h
    · cases h
  | after e context => exact exists_of_stepAfter hop h
  | inside n negated context =>
    have hsymbol := mem_symbols_of_mem_operators hop
    have hpoint : c ≠ '.' := by
      rintro rfl
      simp at hc
    rw [step, extend_eq_none (isDigit_eq_false_of_mem_symbols c hsymbol) hpoint] at h
    obtain ⟨d, -, hafter⟩ := Option.bind_eq_some_iff.mp h
    exact exists_of_stepAfter hop hafter

/-- So it does not take the operator twice in a row. -/
theorem run_double_eq_none (hc : c ∈ ['+', '*', '/']) : r.run [c, c] = none := by
  rw [run]
  cases h : r.step c with
  | none => rfl
  | some next =>
    obtain ⟨context, rfl⟩ := exists_eq_before_operand hc h
    rw [Option.bind_some, run_singleton]
    simp only [List.mem_cons, List.not_mem_nil, or_false] at hc
    rcases hc with rfl | rfl | rfl <;> rfl

end Expr.Reading

namespace Grammar.Layered

variable {cs : List Char} {d : Expr Decimal}

theorem not_double {c : Char} (h : Layered .text cs d) (hc : c ∈ ['+', '*', '/']) :
    ¬ [c, c] <:+: cs := by
  rintro ⟨front, rest, rfl⟩
  obtain ⟨last, hrun, -⟩ := finish_eq_ok_iff.mp (read_eq_ok_iff.mpr h)
  obtain ⟨mid, hmid, -⟩ := exists_of_run_append hrun
  obtain ⟨r, -, hdouble⟩ := exists_of_run_append hmid
  rw [run_double_eq_none hc] at hdouble
  cases hdouble

/-! ## What a displayed expression is free of -/

theorem not_displayed_double {op : Char} (h : Layered .text (respell cs) d)
    (hop : op ∈ ['+', '×', '÷']) : ¬ [op, op] <:+: cs := by
  intro hinfix
  have hspelt : respell [op, op] <:+: respell cs := hinfix.flatMap evaluatorSpelling
  simp only [List.mem_cons, List.not_mem_nil, or_false] at hop
  rcases hop with rfl | rfl | rfl
  · exact h.not_double (c := '+') (by decide) hspelt
  · exact h.not_double (c := '*') (by decide) hspelt
  · exact h.not_double (c := '/') (by decide) hspelt

/-- Of the displayed operators only the minus sign may stand next to itself. -/
theorem undoubled (h : Layered .text (respell cs) d) (hminus : ¬ ['-', '-'] <:+: cs) :
    Undoubled cs := by
  rw [undoubled_iff]
  intro op hop
  rcases isDisplayOperator_iff.mp hop with rfl | rfl | rfl | rfl
  · exact h.not_displayed_double (by decide)
  · exact hminus
  · exact h.not_displayed_double (by decide)
  · exact h.not_displayed_double (by decide)

theorem filled (h : Layered .text (respell cs) d) : Filled cs := by
  rw [filled_iff]
  rintro ⟨front, rest, rfl⟩
  have hflaw : Flaw.emptyGroup.In (respell front ++ '(' :: [] ++ ')' :: respell rest) :=
    .emptyGroup fun c hc => by cases hc
  refine not_layered_of_flaw hflaw (by simp) d ?_
  rw [respell_append, respell_append] at h
  simpa [respell, evaluatorSpelling] using h

/-- There is no operator in front of nothing but white space. -/
theorem not_trailing {front white : List Char} {op : Char} (hop : isDisplayOperator op = true)
    (hwhite : White white) (d : Expr Decimal) :
    ¬ Layered .text (respell (front ++ op :: white)) d := by
  obtain ⟨c, hc, hspelt⟩ := exists_operator_spelling hop
  rw [respell_append, respell_cons, hspelt, respell_of_white hwhite, List.singleton_append]
  exact not_layered_of_flaw (.trailingOperator hc hwhite) (by simp) d

theorem count_eq (h : Layered .text (respell cs) d) : cs.count '(' = cs.count ')' := by
  rw [← count_open_respell, ← count_close_respell]
  exact h.balanced.count_eq

end Grammar.Layered

/-! ## Displayed expressions that can be parsed -/

theorem Expr.parse_toEvaluator_eq_ok_iff {expression : String} {t : Expr Binary64} :
    Expr.parse (toEvaluator expression) = .ok t ↔
      ∃ d, Layered .text (respell expression.toList) d ∧
        NestsWithin maxNesting (respell expression.toList) ∧ d.map Binary64.ofDecimal = t := by
  simp only [parse_eq_ok_iff, toList_toEvaluator, parseDecimal_eq_ok_iff, and_assoc]

end Reckoner
