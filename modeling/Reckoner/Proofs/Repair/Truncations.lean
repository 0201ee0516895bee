/-
# Reckoner.Proofs.Repair.Truncations — an expression that was cut off is completed.

An expression is cut behind a digit, a percent sign or a closing parenthesis. What is in front of the cut
ends in an operand, so it lacks nothing but a `)` for each group that is still open, and with these it
can be parsed (`exists_layered_closed`). No other slip is in it: the parts of a valid expression have no
more doubled operators and empty groups than the whole, and it does not end in an operator.

With an operator typed behind the cut there are two slips, and two repairs in a row. The first one drops
the operator, and white space in front of the text along with it; the second one closes what is open.
-/
import Reckoner.Proofs.Fault
import Reckoner.Proofs.Repair.Slips

namespace Reckoner

open Reckoner.Expr Grammar Reading

variable {front rest cs : List Char} {last op : Char} {d : Expr Decimal}

/-- **`EndsOperand c`** — behind this character an operand may end, a point apart. -/
def EndsOperand (c : Char) : Prop := c.isDigit = true ∨ c = '%' ∨ c = ')'

theorem EndsOperand.not_white (h : EndsOperand last) : isWhite last = false := by
  rcases h with hdigit | rfl | rfl
  · exact isWhite_eq_false_of_isDigit hdigit
  · rfl
  · rfl

theorem EndsOperand.not_operator (h : EndsOperand last) : isDisplayOperator last = false := by
  rcases h with hdigit | rfl | rfl
  · rw [Bool.eq_false_iff]
    intro hop
    rcases isDisplayOperator_iff.mp hop with rfl | rfl | rfl | rfl <;> cases hdigit
  · rfl
  · rfl

theorem EndsOperand.not_open (h : EndsOperand last) : last ≠ '(' := by
  rcases h with hdigit | rfl | rfl
  · rintro rfl
    cases hdigit
  · decide
  · decide

/-! ## What is in front of the cut can be closed -/

/-- Behind a digit or a closing parenthesis an operand is held. -/
theorem Expr.Reading.Move.exists_holds {r next : Reading} {c : Char} (h : Move r c next)
    (hc : c.isDigit = true ∨ c = ')') : ∃ e, Holds next e next.context := by
  have hnone : isBlank c = false ∧ c ∉ '(' :: operators := by
    rcases hc with hdigit | rfl
    · refine ⟨isBlank_eq_false_of_isDigit hdigit, fun hmem => ?_⟩
      simp only [operators, List.mem_cons, List.not_mem_nil, or_false] at hmem
      rcases hmem with rfl | rfl | rfl | rfl | rfl <;> cases hdigit
    · decide
  cases next with
  | after e context => exact ⟨e, .after e context⟩
  | before slot context =>
    -- such a character does not lead in front of an operand
    rcases h.of_awaits rfl with hmem | ⟨hblank, -⟩
    · exact absurd hmem hnone.2
    · rw [hnone.1] at hblank
      cases hblank
  | inside n negated context =>
    cases n with
    | whole _ => exact ⟨_, .inside negated context rfl⟩
    | fraction _ _ => exact ⟨_, .inside negated context rfl⟩
    | point =>
      obtain ⟨rfl, -⟩ := h.of_point
      rcases hc with hdigit | heq
      · cases hdigit
      · cases heq

/-- The respelt text in front of the cut ends in a digit or in a closing parenthesis. -/
theorem EndsOperand.exists_respell (h : EndsOperand last) :
    ∃ before c, (c.isDigit = true ∨ c = ')') ∧ evaluatorSpelling last = before ++ [c] := by
  rcases h with hdigit | rfl | rfl
  · exact ⟨[], last, .inl hdigit, evaluatorSpelling_of_isDigit hdigit⟩
  · exact ⟨['/', '1', '0'], '0', .inl rfl, rfl⟩
  · exact ⟨[], ')', .inr rfl, rfl⟩

/-- **`closed cs`** — the text with a `)` for each parenthesis that is open in it. -/
def closed (cs : List Char) : List Char := cs ++ List.replicate (cs.count '(' - cs.count ')') ')'

/-- The machine holds an operand when it has come to the cut. -/
theorem exists_holds_at_cut (h : Layered .text (respell (front ++ last :: rest)) d)
    (hlast : EndsOperand last) :
    ∃ r e, start.run (respell (front ++ [last])) = some r ∧ Holds r e r.context := by
  obtain ⟨before, c, hc, hspelt⟩ := hlast.exists_respell
  have hcut : respell (front ++ [last]) = (respell front ++ before) ++ [c] := by
    rw [respell_append, respell_singleton, hspelt, List.append_assoc]
  have hsplit : respell (front ++ last :: rest) = respell (front ++ [last]) ++ respell rest := by
    rw [← respell_append, List.append_assoc, List.singleton_append]
  obtain ⟨final, hrun, -⟩ := finish_eq_ok_iff.mp (read_eq_ok_iff.mpr h)
  rw [hsplit] at hrun
  obtain ⟨r, hr, -⟩ := exists_of_run_append hrun
  rw [hcut] at hr
  obtain ⟨mid, -, hmove⟩ := exists_of_run_concat hr
  obtain ⟨e, hholds⟩ := hmove.exists_holds hc
  rw [← hcut] at hr
  exact ⟨r, e, hr, hholds⟩

/-- The part in front of the cut is an expression once it is closed. -/
theorem exists_layered_closed (h : Layered .text (respell (front ++ last :: rest)) d)
    (hlast : EndsOperand last) : ∃ d', Layered .text (respell (closed (front ++ [last]))) d' := by
  obtain ⟨r, e, hr, hholds⟩ := exists_holds_at_cut h hlast
  obtain ⟨final, e', hclose, hresult⟩ := Holds.exists_closed hholds
  -- as many parentheses are missing as groups are open
  have hmissing : (front ++ [last]).count '(' - (front ++ [last]).count ')' = r.depth := by
    have hdepth := depth_of_run hr
    have hstart : start.depth = 0 := rfl
    rw [count_open_respell, count_close_respell] at hdepth
    omega
  refine ⟨e', read_eq_ok_iff.mp (finish_eq_ok_iff.mpr ⟨final, ?_, hresult⟩)⟩
  rw [closed, respell_append, respell_replicate_close, hmissing, run_append hr]
  exact hclose

/-! ## White space in front -/

theorem run_start_blank {b : List Char} (hb : Blank b) : start.run b = some start :=
  run_before_blank hb .opening Context.outermost

/-- White space in front of an expression is blank, and it may be left out. -/
theorem Grammar.Layered.of_white_append {white : List Char} (h : Layered .text (white ++ cs) d)
    (hwhite : White white) : Blank white ∧ Layered .text cs d := by
  obtain ⟨final, hrun, hresult⟩ := finish_eq_ok_iff.mp (read_eq_ok_iff.mpr h)
  obtain ⟨mid, hmid, -⟩ := exists_of_run_append hrun
  have hblank := blank_of_white_of_run hwhite hmid
  rw [run_append (run_start_blank hblank)] at hrun
  exact ⟨hblank, read_eq_ok_iff.mp (finish_eq_ok_iff.mpr ⟨final, hrun, hresult⟩)⟩

theorem nestsWithin_of_blank_append {b : List Char} {n : Nat} (h : NestsWithin n (b ++ cs))
    (hb : Blank b) : NestsWithin n cs :=
  ((nestsWithin_append_iff (balanced_of_blank hb)).mp h).2

/-- What is behind the white space is closed by the same parentheses. -/
theorem respell_closed (cs : List Char) :
    respell (closed cs) = cs.takeWhile isWhite ++ respell (closed (cs.dropWhile isWhite)) := by
  have hsplit : cs.takeWhile isWhite ++ cs.dropWhile isWhite = cs := List.takeWhile_append_dropWhile
  have hclosed : closed cs = cs.takeWhile isWhite ++ closed (cs.dropWhile isWhite) := by
    rw [closed, closed, count_dropWhile_white rfl, count_dropWhile_white rfl, ← List.append_assoc,
      hsplit]
  rw [hclosed, respell_append, respell_of_white (white_takeWhile cs)]

/-! ## Texts with nothing but open parentheses -/

/-- A text that ends with an operand's last character, or with a parenthesis, has no operator at its
end. -/
theorem spares_trailingOperator_concat {c : Char} (hwhite : isWhite c = false)
    (hc : isDisplayOperator c = false) (front : List Char) :
    Rule.trailingOperator.Spares (front ++ [c]) := by
  intro body op htrim hop
  rw [trim_concat hwhite] at htrim
  obtain ⟨-, heq⟩ := List.append_inj' htrim rfl
  rw [← List.singleton_inj.mp heq, hc] at hop
  cases hop

/-- **`Tidy cs`** — there is no slip in the text but parentheses that are left open. -/
structure Tidy (cs : List Char) : Prop where
  undoubled : Undoubled cs
  filled : Filled cs
  unended : Rule.trailingOperator.Spares cs

theorem Tidy.firstFix?_of_open (h : Tidy cs) (hopen : cs.count ')' < cs.count '(') :
    firstFix? cs = some (.unclosedParentheses, closed cs) := by
  have horder : Rule.order =
    [.duplicateOperator, .emptyParentheses, .trailingOperator] ++ .unclosedParentheses :: [] := rfl
  refine firstFix?_eq_some horder ?_ (Rule.fire?_of_open hopen)
  simp only [List.forall_mem_cons]
  exact ⟨h.undoubled, h.filled, h.unended, by simp⟩

/-! ## The part in front of a cut -/

/-- **`Cut cs`** — what is known of the part of a valid expression in front of the cut: it ends in an
operand, it has no slip but the parentheses that are open, and closing them makes it an expression. -/
structure Cut (cs : List Char) : Prop where
  ends : ∃ front last, cs = front ++ [last] ∧ EndsOperand last
  undoubled : Undoubled cs
  filled : Filled cs
  nests : NestsWithin maxNesting (respell cs)
  layered : ∃ d, Layered .text (respell (closed cs)) d

theorem cut_of_layered (h : Layered .text (respell (front ++ last :: rest)) d)
    (hnests : NestsWithin maxNesting (respell (front ++ last :: rest)))
    (hminus : ¬ ['-', '-'] <:+: front ++ last :: rest) (hlast : EndsOperand last) :
    Cut (front ++ [last]) := by
  have hcut : front ++ [last] <+: front ++ last :: rest := ⟨rest, by simp⟩
  exact ⟨⟨front, last, rfl, hlast⟩, List.IsChain.prefix (h.undoubled hminus) hcut,
    List.IsChain.prefix h.filled hcut, hnests.of_prefix (hcut.flatMap evaluatorSpelling),
    exists_layered_closed h hlast⟩

namespace Cut

variable (h : Cut cs)

include h

theorem ne_nil : cs ≠ [] := by
  obtain ⟨front, last, rfl, -⟩ := h.ends
  simp

theorem closed_le : cs.count ')' ≤ cs.count '(' := by
  obtain ⟨d, hd⟩ := h.layered
  have hcount := hd.count_eq
  rw [closed, List.count_append, List.count_append, List.count_replicate_self, List.count_replicate,
    if_neg (by decide)] at hcount
  omega

theorem dropWhile_append (rest : List Char) :
    (cs ++ rest).dropWhile isWhite = cs.dropWhile isWhite ++ rest := by
  obtain ⟨front, last, rfl, hlast⟩ := h.ends
  rw [List.dropWhile_append, if_neg]
  rw [dropWhile_concat hlast.not_white]
  simp

theorem closed_dropWhile : closed (cs.dropWhile isWhite) = (closed cs).dropWhile isWhite := by
  rw [closed, closed, h.dropWhile_append, count_dropWhile_white rfl, count_dropWhile_white rfl]

/-- White space in front may be left out. -/
theorem dropWhile : Cut (cs.dropWhile isWhite) := by
  have hsplit : cs.takeWhile isWhite ++ cs.dropWhile isWhite = cs := List.takeWhile_append_dropWhile
  have hsuffix : cs.dropWhile isWhite <:+ cs := List.dropWhile_suffix isWhite
  have hwhite := white_takeWhile cs
  obtain ⟨d, hd⟩ := h.layered
  rw [respell_closed] at hd
  obtain ⟨hblank, hlayered⟩ := hd.of_white_append hwhite
  have hnests := h.nests
  rw [← hsplit, respell_append, respell_of_white hwhite] at hnests
  obtain ⟨front, last, hcs, hlast⟩ := h.ends
  refine ⟨⟨front.dropWhile isWhite, last, ?_, hlast⟩, List.IsChain.suffix h.undoubled hsuffix,
    List.IsChain.suffix h.filled hsuffix, nestsWithin_of_blank_append hnests hblank, d, hlayered⟩
  rw [hcs, dropWhile_concat hlast.not_white]

theorem ends_of_mem_getLast? {c : Char} (hc : c ∈ cs.getLast?) : EndsOperand c := by
  obtain ⟨front, last, rfl, hlast⟩ := h.ends
  rw [List.getLast?_concat] at hc
  rwa [← Option.some.inj hc]

/-! ### The repairs -/

theorem undoubled_concat (op : Char) : Undoubled (cs ++ [op]) := by
  refine List.isChain_append.mpr ⟨h.undoubled, List.isChain_singleton op, ?_⟩
  intro c hc _ _ hsign
  rw [(h.ends_of_mem_getLast? hc).not_operator] at hsign
  cases hsign

theorem filled_concat (op : Char) : Filled (cs ++ [op]) := by
  refine List.isChain_append.mpr ⟨h.filled, List.isChain_singleton op, ?_⟩
  intro c hc _ _ hparen
  exact absurd hparen (h.ends_of_mem_getLast? hc).not_open

theorem tidy : Tidy cs := by
  refine ⟨h.undoubled, h.filled, ?_⟩
  obtain ⟨front, last, rfl, hlast⟩ := h.ends
  exact spares_trailingOperator_concat hlast.not_white hlast.not_operator front

theorem firstFix?_of_open (hopen : cs.count ')' < cs.count '(') :
    firstFix? cs = some (.unclosedParentheses, closed cs) := h.tidy.firstFix?_of_open hopen

theorem firstFix?_concat (hop : isDisplayOperator op = true) :
    firstFix? (cs ++ [op]) = some (.trailingOperator, cs.dropWhile isWhite) := by
  have hwhite : isWhite op = false := by
    rcases isDisplayOperator_iff.mp hop with rfl | rfl | rfl | rfl <;> rfl
  have hfire : Rule.trailingOperator.fire? (cs ++ [op]) = some (cs.dropWhile isWhite) := by
    refine Rule.fire?_eq_some_iff.mpr ⟨?_, h.dropWhile.ne_nil, ?_⟩
    · simp only [Rule.rewrite?]
      rw [trim_concat hwhite, List.getLast?_concat, Option.any_some, if_pos hop, List.dropLast_concat]
    · intro heq
      have hlen := (List.dropWhile_suffix (l := cs) isWhite).length_le
      rw [heq, List.length_append, List.length_singleton] at hlen
      omega
  have horder : Rule.order =
    [.duplicateOperator, .emptyParentheses] ++ .trailingOperator :: [.unclosedParentheses] := rfl
  refine firstFix?_eq_some horder ?_ hfire
  simp only [List.forall_mem_cons]
  exact ⟨h.undoubled_concat op, h.filled_concat op, by simp⟩

end Cut

/-! ## The calculations -/

variable {p : String} {v : Binary64} {config : Config}

theorem closed_eq_self (h : cs.count '(' = cs.count ')') : closed cs = cs := by
  rw [closed, h, Nat.sub_self, List.replicate_zero, List.append_nil]

theorem evaluateDisplay_closed_dropWhile (hv : evaluateDisplay (.ofList (closed cs)) = .ok v) :
    evaluateDisplay (.ofList (closed (cs.dropWhile isWhite))) = .ok v := by
  obtain ⟨d, hd, hnests, hvalue⟩ := evaluateDisplay_eq_ok_iff.mp hv
  rw [String.toList_ofList, respell_closed] at hd hnests
  obtain ⟨hblank, hlayered⟩ := hd.of_white_append (white_takeWhile cs)
  refine evaluateDisplay_eq_ok_iff.mpr ⟨d, ?_, ?_, hvalue⟩
  · rwa [String.toList_ofList]
  · rw [String.toList_ofList]
    exact nestsWithin_of_blank_append hnests hblank

theorem evaluateDisplay_of_open (hopen : cs.count ')' < cs.count '(') :
    evaluateDisplay (.ofList cs) = .error .unbalancedParentheses := by
  have hmem : '(' ∈ respell cs := by
    rw [← List.count_pos_iff, count_open_respell]
    omega
  have hbalanced : ¬ Balanced (respell cs) := by
    intro hbalanced
    have hcount := hbalanced.count_eq
    rw [count_open_respell, count_close_respell] at hcount
    omega
  have hparse : parse (toEvaluator (.ofList cs)) = .error .unbalancedParentheses := by
    rw [parse_eq_error_iff, toList_toEvaluator, String.toList_ofList]
    exact parseDecimal_of_unbalanced (fun hwhite => not_mem_of_white hwhite rfl hmem) hbalanced
  rw [evaluateDisplay, evaluate, hparse]
  rfl

namespace Cut

/-- What is closed can be parsed. -/
theorem exists_parse (h : Cut cs) : ∃ t, parse (toEvaluator (.ofList (closed cs))) = .ok t := by
  obtain ⟨d, hd⟩ := h.layered
  refine ⟨_, parse_toEvaluator_eq_ok_iff.mpr ⟨d, ?_, ?_, rfl⟩⟩
  · rwa [String.toList_ofList]
  · rw [String.toList_ofList, closed, respell_append, respell_replicate_close]
    refine h.nests.append_of_free fun hmem => ?_
    exact absurd (List.eq_of_mem_replicate hmem) (by decide)

theorem calculate_of_open (h : Cut p.toList) (hopen : p.toList.count ')' < p.toList.count '(')
    (hv : evaluateDisplay (.ofList (closed p.toList)) = .ok v) :
    ∃ highlight, config.calculate p = .ok (.failure p .unbalancedParentheses highlight
      (some ⟨.ofList (closed p.toList), Rule.unclosedParentheses.message⟩)) := by
  have herror := evaluateDisplay_of_open hopen
  rw [String.ofList_toList] at herror
  have hfix : evaluates (.ofList (closed p.toList)) = true := evaluates_iff.mpr ⟨v, hv⟩
  exact Config.exists_failure_of_localSuggestion herror
    (Config.localSuggestion_of_evaluates (h.firstFix?_of_open hopen) hfix)

/-- The operator is dropped first, and what is open is closed next. -/
theorem localSuggestion_push (h : Cut p.toList) (hvalidate : config.validateSuggestions = true)
    (hop : isDisplayOperator op = true)
    (hv : evaluateDisplay (.ofList (closed p.toList)) = .ok v) :
    config.localSuggestion (p.push op) =
      some ⟨.ofList ((closed p.toList).dropWhile isWhite), Rule.trailingOperator.message⟩ := by
  have hfirst := h.firstFix?_concat hop
  rw [← String.toList_push] at hfirst
  have hfix : evaluates (.ofList (closed (p.toList.dropWhile isWhite))) = true :=
    evaluates_iff.mpr ⟨v, evaluateDisplay_closed_dropWhile hv⟩
  rw [← h.closed_dropWhile]
  rcases Nat.eq_or_lt_of_le h.dropWhile.closed_le with hcount | hopen
  · rw [closed_eq_self hcount.symm] at hfix ⊢
    exact Config.localSuggestion_of_evaluates hfirst hfix
  · have hnone : evaluates (.ofList (p.toList.dropWhile isWhite)) = false := by
      rw [evaluates, evaluateDisplay_of_open hopen]
    exact Config.localSuggestion_of_second hvalidate hfirst hnone
      (h.dropWhile.firstFix?_of_open hopen) hfix

theorem calculate_push (h : Cut p.toList) (hvalidate : config.validateSuggestions = true)
    (hop : isDisplayOperator op = true)
    (hv : evaluateDisplay (.ofList (closed p.toList)) = .ok v) :
    ∃ error highlight, config.calculate (p.push op) = .ok (.failure (p.push op) error highlight
      (some ⟨.ofList ((closed p.toList).dropWhile isWhite), Rule.trailingOperator.message⟩)) := by
  obtain ⟨error, herror⟩ : ∃ error, evaluateDisplay (p.push op) = .error error := by
    apply exists_error_of_not_layered
    rw [String.toList_push]
    exact Layered.not_trailing hop white_nil
  exact ⟨error, Config.exists_failure_of_localSuggestion herror
    (h.localSuggestion_push hvalidate hop hv)⟩

end Cut

/-- **`calculate_truncation`** — an expression that was cut behind a digit, a percent sign or a closing
parenthesis is completed exactly: the parentheses that are open are closed, and with that it can be
parsed. If it has a value then, the cut expression is that of a success when nothing is open, and
otherwise the closed expression is suggested. It is suggested for the cut expression with an operator
behind it as well, without the white space in front. -/
theorem Config.calculate_truncation {rest : String} {t : Expr Binary64}
    (hplaces : config.maxFractionDigits ≤ 65535) (hvalidate : config.validateSuggestions = true)
    (hparse : parse (toEvaluator (p ++ rest)) = .ok t)
    (hminus : ¬ ['-', '-'] <:+: (p ++ rest).toList) (hlast : p.toList.getLast? = some last)
    (hends : last.isDigit = true ∨ last = '%' ∨ last = ')') :
    p.toList.count ')' ≤ p.toList.count '(' ∧
      (∃ u, parse (toEvaluator (.ofList (closed p.toList))) = .ok u) ∧
      ∀ v, evaluate (toEvaluator (.ofList (closed p.toList))) = .ok v →
        (p.toList.count '(' = p.toList.count ')' →
          ∃ result tax, config.calculate p = .ok (.success p v result tax)) ∧
        (p.toList.count ')' < p.toList.count '(' →
          ∃ highlight, config.calculate p = .ok (.failure p .unbalancedParentheses highlight
            (some ⟨.ofList (closed p.toList), Rule.unclosedParentheses.message⟩))) ∧
        ∀ op, isDisplayOperator op = true →
          ∃ error highlight, config.calculate (p.push op) =
            .ok (.failure (p.push op) error highlight
              (some ⟨.ofList ((closed p.toList).dropWhile isWhite),
                Rule.trailingOperator.message⟩)) := by
  obtain ⟨front, hfront⟩ := List.getLast?_eq_some_iff.mp hlast
  obtain ⟨d, hd, hnests, -⟩ := parse_toEvaluator_eq_ok_iff.mp hparse
  have hcut : Cut p.toList := by
    have hsplit : (p ++ rest).toList = front ++ last :: rest.toList := by simp [hfront]
    rw [hsplit] at hd hnests hminus
    rw [hfront]
    exact cut_of_layered hd hnests hminus hends
  refine ⟨hcut.closed_le, hcut.exists_parse, fun v hv => ⟨fun hcount => ?_, fun hopen => ?_, ?_⟩⟩
  · rw [closed_eq_self hcount, String.ofList_toList] at hv
    obtain ⟨tax, -, hc⟩ := calculate_eq_ok hplaces hv
    exact ⟨_, tax, hc⟩
  · exact hcut.calculate_of_open hopen hv
  · intro op hop
    exact hcut.calculate_push hvalidate hop hv

/-- Behind the percent sign one parenthesis is open, and in front of the text there is a blank. -/
theorem Config.calculate_truncation_of_percent :
    Config.default.maxFractionDigits ≤ 65535 ∧ Config.default.validateSuggestions = true ∧
      (∃ t, parse (toEvaluator (" 2×(3+50%" ++ ")-1")) = .ok t) ∧
      ¬ ['-', '-'] <:+: (" 2×(3+50%" ++ ")-1").toList ∧
      evaluate (toEvaluator (.ofList (closed " 2×(3+50%".toList))) = .ok (.ofNat 7) ∧
      (∃ highlight, Config.default.calculate " 2×(3+50%" =
        .ok (.failure " 2×(3+50%" .unbalancedParentheses highlight
          (some ⟨" 2×(3+50%)", Rule.unclosedParentheses.message⟩))) ∧
      ∃ error highlight, Config.default.calculate " 2×(3+50%÷" =
        .ok (.failure " 2×(3+50%÷" error highlight
          (some ⟨"2×(3+50%)", Rule.trailingOperator.message⟩)) := by
  have hplaces : Config.default.maxFractionDigits ≤ 65535 := by decide
  have hparse : ∃ t, parse (toEvaluator (" 2×(3+50%" ++ ")-1")) = .ok t := ⟨_, rfl⟩
  have hminus : ¬ ['-', '-'] <:+: (" 2×(3+50%" ++ ")-1").toList := by decide
  have hv : evaluate (toEvaluator (.ofList (closed " 2×(3+50%".toList))) = .ok (.ofNat 7) :=
    eq_ok_of_toOption_eq_some (by decide +kernel)
  obtain ⟨t, ht⟩ := hparse
  obtain ⟨-, -, hcut⟩ := calculate_truncation hplaces rfl ht hminus rfl (.inr (.inl rfl))
  obtain ⟨-, hopen, hpush⟩ := hcut _ hv
  exact ⟨hplaces, rfl, ⟨t, ht⟩, hminus, hv, hopen (by decide), hpush '÷' rfl⟩

end Reckoner
