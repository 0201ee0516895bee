/-
# Reckoner.Proofs.Respelling — the two spellings of an expression mean the same.

The evaluator is only ever given its own spelling, and respelling an expression for the display first
changes nothing of what it is given (`toEvaluator_toDisplay`). So an expression may be entered in either
spelling, or in a mixture of both: it has the same value, or none for the same reason, and a position in
that reason stays where it is, because it counts the characters that the evaluator reads.

Going to the evaluator's spelling and back is something else. It loses the operators that were spelled
for the evaluator to begin with, and every percent sign, and nothing besides.

What is highlighted in a failing expression, and which repair is suggested, does depend on the spelling:
both look at the displayed operators only. So nothing is claimed of these.
-/
import Reckoner.Proofs.Position

namespace Reckoner

variable {cs : List Char} {c : Char}

/-! ## Characters -/

theorem displaySpelling_eq_self (hmul : c ≠ '*') (hdiv : c ≠ '/') : displaySpelling c = c := by
  rw [displaySpelling, if_neg hmul, if_neg hdiv]

theorem evaluatorSpelling_displaySpelling (c : Char) :
    evaluatorSpelling (displaySpelling c) = evaluatorSpelling c := by
  by_cases hmul : c = '*'
  · subst hmul
    rfl
  by_cases hdiv : c = '/'
  · subst hdiv
    rfl
  · rw [displaySpelling_eq_self hmul hdiv]

/-- The operators of the evaluator's own are not displayed. -/
theorem displaySpelling_ne (c : Char) : displaySpelling c ≠ '*' ∧ displaySpelling c ≠ '/' := by
  by_cases hmul : c = '*'
  · subst hmul
    decide
  by_cases hdiv : c = '/'
  · subst hdiv
    decide
  · rw [displaySpelling_eq_self hmul hdiv]
    exact ⟨hmul, hdiv⟩

theorem displaySpelling_displaySpelling (c : Char) :
    displaySpelling (displaySpelling c) = displaySpelling c := by
  obtain ⟨hmul, hdiv⟩ := displaySpelling_ne c
  exact displaySpelling_eq_self hmul hdiv

/-- What the evaluator reads is in its spelling already. -/
theorem evaluatorSpelling_of_mem {d : Char} (h : d ∈ evaluatorSpelling c) :
    evaluatorSpelling d = [d] := by
  rw [evaluatorSpelling] at h
  split at h
  · rw [List.mem_singleton.mp h]
    rfl
  split at h
  · rw [List.mem_singleton.mp h]
    rfl
  split at h
  · simp only [List.mem_cons, List.not_mem_nil, or_false] at h
    rcases h with rfl | rfl | rfl | rfl <;> rfl
  · rename_i hmul hdiv hpercent
    rw [List.mem_singleton.mp h]
    exact evaluatorSpelling_eq_self hmul hdiv hpercent

theorem map_displaySpelling_evaluatorSpelling (hmul : c ≠ '*') (hdiv : c ≠ '/')
    (hpercent : c ≠ '%') : (evaluatorSpelling c).map displaySpelling = [c] := by
  by_cases htimes : c = '×'
  · subst htimes
    rfl
  by_cases hover : c = '÷'
  · subst hover
    rfl
  · rw [evaluatorSpelling_eq_self htimes hover hpercent, List.map_singleton,
      displaySpelling_eq_self hmul hdiv]

/-! ## Texts -/

theorem respell_map_displaySpelling (cs : List Char) :
    respell (cs.map displaySpelling) = respell cs := by
  rw [respell, List.flatMap_map]
  exact List.flatMap_congr fun c _ => evaluatorSpelling_displaySpelling c

theorem respell_respell (cs : List Char) : respell (respell cs) = respell cs := by
  refine respell_eq_self fun d hd => ?_
  obtain ⟨c, -, hc⟩ := List.mem_flatMap.mp hd
  exact evaluatorSpelling_of_mem hc

theorem map_displaySpelling_respell_of_free (hmul : '*' ∉ cs) (hdiv : '/' ∉ cs)
    (hpercent : '%' ∉ cs) : (respell cs).map displaySpelling = cs := by
  induction cs with
  | nil => rfl
  | cons c cs ih =>
    rw [List.mem_cons, not_or] at hmul hdiv hpercent
    rw [respell_cons, List.map_append, ih hmul.2 hdiv.2 hpercent.2,
      map_displaySpelling_evaluatorSpelling (Ne.symm hmul.1) (Ne.symm hdiv.1) (Ne.symm hpercent.1),
      List.singleton_append]

/-- Respelled and displayed again, a text is what it was just if none of the evaluator's operators and
no percent sign was in it. A percent sign shows in the length. -/
theorem map_displaySpelling_respell_eq_self_iff :
    (respell cs).map displaySpelling = cs ↔ '*' ∉ cs ∧ '/' ∉ cs ∧ '%' ∉ cs := by
  constructor
  · intro h
    have hdisplayed : ∀ c ∈ cs, c ≠ '*' ∧ c ≠ '/' := by
      intro c hc
      rw [← h] at hc
      obtain ⟨d, -, rfl⟩ := List.mem_map.mp hc
      exact displaySpelling_ne d
    have hlength := congrArg List.length h
    rw [List.length_map, length_respell] at hlength
    refine ⟨fun hc => (hdisplayed _ hc).1 rfl, fun hc => (hdisplayed _ hc).2 rfl, ?_⟩
    rw [← List.count_eq_zero]
    omega
  · rintro ⟨hmul, hdiv, hpercent⟩
    exact map_displaySpelling_respell_of_free hmul hdiv hpercent

theorem toList_toDisplay (text : String) : (toDisplay text).toList = text.toList.map displaySpelling :=
  String.toList_ofList

theorem toEvaluator_toDisplay (text : String) : toEvaluator (toDisplay text) = toEvaluator text := by
  rw [← String.toList_inj, toList_toEvaluator, toList_toEvaluator, toList_toDisplay,
    respell_map_displaySpelling]

theorem toEvaluator_toEvaluator (text : String) :
    toEvaluator (toEvaluator text) = toEvaluator text := by
  rw [← String.toList_inj, toList_toEvaluator, toList_toEvaluator, respell_respell]

theorem toDisplay_toDisplay (text : String) : toDisplay (toDisplay text) = toDisplay text := by
  rw [← String.toList_inj, toList_toDisplay, toList_toDisplay, List.map_map]
  exact List.map_congr_left fun c _ => displaySpelling_displaySpelling c

theorem toDisplay_toEvaluator_eq_self_iff (text : String) :
    toDisplay (toEvaluator text) = text ↔
      '*' ∉ text.toList ∧ '/' ∉ text.toList ∧ '%' ∉ text.toList := by
  rw [← String.toList_inj, toList_toDisplay, toList_toEvaluator,
    map_displaySpelling_respell_eq_self_iff]

/-! ## Calculations -/

/-- **`c.SameOutcome d`** — both calculations succeed with the same value, result and tax figure, or both
fail for the same reason. -/
inductive Calculation.SameOutcome : Calculation → Calculation → Prop
  | success {e e' result : String} {v : Binary64} {tax : Option TaxFigure} :
      SameOutcome (.success e v result tax) (.success e' v result tax)
  | failure {e e' : String} {error : Failure} {highlight highlight' : Option Highlight}
      {suggestion suggestion' : Option Suggestion} :
      SameOutcome (.failure e error highlight suggestion) (.failure e' error highlight' suggestion')

/-- An outcome depends on what the evaluator is given. -/
theorem Config.exists_sameOutcome {config : Config} {d e : String}
    (hplaces : config.maxFractionDigits ≤ maxPlaces) (h : toEvaluator d = toEvaluator e) :
    ∃ c c', config.calculate d = .ok c ∧ config.calculate e = .ok c' ∧ c.SameOutcome c' := by
  have heval : evaluateDisplay d = evaluateDisplay e := congrArg evaluate h
  cases hv : evaluateDisplay e with
  | error failure =>
    rw [hv] at heval
    exact ⟨_, _, calculate_of_error heval, calculate_of_error hv, .failure⟩
  | ok v =>
    rw [hv] at heval
    obtain ⟨tax, htax, hd⟩ := calculate_eq_ok hplaces heval
    obtain ⟨tax', htax', he⟩ := calculate_eq_ok hplaces hv
    obtain rfl := Except.ok.inj (htax.symm.trans htax')
    exact ⟨_, _, hd, he, .success⟩

/-- **`spellings_interchange`** — the evaluator reads the same in an expression and in its display. Both
ways of respelling change nothing when done again, and the way back from the evaluator's spelling leads to
the expression just if it has none of `*`, `/` and `%`. So an expression and its display are both calculated
with the same value, result and tax figure, or fail both for the same reason. -/
theorem spellings_interchange :
    (∀ text, toEvaluator (toDisplay text) = toEvaluator text) ∧
    (∀ text, toEvaluator (toEvaluator text) = toEvaluator text) ∧
    (∀ text, toDisplay (toDisplay text) = toDisplay text) ∧
    (∀ text, toDisplay (toEvaluator text) = text ↔
      '*' ∉ text.toList ∧ '/' ∉ text.toList ∧ '%' ∉ text.toList) ∧
    ∀ (config : Config) (e : String), config.maxFractionDigits ≤ 65535 →
      ∃ c c', config.calculate (toDisplay e) = .ok c ∧ config.calculate e = .ok c' ∧
        c.SameOutcome c' :=
  ⟨toEvaluator_toDisplay, toEvaluator_toEvaluator, toDisplay_toDisplay,
    toDisplay_toEvaluator_eq_self_iff, fun _ e hplaces =>
      Config.exists_sameOutcome hplaces (toEvaluator_toDisplay e)⟩

/-- The position in `2*3÷#` is that in its display, and the `*` of it does not come back from there. -/
theorem spellings_interchange_of_mixture :
    toDisplay (toEvaluator "2*3÷#") ≠ "2*3÷#" ∧
    (∃ c c', Config.default.calculate "2×3÷4" = .ok c ∧
      Config.default.calculate "2*3÷4" = .ok c' ∧ c.SameOutcome c' ∧ c.result? = some "1.5") ∧
    ∃ c c', Config.default.calculate "2×3÷#" = .ok c ∧
      Config.default.calculate "2*3÷#" = .ok c' ∧ c.SameOutcome c' ∧
      c.error? = some (.invalid (.unexpectedCharacter '#' 4)) := by
  obtain ⟨-, -, -, hback, hsame⟩ := spellings_interchange
  obtain ⟨c, c', hc, hc', hvalue⟩ := hsame Config.default "2*3÷4" (by decide)
  obtain ⟨d, d', hd, hd', herror⟩ := hsame Config.default "2*3÷#" (by decide)
  have hresult : ((Config.default.calculate "2×3÷4").toOption.bind Calculation.result?) =
      some "1.5" := by decide +kernel
  have hcause : ((Config.default.calculate "2×3÷#").toOption.bind Calculation.error?) =
      some (.invalid (.unexpectedCharacter '#' 4)) := by decide +kernel
  rw [show toDisplay "2*3÷4" = "2×3÷4" by decide] at hc
  rw [show toDisplay "2*3÷#" = "2×3÷#" by decide] at hd
  rw [hc] at hresult
  rw [hd] at hcause
  refine ⟨fun h => ((hback _).mp h).1 (by decide), ⟨c, c', hc, hc', hvalue, hresult⟩,
    d, d', hd, hd', herror, hcause⟩

end Reckoner
