/-
# Reckoner.Proofs.Calculator — what a calculation displays can be entered again.

A result is displayed as a numeral that the evaluator reads as it stands. So entering it is a
calculation too, and by the theory of rounding its result is the text that was entered. The same holds
of the tax figure, which is written with the same places.
-/
import Reckoner.Calculator
import Reckoner.Proofs.Display
import Reckoner.Proofs.Walk
import Reckoner.Proofs.Number.Fixed

namespace Reckoner

attribute [local instance] corePow

open Grammar

/-! ## A written number is an expression -/

/-- A character that is none of a numeral's and no minus sign is not in a written number. -/
theorem not_mem_decimalText {c : Char} (hdigit : c.isDigit = false) (hpoint : c ≠ '.')
    (hminus : c ≠ '-') (negative : Bool) (places n : Nat) : c ∉ decimalText negative places n := by
  obtain ⟨d, _, hliteral, _, _⟩ := exists_literal_decimalText places n
  rw [decimalText_eq_sign_append, List.mem_append]
  rintro (hc | hc)
  · split at hc
    · exact hminus (List.mem_singleton.mp hc)
    · cases hc
  · exact hliteral.not_mem hdigit hpoint hc

theorem toEvaluator_decimalText (negative : Bool) (places n : Nat) :
    toEvaluator (.ofList (decimalText negative places n)) =
      .ofList (decimalText negative places n) := by
  rw [toEvaluator, String.toList_ofList]
  refine congrArg String.ofList (respell_eq_self fun c hc => ?_)
  have hne {x : Char} (hdigit : x.isDigit = false) (hpoint : x ≠ '.') (hminus : x ≠ '-') :
      c ≠ x := by
    rintro rfl
    exact not_mem_decimalText hdigit hpoint hminus negative places n hc
  apply evaluatorSpelling_eq_self
  · exact hne rfl (by decide) (by decide)
  · exact hne rfl (by decide) (by decide)
  · exact hne rfl (by decide) (by decide)

theorem Grammar.Layered.of_literal {cs : List Char} {d : Decimal} (h : Literal cs d)
    (negative : Bool) :
    Layered .text ((if negative then ['-'] else []) ++ cs) (Expr.negateIf negative (.literal d)) := by
  have hfactor : Layered .factor ((if negative then ['-'] else []) ++ cs)
      (Expr.negateIf negative (.literal d)) := by
    cases negative with
    | false => exact .unsigned (.literal h)
    | true => exact .minus blank_nil (.literal h)
  exact hfactor.sum_of_factor.text_of_sum

theorem Expr.parseDecimal_decimalText (negative : Bool) (places n : Nat) :
    ∃ d k, Expr.parseDecimal (decimalText negative places n) =
        .ok (Expr.negateIf (negative && n != 0) (.literal d)) ∧
      d.scale + k = places ∧ d.digits * 10 ^ k = n := by
  obtain ⟨d, k, hliteral, hscale, hdigits⟩ := exists_literal_decimalText places n
  have hlayered := Layered.of_literal hliteral (negative && n != 0)
  rw [← decimalText_eq_sign_append] at hlayered
  have hfree : '(' ∉ decimalText negative places n :=
    not_mem_decimalText rfl (by decide) (by decide) negative places n
  exact ⟨d, k, parseDecimal_eq_ok_iff.mpr ⟨hlayered, nestsWithin_of_free hfree _⟩, hscale, hdigits⟩

/-! ## Its value is written the same -/

theorem evaluate_eq_ok_iff {text : String} {v : Binary64} :
    evaluate text = .ok v ↔ ∃ e, Expr.parse text = .ok e ∧ e.eval = some v ∧ v.isFinite = true := by
  rw [evaluate]
  cases Expr.parse text with
  | error failure =>
    constructor
    · intro h
      cases h
    · rintro ⟨e, he, -⟩
      cases he
  | ok e =>
    show Expr.evaluate e = _ ↔ _
    rw [Expr.evaluate_eq_ok_iff]
    constructor
    · intro h
      exact ⟨e, rfl, h⟩
    · rintro ⟨e', he, h⟩
      obtain rfl := Except.ok.inj he
      exact h

theorem evaluate_ofList {cs : List Char} {negative : Bool} {d : Decimal} {n : Nat}
    {h : Representable n}
    (hparse : Expr.parseDecimal cs = .ok (Expr.negateIf negative (.literal d)))
    (hd : Binary64.ofDecimal d = .finite false n h) :
    evaluate (.ofList cs) = .ok (.finite negative n h) := by
  refine evaluate_eq_ok_iff.mpr ⟨_, Expr.parse_ofList_eq_ok_iff.mpr ⟨_, hparse, rfl⟩, ?_, rfl⟩
  cases negative with
  | false =>
    show some (Binary64.ofDecimal d) = _
    rw [hd]
  | true =>
    show some (Binary64.ofDecimal d).neg = _
    rw [hd, Binary64.neg, Bool.not_false]

/-- A written number is read. A sign is written in front of a nonzero numeral only, so it need not be the
number's own. -/
theorem evaluate_fixed (negative : Bool) {n : Nat} (h : Representable n) (places : Nat) :
    ∃ h', evaluate ((Binary64.finite negative n h).fixed places) = .ok (.finite
      (negative && roundDiv (n * 10 ^ min places exactPlaces) unitsPerOne != 0)
      (reread n (min places exactPlaces)) h') := by
  obtain ⟨d, k, hparse, hscale, hdigits⟩ := Expr.parseDecimal_decimalText negative
    (min places exactPlaces) (roundDiv (n * 10 ^ min places exactPlaces) unitsPerOne)
  obtain ⟨h', hd⟩ := Binary64.ofDecimal_reread h hscale hdigits
  exact ⟨h', evaluate_ofList hparse hd⟩

/-- A finite number that has been written is read as a finite number that is written the same. -/
theorem exists_evaluateDisplay_fixed {x : Binary64} (hx : x.isFinite = true) (places : Nat) :
    ∃ y, evaluateDisplay (x.fixed places) = .ok y ∧ y.fixed places = x.fixed places := by
  cases x with
  | nan => cases hx
  | infinite _ => cases hx
  | finite negative n h =>
    obtain ⟨h', heval⟩ := evaluate_fixed negative h places
    rw [Binary64.fixed, ← toEvaluator_decimalText] at heval
    refine ⟨_, heval, ?_⟩
    show String.ofList (decimalText _ _ _) = .ofList (decimalText _ _ _)
    rw [roundDiv_reread h, decimalText_eq_sign_append, decimalText_eq_sign_append negative,
      Bool.and_assoc, Bool.and_self]

/-! ## Calculations -/

theorem isFinite_of_evaluateDisplay {e : String} {v : Binary64} (h : evaluateDisplay e = .ok v) :
    v.isFinite = true := by
  obtain ⟨_, _, _, hv⟩ := evaluate_eq_ok_iff.mp h
  exact hv

/-- A displayed expression has a value where it can be parsed and its value is finite. -/
theorem evaluateDisplay_eq_ok_iff {e : String} {v : Binary64} :
    evaluateDisplay e = .ok v ↔
      ∃ d, Layered .text (respell e.toList) d ∧ NestsWithin maxNesting (respell e.toList) ∧
        (d.map Binary64.ofDecimal).eval = some v ∧ v.isFinite = true := by
  rw [evaluateDisplay, evaluate_eq_ok_iff]
  constructor
  · rintro ⟨t, ht, hv⟩
    obtain ⟨d, hd, hnests, rfl⟩ := Expr.parse_toEvaluator_eq_ok_iff.mp ht
    exact ⟨d, hd, hnests, hv⟩
  · rintro ⟨d, hd, hnests, hv⟩
    exact ⟨_, Expr.parse_toEvaluator_eq_ok_iff.mpr ⟨d, hd, hnests, rfl⟩, hv⟩

/-- What is no text of the grammar has no value. -/
theorem exists_error_of_not_layered {e : String}
    (h : ∀ d, ¬ Layered .text (respell e.toList) d) : ∃ error, evaluateDisplay e = .error error := by
  cases hv : evaluateDisplay e with
  | error failure => exact ⟨failure, rfl⟩
  | ok v =>
    obtain ⟨d, hd, -⟩ := evaluateDisplay_eq_ok_iff.mp hv
    exact absurd hd (h d)

namespace Config

variable {config : Config}

theorem taxFigure_eq_ok (h : config.maxFractionDigits ≤ maxPlaces) (v : Binary64) :
    config.taxFigure v = .ok (((config.tax.apply v).filter Binary64.isFinite).map fun taxed =>
      ⟨taxed, taxed.fixed config.maxFractionDigits, config.tax.mode, config.tax.effectiveRate,
        config.tax.label⟩) := by
  rw [taxFigure]
  cases (config.tax.apply v).filter Binary64.isFinite with
  | none => rfl
  | some taxed =>
    show (taxed.format config.maxFractionDigits).bind _ = _
    rw [taxed.format_eq_ok h]
    rfl

theorem calculate_eq_ok (h : config.maxFractionDigits ≤ maxPlaces) {e : String} {v : Binary64}
    (hv : evaluateDisplay e = .ok v) :
    ∃ tax, config.taxFigure v = .ok tax ∧
      config.calculate e = .ok (.success e v (v.fixed config.maxFractionDigits) tax) := by
  refine ⟨_, taxFigure_eq_ok h v, ?_⟩
  rw [calculate, hv]
  show (v.format config.maxFractionDigits).bind _ = _
  rw [v.format_eq_ok h]
  show (config.taxFigure v).bind _ = _
  rw [taxFigure_eq_ok h]
  rfl

/-- A success shows the value of what was entered. -/
theorem evaluateDisplay_of_calculate {e shown result : String} {v : Binary64}
    {tax : Option TaxFigure} (h : config.maxFractionDigits ≤ maxPlaces)
    (hc : config.calculate e = .ok (.success shown v result tax)) :
    evaluateDisplay e = .ok v ∧ result = v.fixed config.maxFractionDigits ∧
      config.taxFigure v = .ok tax := by
  cases hv : evaluateDisplay e with
  | error failure =>
    rw [calculate, hv] at hc
    cases hc
  | ok w =>
    obtain ⟨tax', htax, hw⟩ := calculate_eq_ok h hv
    rw [hw] at hc
    cases hc
    exact ⟨rfl, rfl, htax⟩

/-- A displayed number of a finite value calculates to itself. -/
theorem calculate_fixed (h : config.maxFractionDigits ≤ maxPlaces) {x : Binary64}
    (hx : x.isFinite = true) :
    ∃ v tax, config.calculate (x.fixed config.maxFractionDigits) =
      .ok (.success (x.fixed config.maxFractionDigits) v (x.fixed config.maxFractionDigits) tax) := by
  obtain ⟨v, hv, hsame⟩ := exists_evaluateDisplay_fixed hx config.maxFractionDigits
  obtain ⟨tax, -, hc⟩ := calculate_eq_ok h hv
  rw [hsame] at hc
  exact ⟨v, tax, hc⟩

/-- **`calculate_displayed`** — the value and the tax figure of a success are finite, and what it
displays can be entered again: the result calculates to itself, and so does the written tax figure. -/
theorem calculate_displayed {e shown result : String} {v : Binary64} {tax : Option TaxFigure}
    (h : config.maxFractionDigits ≤ 65535)
    (hc : config.calculate e = .ok (.success shown v result tax)) :
    v.isFinite = true ∧
      (∃ v' tax', config.calculate result = .ok (.success result v' result tax')) ∧
      ∀ figure, tax = some figure → figure.value.isFinite = true ∧
        ∃ v' tax', config.calculate figure.formatted =
          .ok (.success figure.formatted v' figure.formatted tax') := by
  -- both texts are the written form of a finite number
  obtain ⟨hv, rfl, htax⟩ := evaluateDisplay_of_calculate h hc
  have hfinite := isFinite_of_evaluateDisplay hv
  refine ⟨hfinite, calculate_fixed h hfinite, ?_⟩
  rintro figure rfl
  rw [taxFigure_eq_ok h] at htax
  obtain ⟨taxed, hfilter, rfl⟩ := Option.map_eq_some_iff.mp (Except.ok.inj htax)
  obtain ⟨-, htaxed⟩ := Option.filter_eq_some_iff.mp hfilter
  exact ⟨htaxed, calculate_fixed h htaxed⟩

theorem eq_ok_of_toOption_eq_some {ε α : Type} {x : Except ε α} {a : α}
    (h : x.toOption = some a) : x = .ok a := by
  cases x with
  | error _ => cases h
  | ok b => rw [Option.some.inj h]

/-- Neither the binary64 sum of one and two tenths nor its tax figure is a decimal of two places. -/
theorem calculate_displayed_of_tenths :
    ∃ (config : Config) (v : Binary64) (figure : TaxFigure), config.maxFractionDigits ≤ 65535 ∧
      config.calculate "0.1+0.2" = .ok (.success "0.1+0.2" v "0.3" (some figure)) ∧
      v.isFinite = true ∧
      (∃ v' tax', config.calculate "0.3" = .ok (.success "0.3" v' "0.3" tax')) ∧
      figure.formatted = "0.35" ∧ figure.value.isFinite = true ∧
      ∃ v' tax', config.calculate "0.35" = .ok (.success "0.35" v' "0.35" tax') := by
  let config : Config := ⟨2, true, 5000, ⟨true, .add15, .nan⟩⟩
  let figure : TaxFigure :=
    ⟨.ofBits 0x3FD6147AE147AE15, "0.35", .add15, .ofNat 15, "Total with tax"⟩
  have hsome : (config.calculate "0.1+0.2").toOption =
      some (.success "0.1+0.2" (.ofBits 0x3FD3333333333334) "0.3" (some figure)) := by
    decide +kernel
  have hc := eq_ok_of_toOption_eq_some hsome
  obtain ⟨hv, hresult, htax⟩ := calculate_displayed (by decide) hc
  obtain ⟨hfigure, hformatted⟩ := htax figure rfl
  exact ⟨config, _, figure, by decide, hc, hv, hresult, rfl, hfigure, hformatted⟩

end Config

end Reckoner
