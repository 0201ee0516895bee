/-
# Reckoner.Proofs.Highlight.ZeroDivisor — the divisor that is shown for a division by zero.

What is highlighted for a division by zero is looked for in the text: the first `÷0` that no point
follows. In an expression that is evaluated, a numeral begins with this `0`, and it is a divisor of the
expression. But the `0` need not be the whole numeral. In `8÷05÷0` the highlight points at the division
by 5, and the division by zero is the other one.

So what is said of the highlighted divisor is when it is zero. It is if no digit follows the `0`; in
general its value is zero just if the numeral is no more than half of the smallest binary64 number
(`isZero_ofDecimal_iff`). If it is not zero, another divisor is.
-/
import Reckoner.Proofs.Highlight.Unclosed
import Reckoner.Proofs.Percent
import Reckoner.Proofs.Repair.Slips
import Reckoner.Proofs.Value.Failing

namespace Reckoner

attribute [local instance] corePow

open Grammar

/-! ## Numerals that round to zero -/

section Zero

variable {num den : Nat}

theorem roundDiv_eq_zero_iff (hden : 0 < den) : roundDiv num den = 0 ↔ 2 * num ≤ den := by
  have hnearest := nearestEven_roundDiv hden num
  constructor
  · intro hzero
    have hle := hnearest.gap_le
    rw [hzero, gap] at hle
    omega
  · intro hle
    refine roundDiv_eq_of_nearestEven hden ⟨?_, fun _ => rfl⟩
    rw [gap]
    omega

/-- The grid is that of whole numbers where the quotient is small, and no coarser grid goes to zero. -/
theorem roundSignificand_eq_zero_iff (hden : 0 < den) :
    roundSignificand num den = 0 ↔ 2 * num ≤ den := by
  rw [roundSignificand, Nat.mul_eq_zero, or_iff_left (Nat.two_pow_pos _).ne',
    roundDiv_eq_zero_iff (Nat.mul_pos hden (Nat.two_pow_pos _))]
  by_cases hquotient : num / den = 0
  · rw [hquotient]
    simp [spacing]
  · have hlog : 2 ^ (num / den).log2 ≤ num / den := Nat.log2_self_le hquotient
    have hspacing : 2 ^ spacing (num / den) ≤ num / den :=
      Nat.le_trans (Nat.pow_le_pow_right Nat.two_pos (Nat.sub_le _ _)) hlog
    have hgrid : den * 2 ^ spacing (num / den) ≤ num :=
      Nat.le_trans (Nat.mul_le_mul_left den hspacing) (Nat.mul_div_le num den)
    have hwhole : den ≤ num := Nat.le_of_not_lt fun hlt => hquotient (Nat.div_eq_of_lt hlt)
    exact iff_of_false (by omega) (by omega)

/-- A numeral is read as zero just if it is no more than half of the smallest number. -/
theorem Binary64.isZero_ofDecimal_iff (d : Decimal) :
    (ofDecimal d).isZero = true ↔ 2 * (d.digits * unitsPerOne) ≤ 10 ^ d.scale := by
  rw [← roundSignificand_eq_zero_iff (Nat.pow_pos (by decide)), ofDecimal, ofRatio]
  split
  · exact beq_iff_eq
  · rename_i hbound
    refine iff_of_false Bool.false_ne_true fun hzero => hbound ?_
    rw [hzero]
    exact unitsBound_pos

end Zero

/-! ## The longest numeral at the front of a text -/

/-- **`LongestLiteral cs n d`** — of the numerals that `cs` begins with `n` is the longest, and it is
written for `d`. -/
structure LongestLiteral (cs n : List Char) (d : Decimal) : Prop where
  literal : Literal n d
  front : n <+: cs
  longest : ∀ n' d', Literal n' d' → n' <+: cs → n'.length ≤ n.length

variable {cs n rest : List Char} {d : Decimal}

/-- A numeral does not go beyond the characters that numerals consist of. -/
theorem Grammar.Literal.prefix_takeWhile (h : Literal n d) (hfront : n <+: cs) :
    n <+: cs.takeWhile inNumeral := by
  obtain ⟨rest, rfl⟩ := hfront
  rw [List.takeWhile_append_of_pos h.forall_inNumeral]
  exact List.prefix_append _ _

theorem LongestLiteral.of_takeWhile (h : Literal (cs.takeWhile inNumeral) d) :
    LongestLiteral cs (cs.takeWhile inNumeral) d where
  literal := h
  front := List.takeWhile_prefix _
  longest := fun _ _ hliteral hfront => (hliteral.prefix_takeWhile hfront).length_le

theorem LongestLiteral.unique {n' : List Char} {d' : Decimal} (h : LongestLiteral cs n d)
    (h' : LongestLiteral cs n' d') : n = n' ∧ d = d' := by
  have hlength : n.length = n'.length :=
    Nat.le_antisymm (h'.longest n d h.literal h.front) (h.longest n' d' h'.literal h'.front)
  obtain rfl : n = n' := (List.prefix_of_prefix_length_le h.front h'.front hlength.le).eq_of_length
    hlength
  exact ⟨rfl, h.literal.unique h'.literal⟩

theorem Grammar.Literal.eq_zero (h : Literal ['0'] d) : d = ⟨0, 0⟩ :=
  h.unique (.whole (List.cons_ne_nil _ _) (digits_singleton rfl))

theorem Binary64.isZero_ofDecimal_zero : (ofDecimal ⟨0, 0⟩).isZero = true := by
  rw [isZero_ofDecimal_iff]
  simp

/-! ## Numerals behind a division sign are divisors -/

theorem exists_of_mem_sublistForall₂ {α β : Type} {R : α → β → Prop} {as : List α} {bs : List β}
    {a : α} (h : List.SublistForall₂ R as bs) (ha : a ∈ as) : ∃ b ∈ bs, R a b := by
  induction h with
  | nil => cases ha
  | cons hR _ ih =>
    rcases List.mem_cons.mp ha with rfl | htail
    · exact ⟨_, List.mem_cons_self, hR⟩
    · obtain ⟨b, hb, hRb⟩ := ih htail
      exact ⟨b, List.mem_cons_of_mem _ hb, hRb⟩
  | cons_right _ ih =>
    obtain ⟨b, hb, hRb⟩ := ih ha
    exact ⟨b, List.mem_cons_of_mem _ hb, hRb⟩

theorem mem_divisorNumerals (front : List Char) (h : cs.takeWhile inNumeral ≠ []) :
    cs.takeWhile inNumeral ∈ divisorNumerals [] (front ++ '/' :: cs) := by
  rw [divisorNumerals_append, divisorNumerals, List.append_nil cs, if_pos ⟨rfl, h⟩]
  exact List.mem_append_right _ List.mem_cons_self

namespace Expr

variable {α : Type} {v : α}

theorem mem_divisor_iff {op : Op} {r : Expr α} :
    v ∈ divisor op r ↔ op = .div ∧ r = literal v := by
  cases op <;> cases r <;> simp [divisor, eq_comm]

/-- A divisor is the right operand of a division. -/
theorem exists_of_mem_divisors {e : Expr α} (h : v ∈ e.divisors) :
    ∃ l, binary .div l (literal v) ∈ e.parts := by
  induction e with
  | literal w => cases h
  | neg e ih =>
    obtain ⟨l, hl⟩ := ih h
    exact ⟨l, mem_parts_neg_iff.mpr (.inr hl)⟩
  | binary op l r ihl ihr =>
    rw [divisors, List.mem_append, List.mem_append] at h
    rcases h with (hleft | hhere) | hright
    · obtain ⟨l', hl'⟩ := ihl hleft
      exact ⟨l', mem_parts_binary_iff.mpr (.inr (.inl hl'))⟩
    · obtain ⟨rfl, rfl⟩ := mem_divisor_iff.mp hhere
      exact ⟨l, mem_parts_self _⟩
    · obtain ⟨l', hl'⟩ := ihr hright
      exact ⟨l', mem_parts_binary_iff.mpr (.inr (.inr hl'))⟩

/-- The characters that numerals consist of stand for a divisor where a division sign is in front of
them. -/
theorem exists_divisor_of_parse {e : String} {t : Expr Binary64} {front : List Char}
    (ht : Expr.parse (toEvaluator e) = .ok t) (he : e.toList = front ++ '÷' :: cs)
    (hcs : cs.takeWhile inNumeral ≠ []) :
    ∃ d, LongestLiteral cs (cs.takeWhile inNumeral) d ∧
      ∃ l, .binary .div l (.literal (.ofDecimal d)) ∈ t.parts := by
  obtain ⟨d, hd, -, rfl⟩ := parse_toEvaluator_eq_ok_iff.mp ht
  have hspelled : respell e.toList = respell front ++ '/' :: respell cs := by
    rw [he, respell_append, respell_cons]
    rfl
  have hend : ([] : List Char).takeWhile inNumeral = [] := rfl
  have hnumerals := hd.sublistForall₂_divisors hend
  have hmem : cs.takeWhile inNumeral ∈ divisorNumerals [] (respell e.toList) := by
    rw [hspelled, ← takeWhile_respell]
    rw [← takeWhile_respell] at hcs
    exact mem_divisorNumerals _ hcs
  obtain ⟨v, hv, hliteral⟩ := exists_of_mem_sublistForall₂ hnumerals hmem
  refine ⟨v, .of_takeWhile hliteral, exists_of_mem_divisors ?_⟩
  rw [divisors_map]
  exact List.mem_map_of_mem hv

end Expr

/-! ## The highlight -/

namespace Highlight

/-- For a division by zero nothing else is looked for. -/
theorem span?_divisionByZero (expression : String) :
    span? expression Failure.divisionByZero.message = zeroDivisor? expression.toList := by
  rw [span?_eq_of_subjects (u := false) (z := true) (v := false) expression (by decide) (by decide)
    (by decide)]
  cases zeroDivisor? expression.toList <;> rfl

/-- Where a pattern has been found, the text can be cut around it. -/
theorem split?_of_cutFirst {pattern before after : List Char} {admissible : List Char → Bool}
    (h : cutFirst pattern admissible cs = some (before, after)) :
    split? cs ⟨byteLength before, byteLength pattern⟩ =
      some ⟨.ofList before, .ofList pattern, .ofList after⟩ := by
  rw [(append_of_cutFirst_eq_some h).1]
  exact split?_append before pattern after

/-- A search for a pattern cuts the text at an admissible occurrence, and no earlier one is admissible. -/
theorem of_firstSpan? {pattern : List Char} {admissible : List Char → Bool} {highlight : Highlight}
    (h : (firstSpan? pattern admissible cs).bind (split? cs) = some highlight) :
    highlight.focus = .ofList pattern ∧
      cs = highlight.before.toList ++ pattern ++ highlight.after.toList ∧
      admissible highlight.after.toList = true ∧
      ∀ front back, cs = front ++ pattern ++ back → front.length < highlight.before.length →
        admissible back = false := by
  obtain ⟨span, hspan, hsplit⟩ := Option.bind_eq_some_iff.mp h
  obtain ⟨⟨before, after⟩, hcut, rfl⟩ := Option.map_eq_some_iff.mp hspan
  obtain rfl := Option.some.inj ((split?_of_cutFirst hcut).symm.trans hsplit)
  obtain ⟨hcs, hafter⟩ := append_of_cutFirst_eq_some hcut
  simp only [String.toList_ofList, String.length_ofList]
  exact ⟨trivial, hcs, hafter, fun front back => admissible_eq_false_of_cutFirst hcut⟩

theorem of_zeroDivisor? {highlight : Highlight}
    (h : (zeroDivisor? cs).bind (split? cs) = some highlight) :
    highlight.focus = "÷0" ∧
      cs = highlight.before.toList ++ '÷' :: '0' :: highlight.after.toList ∧
      highlight.after.toList.head? ≠ some '.' := by
  obtain ⟨hfocus, hcs, hafter, -⟩ := of_firstSpan? h
  rw [List.append_assoc] at hcs
  exact ⟨hfocus, hcs, bne_iff_ne.mp hafter⟩

end Highlight

/-- Where a division by zero is reported, some divisor has the value zero. -/
theorem exists_zero_divisor {text : String} {t : Expr Binary64}
    (h : evaluate text = .error .divisionByZero) (ht : Expr.parse text = .ok t) :
    ∃ l r y, .binary .div l r ∈ t.parts ∧ r.eval = some y ∧ y.isZero = true := by
  rw [evaluate, ht] at h
  exact Expr.evaluate_eq_divisionByZero_iff.mp h

namespace Config

variable {config : Config} {expression shown : String} {highlight : Highlight}
  {suggestion : Option Suggestion}

/-- **`calculate_highlights_divisor`** — where a division by zero comes with a highlight, this is a `÷0`
of the expression, and the longest numeral that begins with its `0` is a divisor. The value of this
divisor is zero if no digit follows the `0`, and in general just if the numeral is at most half of the
smallest binary64 number; otherwise another divisor is zero. -/
theorem calculate_highlights_divisor
    (h : config.calculate expression =
      .ok (.failure shown .divisionByZero (some highlight) suggestion)) :
    highlight.focus = "÷0" ∧
      expression.toList = highlight.before.toList ++ '÷' :: '0' :: highlight.after.toList ∧
      ∃ t n d, Expr.parse (toEvaluator expression) = .ok t ∧
        LongestLiteral ('0' :: highlight.after.toList) n d ∧
        (∃ l, .binary .div l (.literal (.ofDecimal d)) ∈ t.parts) ∧
        ((∀ c, highlight.after.toList.head? = some c → c.isDigit = false) →
          n = ['0'] ∧ (Binary64.ofDecimal d).isZero = true) ∧
        ((Binary64.ofDecimal d).isZero = true ↔ 2 * (d.digits * unitsPerOne) ≤ 10 ^ d.scale) ∧
        ((Binary64.ofDecimal d).isZero = false →
          ∃ l r y, .binary .div l r ∈ t.parts ∧ r.eval = some y ∧ y.isZero = true ∧
            r ≠ .literal (.ofDecimal d)) := by
  obtain ⟨herror, rfl, hlocate, -⟩ := failure_of_calculate h
  rw [Highlight.locate, Highlight.span?_divisionByZero] at hlocate
  obtain ⟨hfocus, hsplit, hpoint⟩ := Highlight.of_zeroDivisor? hlocate.symm
  obtain ⟨t, ht⟩ := exists_parse_of_error herror (.inl rfl)
  have hnumeral : ('0' :: highlight.after.toList).takeWhile inNumeral =
      '0' :: highlight.after.toList.takeWhile inNumeral := List.takeWhile_cons_of_pos rfl
  obtain ⟨d, hlongest, hpart⟩ :=
    Expr.exists_divisor_of_parse ht hsplit (by rw [hnumeral]; exact List.cons_ne_nil _ _)
  rw [hnumeral] at hlongest
  refine ⟨hfocus, hsplit, t, _, d, ht, hlongest, hpart, fun hdigit => ?_,
    Binary64.isZero_ofDecimal_iff d, fun hnonzero => ?_⟩
  · have hend : highlight.after.toList.takeWhile inNumeral = [] := by
      cases hafter : highlight.after.toList with
      | nil => rfl
      | cons c rest =>
        rw [hafter] at hdigit hpoint
        refine takeWhile_inNumeral_eq_nil ?_
        rw [inNumeral, hdigit c rfl, Bool.false_or, beq_eq_false_iff_ne]
        rintro rfl
        exact hpoint rfl
    rw [hend] at hlongest ⊢
    rw [hlongest.literal.eq_zero]
    exact ⟨rfl, Binary64.isZero_ofDecimal_zero⟩
  · obtain ⟨l, r, y, hdiv, hy, hzero⟩ := exists_zero_divisor herror ht
    refine ⟨l, r, y, hdiv, hy, hzero, ?_⟩
    rintro rfl
    obtain rfl := Option.some.inj hy
    rw [hzero] at hnonzero
    cases hnonzero

/-- The `÷0` of `÷0.5` is passed over, and the divisor that is shown is a zero. -/
theorem calculate_highlights_divisor_of_three :
    Config.default.calculate "8÷0.5+3÷0" =
        .ok (.failure "8÷0.5+3÷0" .divisionByZero (some ⟨"8÷0.5+3", "÷0", ""⟩) none) ∧
      ∃ t d, Expr.parse (toEvaluator "8÷0.5+3÷0") = .ok t ∧ LongestLiteral ['0'] ['0'] d ∧
        (∃ l, .binary .div l (.literal (.ofDecimal d)) ∈ t.parts) ∧
        (Binary64.ofDecimal d).isZero = true := by
  have hc : Config.default.calculate "8÷0.5+3÷0" =
      .ok (.failure "8÷0.5+3÷0" .divisionByZero (some ⟨"8÷0.5+3", "÷0", ""⟩) none) :=
    eq_ok_of_toOption_eq_some (by decide +kernel)
  obtain ⟨-, -, t, n, d, ht, hlongest, hpart, hzero, -⟩ := calculate_highlights_divisor hc
  obtain ⟨rfl, hd⟩ := hzero fun c hc => by cases hc
  exact ⟨hc, t, d, ht, hlongest, hpart, hd⟩

/-- In `8÷05÷0` the numeral behind the highlighted division sign is a five. -/
theorem calculate_highlights_five :
    Config.default.calculate "8÷05÷0" =
        .ok (.failure "8÷05÷0" .divisionByZero (some ⟨"8", "÷0", "5÷0"⟩) none) ∧
      ∀ n d, LongestLiteral ('0' :: "5÷0".toList) n d →
        n = ['0', '5'] ∧ Binary64.ofDecimal d = .ofNat 5 ∧ (Binary64.ofDecimal d).isZero = false := by
  refine ⟨eq_ok_of_toOption_eq_some (by decide +kernel), fun n d h => ?_⟩
  have hfive : Literal ['0', '5'] ⟨5, 0⟩ :=
    .whole (List.cons_ne_nil _ _) (digits_cons.mpr ⟨rfl, digits_singleton rfl⟩)
  have hlongest : LongestLiteral ('0' :: "5÷0".toList) ['0', '5'] ⟨5, 0⟩ := .of_takeWhile hfive
  obtain ⟨rfl, rfl⟩ := h.unique hlongest
  exact ⟨rfl, by decide +kernel, by decide +kernel⟩

end Config

end Reckoner
