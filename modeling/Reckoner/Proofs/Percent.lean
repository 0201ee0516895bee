/-
# Reckoner.Proofs.Percent — what a percent sign divides by.

A percent sign is respelt `/100` right where it stands, before the text is cut into numerals. So the
numeral behind the division sign need not end with the hundred: digits and a point that stand behind the
percent sign go on with it, and `50%5` is 50 divided by 1005. `percentNumerals` tells what numerals come
of this, and each of them is a divisor in the expression that is read (`parse_percent`). It is one hundred
where neither a digit nor a point follows the sign.

What is shown by induction is more general: every numeral that stands right behind a `/` in a text of the
grammar is a divisor in its expression. A numeral goes on until a character comes that no numeral has, so
what follows a part of the text must be known too.
-/
import Mathlib.Data.List.Forall2
import Reckoner.Proofs.Display

namespace Reckoner

open Grammar List

/-! ## Lists that correspond to a part of another one -/

section Correspondence

variable {α β : Type} {R : α → β → Prop} {as bs : List α} {ds es : List β}

theorem sublistForall₂_append (h : SublistForall₂ R as ds) (h' : SublistForall₂ R bs es) :
    SublistForall₂ R (as ++ bs) (ds ++ es) := by
  obtain ⟨ds', hds, hsub⟩ := sublistForall₂_iff.mp h
  obtain ⟨es', hes, hsub'⟩ := sublistForall₂_iff.mp h'
  exact sublistForall₂_iff.mpr ⟨ds' ++ es', rel_append hds hes, hsub.append hsub'⟩

theorem sublistForall₂_of_sublist (hsub : as <+ bs) (h : SublistForall₂ R bs ds) :
    SublistForall₂ R as ds := by
  induction h generalizing as with
  | nil =>
    rw [sublist_nil.mp hsub]
    exact .nil
  | cons hR _ ih =>
    rcases sublist_cons_iff.mp hsub with htail | ⟨as', rfl, htail⟩
    · exact .cons_right (ih htail)
    · exact .cons hR (ih htail)
  | cons_right _ ih => exact .cons_right (ih hsub)

/-- What corresponds to one thing only is no less frequent. -/
theorem count_le_of_sublistForall₂ [BEq α] [LawfulBEq α] [BEq β] [LawfulBEq β] {a : α} {d : β}
    (hR : ∀ x, R a x → x = d) (h : SublistForall₂ R as ds) : as.count a ≤ ds.count d := by
  induction h with
  | nil => exact Nat.zero_le _
  | @cons a' d' _ _ hhead _ ih =>
    rw [count_cons, count_cons]
    by_cases ha : a' = a
    · subst ha
      rw [hR d' hhead, beq_self_eq_true, beq_self_eq_true]
      exact Nat.add_le_add_right ih 1
    · rw [if_neg (by simpa using ha)]
      exact Nat.le_add_right_of_le ih
  | cons_right _ ih => exact Nat.le_trans ih (count_le_count_cons)

end Correspondence

/-! ## Divisors -/

namespace Expr

variable {α β : Type}

/-- **`divisor op right`** — the literal that is divided by when `op` is applied, if it is one. -/
def divisor : Op → Expr α → List α
  | .div, literal d => [d]
  | _, _ => []

/-- **`e.divisors`** — the literals that something is divided by in `e`, in the order of the text. -/
def divisors : Expr α → List α
  | literal _ => []
  | neg e => e.divisors
  | binary op l r => l.divisors ++ divisor op r ++ r.divisors

theorem divisor_map (f : α → β) (op : Op) (e : Expr α) :
    divisor op (e.map f) = (divisor op e).map f := by
  cases op <;> cases e <;> rfl

theorem divisors_map (f : α → β) (e : Expr α) : (e.map f).divisors = e.divisors.map f := by
  induction e with
  | literal v => rfl
  | neg e ih => exact ih
  | binary op l r ihl ihr =>
    rw [map, divisors, divisors, ihl, ihr, divisor_map, map_append, map_append]

end Expr

/-! ## Numerals behind a division sign -/

/-- **`inNumeral c`** — a digit or a point. -/
def inNumeral (c : Char) : Bool := c.isDigit || c == '.'

/-- **`divisorNumerals rest cs`** — the numerals that stand right behind a `/` of `cs`, in a text that goes
on with `rest`. -/
def divisorNumerals (rest : List Char) : List Char → List (List Char)
  | [] => []
  | c :: cs =>
    if c = '/' ∧ (cs ++ rest).takeWhile inNumeral ≠ [] then
      (cs ++ rest).takeWhile inNumeral :: divisorNumerals rest cs
    else divisorNumerals rest cs

variable {rest cs ds : List Char} {c : Char} {d : Expr Decimal}

theorem divisorNumerals_append (rest as bs : List Char) :
    divisorNumerals rest (as ++ bs) = divisorNumerals (bs ++ rest) as ++ divisorNumerals rest bs := by
  induction as with
  | nil => rfl
  | cons a as ih =>
    rw [cons_append, divisorNumerals, divisorNumerals, ih, append_assoc]
    split <;> rfl

theorem divisorNumerals_cons_of_ne (hc : c ≠ '/') :
    divisorNumerals rest (c :: cs) = divisorNumerals rest cs := by
  rw [divisorNumerals, if_neg fun h => hc h.1]

theorem divisorNumerals_of_not_mem (h : '/' ∉ cs) : divisorNumerals rest cs = [] := by
  induction cs with
  | nil => rfl
  | cons c cs ih =>
    rw [mem_cons, not_or] at h
    rw [divisorNumerals_cons_of_ne (Ne.symm h.1), ih h.2]

theorem takeWhile_inNumeral_eq_nil (hc : inNumeral c = false) :
    (c :: cs).takeWhile inNumeral = [] :=
  takeWhile_cons_of_neg (by rw [hc]; decide)

theorem inNumeral_of_isBlank (hc : isBlank c = true) : inNumeral c = false := by
  rw [inNumeral, isDigit_eq_false_of_isBlank hc, Bool.false_or, beq_eq_false_iff_ne]
  exact ne_point_of_isBlank hc

/-- Blanks end a numeral just as well. -/
theorem takeWhile_blank_append {b : List Char} (hb : Blank b)
    (hcs : cs.takeWhile inNumeral = []) : (b ++ cs).takeWhile inNumeral = [] := by
  cases b with
  | nil => exact hcs
  | cons c b => exact takeWhile_inNumeral_eq_nil (inNumeral_of_isBlank (blank_cons.mp hb).1)

theorem Grammar.Literal.forall_inNumeral {n : Decimal} (h : Literal cs n) :
    ∀ c ∈ cs, inNumeral c = true := by
  intro c hc
  rw [inNumeral, Bool.or_eq_true, beq_iff_eq]
  exact h.digit_or_point c hc

theorem Grammar.Literal.takeWhile_append {n : Decimal} (h : Literal cs n)
    (hrest : rest.takeWhile inNumeral = []) : (cs ++ rest).takeWhile inNumeral = cs := by
  rw [takeWhile_append_of_pos h.forall_inNumeral, hrest, append_nil]

theorem slash_not_mem_of_blank {b : List Char} (hb : Blank b) : '/' ∉ b :=
  fun hmem => absurd (hb '/' hmem) (by decide)

theorem Grammar.Opening.slash_not_mem (h : Opening cs) : '/' ∉ cs := by
  cases h with
  | blank ha => exact slash_not_mem_of_blank ha
  | plus ha hb =>
    rw [mem_append, mem_cons, not_or, not_or]
    exact ⟨slash_not_mem_of_blank ha, by decide, slash_not_mem_of_blank hb⟩

namespace Grammar.Layered

/-- What a factor begins with is the whole of it, as a literal, or no numeral. -/
theorem literal_or_takeWhile (h : Layered .factor cs d) (hrest : rest.takeWhile inNumeral = []) :
    (∃ n, d = .literal n ∧ Literal cs n ∧ (cs ++ rest).takeWhile inNumeral = cs) ∨
      (cs ++ rest).takeWhile inNumeral = [] := by
  cases h with
  | minus _ _ => exact .inr (takeWhile_inNumeral_eq_nil rfl)
  | unsigned h =>
    cases h with
    | literal h => exact .inl ⟨_, rfl, h, h.takeWhile_append hrest⟩
    | group _ => exact .inr (takeWhile_inNumeral_eq_nil rfl)

/-- The numeral right behind a tight operator, if it is one of division, is the divisor. -/
theorem divisor_of_sign {op : Op} {b : List Char} (h : Layered .factor ds d) (hb : Blank b)
    (hrest : rest.takeWhile inNumeral = []) :
    SublistForall₂ Literal (divisorNumerals (b ++ ds ++ rest) [op.sign]) (Expr.divisor op d) := by
  have hnone (hnil : (b ++ ds ++ rest).takeWhile inNumeral = []) :
      SublistForall₂ Literal (divisorNumerals (b ++ ds ++ rest) [op.sign]) (Expr.divisor op d) := by
    rw [divisorNumerals, nil_append, if_neg fun h => h.2 hnil]
    exact .nil
  rw [append_assoc] at hnone ⊢
  rcases h.literal_or_takeWhile hrest with ⟨n, rfl, hn, htake⟩ | hnil
  · cases b with
    | cons c b => exact hnone (takeWhile_inNumeral_eq_nil (inNumeral_of_isBlank (blank_cons.mp hb).1))
    | nil =>
      cases op with
      | add | sub | mul => exact .nil
      | div =>
        have hne : ds ≠ [] := by
          obtain ⟨c, hmem, -⟩ := hn.exists_not_white
          exact ne_nil_of_mem hmem
        rw [divisorNumerals, nil_append, nil_append, htake, if_pos ⟨rfl, hne⟩]
        exact .cons hn .nil
  · exact hnone (takeWhile_blank_append hb hnil)

theorem inNumeral_sign (op : Op) : inNumeral op.sign = false := by cases op <;> rfl

/-- An operator puts the divisors of its operands side by side. -/
theorem sublistForall₂_binary {a b : List Char} {op : Op} {l r : Expr Decimal} (ha : Blank a)
    (hb : Blank b)
    (hl : ∀ {rest : List Char}, rest.takeWhile inNumeral = [] →
      SublistForall₂ Literal (divisorNumerals rest cs) l.divisors)
    (hop : SublistForall₂ Literal (divisorNumerals (b ++ ds ++ rest) [op.sign]) (Expr.divisor op r))
    (hr : SublistForall₂ Literal (divisorNumerals rest ds) r.divisors) :
    SublistForall₂ Literal (divisorNumerals rest (cs ++ a ++ op.sign :: b ++ ds))
      (Expr.binary op l r).divisors := by
  have hsplit : cs ++ a ++ op.sign :: b ++ ds = cs ++ (a ++ ([op.sign] ++ (b ++ ds))) := by simp
  have hsign : ((a ++ ([op.sign] ++ (b ++ ds))) ++ rest).takeWhile inNumeral = [] := by
    rw [append_assoc]
    exact takeWhile_blank_append ha (takeWhile_inNumeral_eq_nil (inNumeral_sign op))
  rw [hsplit, divisorNumerals_append, divisorNumerals_append, divisorNumerals_append,
    divisorNumerals_append, divisorNumerals_of_not_mem (slash_not_mem_of_blank ha),
    divisorNumerals_of_not_mem (slash_not_mem_of_blank hb), nil_append, nil_append, Expr.divisors,
    append_assoc l.divisors]
  exact sublistForall₂_append (hl hsign) (sublistForall₂_append hop hr)

/-- Every numeral right behind a division sign is a divisor. -/
theorem sublistForall₂_divisors {level : Level} (h : Layered level cs d)
    (hrest : rest.takeWhile inNumeral = []) :
    SublistForall₂ Literal (divisorNumerals rest cs) d.divisors := by
  -- each part of the text is followed by another rest
  induction h generalizing rest with
  | literal h =>
    rw [divisorNumerals_of_not_mem (h.not_mem rfl (by decide))]
    exact .nil
  | group _ ih =>
    rw [cons_append, divisorNumerals_cons_of_ne (by decide), divisorNumerals_append,
      divisorNumerals_of_not_mem (show '/' ∉ [')'] by decide), append_nil]
    exact ih (takeWhile_inNumeral_eq_nil rfl)
  | unsigned _ ih | factor _ ih | term _ ih => exact ih hrest
  | minus hb _ ih =>
    rw [cons_append, divisorNumerals_cons_of_ne (by decide), divisorNumerals_append,
      divisorNumerals_of_not_mem (slash_not_mem_of_blank hb)]
    exact ih hrest
  | product _ _ ha hb hr ihl ihr =>
    exact sublistForall₂_binary ha hb ihl (hr.divisor_of_sign hb hrest) (ihr hrest)
  | @sum _ _ _ _ _ _ op hop _ ha hb _ ihl ihr =>
    have hslash : '/' ∉ [op.sign] := by rcases hop with rfl | rfl <;> decide
    refine sublistForall₂_binary ha hb ihl ?_ (ihr hrest)
    rw [divisorNumerals_of_not_mem hslash]
    exact .nil
  | text ho _ hb ih =>
    rw [divisorNumerals_append, divisorNumerals_append,
      divisorNumerals_of_not_mem (slash_not_mem_of_blank hb),
      divisorNumerals_of_not_mem ho.slash_not_mem, nil_append, append_nil]
    exact ih (takeWhile_blank_append hb hrest)

end Grammar.Layered

/-! ## Percent signs -/

/-- **`percentNumerals cs`** — the numerals that the percent signs of a displayed text come to: one
hundred, and behind it the digits and points that stand behind the sign. -/
def percentNumerals : List Char → List (List Char)
  | [] => []
  | c :: cs =>
    if c = '%' then (['1', '0', '0'] ++ cs.takeWhile inNumeral) :: percentNumerals cs
    else percentNumerals cs

theorem length_percentNumerals (cs : List Char) : (percentNumerals cs).length = cs.count '%' := by
  induction cs with
  | nil => rfl
  | cons c cs ih =>
    rw [percentNumerals]
    split
    · rename_i hc
      rw [hc, length_cons, ih, count_cons_self]
    · rename_i hc
      rw [ih, count_cons_of_ne hc]

theorem exists_of_mem_percentNumerals {n : List Char} (h : n ∈ percentNumerals cs) :
    ∃ front rest, cs = front ++ '%' :: rest ∧ n = ['1', '0', '0'] ++ rest.takeWhile inNumeral := by
  induction cs with
  | nil => cases h
  | cons c cs ih =>
    have htail (hmem : n ∈ percentNumerals cs) : ∃ front rest, c :: cs = front ++ '%' :: rest ∧
        n = ['1', '0', '0'] ++ rest.takeWhile inNumeral := by
      obtain ⟨front, rest, rfl, hn⟩ := ih hmem
      exact ⟨c :: front, rest, rfl, hn⟩
    rw [percentNumerals] at h
    split at h
    · rename_i hc
      rcases mem_cons.mp h with rfl | hmem
      · exact ⟨[], cs, by rw [hc, nil_append], rfl⟩
      · exact htail hmem
    · exact htail h

/-- Respelling keeps the numerals. -/
theorem takeWhile_respell (cs : List Char) :
    (respell cs).takeWhile inNumeral = cs.takeWhile inNumeral := by
  induction cs with
  | nil => rfl
  | cons c cs ih =>
    rw [respell_cons]
    by_cases hc : inNumeral c = true
    · have hself : evaluatorSpelling c = [c] := by
        apply evaluatorSpelling_eq_self <;> (rintro rfl; cases hc)
      rw [hself, singleton_append, takeWhile_cons_of_pos hc, takeWhile_cons_of_pos hc, ih]
    · rw [takeWhile_cons_of_neg hc, evaluatorSpelling]
      repeat' split
      · rfl
      · rfl
      · rfl
      · exact takeWhile_cons_of_neg hc

theorem percentNumerals_sublist (cs : List Char) :
    percentNumerals cs <+ divisorNumerals [] (respell cs) := by
  induction cs with
  | nil => exact Sublist.refl []
  | cons c cs ih =>
    rw [percentNumerals, respell_cons, divisorNumerals_append]
    split
    · rename_i hc
      have hdigits : ∀ c ∈ ['1', '0', '0'], inNumeral c = true := by simp [inNumeral]
      have hbehind : (['1', '0', '0'] ++ respell cs).takeWhile inNumeral =
          ['1', '0', '0'] ++ cs.takeWhile inNumeral := by
        rw [takeWhile_append_of_pos hdigits, takeWhile_respell]
      have hpercent : divisorNumerals (respell cs) ['/', '1', '0', '0'] =
          [['1', '0', '0'] ++ cs.takeWhile inNumeral] := by
        rw [divisorNumerals, hbehind, if_pos ⟨rfl, by simp⟩,
          divisorNumerals_of_not_mem (by decide)]
      rw [hc, append_nil]
      show _ <+ divisorNumerals (respell cs) ['/', '1', '0', '0'] ++ _
      rw [hpercent, singleton_append]
      exact ih.cons_cons _
    · exact ih.trans (sublist_append_right _ _)

theorem Grammar.Literal.eq_hundred {n : Decimal} (h : Literal ['1', '0', '0'] n) :
    n = ⟨100, 0⟩ := by
  generalize hcs : ['1', '0', '0'] = cs at h
  cases h with
  | whole _ _ =>
    subst hcs
    rfl
  | @pointed ds fs _ _ _ =>
    have hpoint : '.' ∈ ['1', '0', '0'] := by simp [hcs]
    exact absurd hpoint (by decide)
  | fraction _ _ => cases hcs

theorem ofDecimal_hundred : Binary64.ofDecimal ⟨100, 0⟩ = .ofNat 100 := by decide +kernel

/-- A percent sign with neither a digit nor a point behind it comes to one hundred. -/
theorem percentNumerals_eq_hundred
    (hfree : ∀ c, inNumeral c = true → ¬ ['%', c] <:+: cs) :
    ∀ n ∈ percentNumerals cs, ['1', '0', '0'] = n := by
  intro n hn
  obtain ⟨front, rest, rfl, rfl⟩ := exists_of_mem_percentNumerals hn
  cases rest with
  | nil => rfl
  | cons c rest =>
    have hc : inNumeral c = false := by
      rw [Bool.eq_false_iff]
      intro hc
      exact hfree c hc ⟨front, rest, by simp⟩
    rw [takeWhile_inNumeral_eq_nil hc, append_nil]

/-- **`parse_percent`** — each percent sign of a displayed expression that can be parsed comes to a
division by a literal, which is the numeral of one hundred with the digits and points that stand behind
the sign. So there is a division by one hundred for each sign with none of these behind it. -/
theorem Expr.parse_percent {e : String} {t : Expr Binary64}
    (h : Expr.parse (toEvaluator e) = .ok t) :
    SublistForall₂ (fun cs v => ∃ n, Literal cs n ∧ Binary64.ofDecimal n = v)
        (percentNumerals e.toList) t.divisors ∧
      (percentNumerals e.toList).length = e.toList.count '%' ∧
      (percentNumerals e.toList).count ['1', '0', '0'] ≤ t.divisors.count (.ofNat 100) ∧
      ((∀ c, c.isDigit = true ∨ c = '.' → ¬ ['%', c] <:+: e.toList) →
        e.toList.count '%' ≤ t.divisors.count (.ofNat 100)) := by
  obtain ⟨d, hd, -, rfl⟩ := parse_toEvaluator_eq_ok_iff.mp h
  have hbehind : SublistForall₂ Literal (divisorNumerals [] (respell e.toList)) d.divisors :=
    hd.sublistForall₂_divisors rfl
  have hread := sublistForall₂_of_sublist (percentNumerals_sublist e.toList) hbehind
  have hdivisors : SublistForall₂ (fun cs v => ∃ n, Literal cs n ∧ Binary64.ofDecimal n = v)
      (percentNumerals e.toList) (d.map Binary64.ofDecimal).divisors := by
    rw [divisors_map, sublistForall₂_map_right_iff]
    obtain ⟨ns, hns, hsub⟩ := sublistForall₂_iff.mp hread
    exact sublistForall₂_iff.mpr ⟨ns, hns.imp fun _ n hn => ⟨n, hn, rfl⟩, hsub⟩
  have hcount : (percentNumerals e.toList).count ['1', '0', '0'] ≤
      (d.map Binary64.ofDecimal).divisors.count (.ofNat 100) := by
    refine count_le_of_sublistForall₂ ?_ hdivisors
    rintro v ⟨n, hn, rfl⟩
    rw [hn.eq_hundred, ofDecimal_hundred]
  refine ⟨hdivisors, length_percentNumerals _, hcount, fun hfree => ?_⟩
  have hhundred : ∀ n ∈ percentNumerals e.toList, ['1', '0', '0'] = n := by
    refine percentNumerals_eq_hundred fun c hc => hfree c ?_
    rwa [inNumeral, Bool.or_eq_true, beq_iff_eq] at hc
  rw [← length_percentNumerals, ← count_eq_length.mpr hhundred]
  exact hcount

/-- The first percent sign of `5%0+200%` goes on with a zero and comes to a thousand, the second one to
a hundred; and the one of `20%×3` comes to a hundred. -/
theorem Expr.parse_percent_of_thousand :
    (∃ t, Expr.parse (toEvaluator "5%0+200%") = .ok t ∧
      percentNumerals "5%0+200%".toList = ["1000".toList, "100".toList] ∧
      t.divisors = [.ofNat 1000, .ofNat 100] ∧ 1 ≤ t.divisors.count (.ofNat 100)) ∧
    (∀ c, c.isDigit = true ∨ c = '.' → ¬ ['%', c] <:+: "20%×3".toList) ∧
    ∃ t, Expr.parse (toEvaluator "20%×3") = .ok t ∧ 1 ≤ t.divisors.count (.ofNat 100) := by
  have hthousand : Expr.parse (toEvaluator "5%0+200%") =
      .ok (.binary .add (.binary .div (.literal (.ofNat 5)) (.literal (.ofNat 1000)))
        (.binary .div (.literal (.ofNat 200)) (.literal (.ofNat 100)))) := by decide +kernel
  have hhundred : ∃ t, Expr.parse (toEvaluator "20%×3") = .ok t := ⟨_, rfl⟩
  have hfree : ∀ c, c.isDigit = true ∨ c = '.' → ¬ ['%', c] <:+: "20%×3".toList := by
    intro c hc hinfix
    rw [show "20%×3".toList = ['2', '0', '%', '×', '3'] from rfl] at hinfix
    have heq : c = '×' := by simpa [infix_cons_iff] using hinfix
    rw [heq] at hc
    revert hc
    decide
  obtain ⟨t, ht⟩ := hhundred
  obtain ⟨-, -, hcount, -⟩ := parse_percent hthousand
  obtain ⟨-, -, -, hall⟩ := parse_percent ht
  exact ⟨⟨_, hthousand, rfl, rfl, hcount⟩, hfree, t, ht, hall hfree⟩

/-- In `50%5` there is a percent sign, and nothing is divided by one hundred. -/
theorem Expr.parse_percent_followed_by_digit :
    ∃ t, Expr.parse (toEvaluator "50%5") = .ok t ∧
      t = .binary .div (.literal (.ofNat 50)) (.literal (.ofNat 1005)) ∧
      ¬ "50%5".toList.count '%' ≤ t.divisors.count (.ofNat 100) := by
  have h : Expr.parse (toEvaluator "50%5") =
      .ok (.binary .div (.literal (.ofNat 50)) (.literal (.ofNat 1005))) := by decide +kernel
  exact ⟨_, h, rfl, by decide +kernel⟩

end Reckoner
