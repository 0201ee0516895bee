/-
# Reckoner.Proofs.Parse — parsing accepts the grammar, within the bound on nesting.

The checks in front of the reading machine refuse no text of the grammar but those that nest too
deeply: a text of the grammar holds some numeral, so it is not all white space, and its parentheses are
balanced. What is left is the machine, which reads exactly the texts of the grammar. As it is a
function, a text is written for one expression at most.
-/
import Reckoner.Proofs.Reading.Derives
import Reckoner.Proofs.Parentheses

namespace Reckoner

/-! ## Texts of the grammar are not all white space -/

theorem isWhite_eq_false_of_isDigit {c : Char} (h : c.isDigit = true) : isWhite c = false := by
  have hrange : 48 ≤ c.toNat ∧ c.toNat ≤ 57 := by
    simp only [Char.isDigit, Bool.and_eq_true, decide_eq_true_eq] at h
    exact h
  simp only [isWhite, Bool.or_eq_false_iff, Bool.and_eq_false_iff, decide_eq_false_iff_not,
    beq_eq_false_iff_ne]
  omega

theorem exists_not_white_of_digits {ds : List Char} (hne : ds ≠ []) (h : Digits ds) :
    ∃ c ∈ ds, isWhite c = false :=
  ⟨ds.head hne, List.head_mem hne, isWhite_eq_false_of_isDigit (h _ (List.head_mem hne))⟩

namespace Grammar

theorem Literal.exists_not_white {cs : List Char} {d : Decimal} (h : Literal cs d) :
    ∃ c ∈ cs, isWhite c = false := by
  cases h with
  | whole hne hds => exact exists_not_white_of_digits hne hds
  | pointed hne hds _ =>
    obtain ⟨c, hc, hw⟩ := exists_not_white_of_digits hne hds
    exact ⟨c, List.mem_append_left _ hc, hw⟩
  | fraction _ _ => exact ⟨'.', List.mem_cons_self, rfl⟩

theorem Layered.exists_not_white {level : Level} {cs : List Char} {e : Expr Decimal}
    (h : Layered level cs e) : ∃ c ∈ cs, isWhite c = false := by
  induction h with
  | literal h => exact h.exists_not_white
  | group _ _ => exact ⟨'(', List.mem_cons_self, rfl⟩
  | unsigned _ ih | factor _ ih | term _ ih => exact ih
  | minus _ _ _ => exact ⟨'-', List.mem_cons_self, rfl⟩
  | product _ _ _ _ _ _ ih | sum _ _ _ _ _ _ ih =>
    obtain ⟨c, hc, hw⟩ := ih
    exact ⟨c, List.mem_append_right _ hc, hw⟩
  | text _ _ _ ih =>
    obtain ⟨c, hc, hw⟩ := ih
    exact ⟨c, List.mem_append_left _ (List.mem_append_right _ hc), hw⟩

/-- A text is written for one expression at most. -/
theorem Layered.unique {cs : List Char} {d e : Expr Decimal} (hd : Layered .text cs d)
    (he : Layered .text cs e) : d = e :=
  Except.ok.inj ((Expr.read_of_layered hd).symm.trans (Expr.read_of_layered he))

/-- A numeral is written for one number. -/
theorem Literal.unique {cs : List Char} {d d' : Decimal} (h : Literal cs d) (h' : Literal cs d') :
    d = d' := by
  have htext := (Layered.literal h).of_primary .text
  exact Expr.literal.inj (htext.unique ((Layered.literal h').of_primary .text))

end Grammar

namespace Expr

open Grammar

theorem read_eq_ok_iff {cs : List Char} {e : Expr Decimal} :
    read cs = .ok e ↔ Layered .text cs e :=
  ⟨layered_of_read, read_of_layered⟩

-- A plus sign, blanks and parentheses leave no trace, and the minus sign stays with its numeral.
example : read "+( -2 )*.5".toList =
    .ok (.binary .mul (.neg (.literal ⟨2, 0⟩)) (.literal ⟨5, 1⟩)) := rfl

/-- The exact expression is read where the grammar has one, unless its parentheses nest too deeply. -/
theorem parseDecimal_eq_ok_iff {cs : List Char} {e : Expr Decimal} :
    parseDecimal cs = .ok e ↔ Layered .text cs e ∧ NestsWithin maxNesting cs := by
  rw [parseDecimal]
  split
  · rename_i hwhite
    constructor
    · intro h
      cases h
    · -- a text of the grammar is not all white space
      rintro ⟨h, -⟩
      obtain ⟨c, hc, hw⟩ := h.exists_not_white
      rw [List.all_eq_true.mp hwhite c hc] at hw
      cases hw
  cases hnest : nesting? cs with
  | none =>
    constructor
    · intro h
      cases h
    · -- and its parentheses are balanced
      rintro ⟨h, -⟩
      have hsome := nesting?_isSome_iff.mpr h.balanced
      rw [hnest] at hsome
      cases hsome
  | some depth =>
    rw [← nesting?_le_iff hnest, ← read_eq_ok_iff]
    show (if maxNesting < depth then _ else _) = _ ↔ _
    split
    · rename_i hdeep
      constructor
      · intro h
        cases h
      · rintro ⟨-, h⟩
        exact absurd hdeep (Nat.not_lt.mpr h)
    · rename_i hdeep
      cases hread : read cs with
      | ok d =>
        constructor
        · intro h
          exact ⟨congrArg Except.ok (Except.ok.inj h), Nat.not_lt.mp hdeep⟩
        · rintro ⟨h, -⟩
          exact congrArg Except.ok (Except.ok.inj h)
      | error position =>
        constructor
        · intro h
          cases h
        · rintro ⟨h, -⟩
          cases h

theorem parse_eq_ok_iff {text : String} {t : Expr Binary64} :
    parse text = .ok t ↔ ∃ e, parseDecimal text.toList = .ok e ∧ e.map Binary64.ofDecimal = t := by
  rw [parse]
  cases parseDecimal text.toList with
  | ok e =>
    constructor
    · intro h
      exact ⟨e, rfl, Except.ok.inj h⟩
    · rintro ⟨d, hd, rfl⟩
      obtain rfl := Except.ok.inj hd
      rfl
  | error failure =>
    constructor
    · intro h
      cases h
    · rintro ⟨d, hd, -⟩
      cases hd

theorem parse_ofList_eq_ok_iff {cs : List Char} {t : Expr Binary64} :
    parse (.ofList cs) = .ok t ↔ ∃ e, parseDecimal cs = .ok e ∧ e.map Binary64.ofDecimal = t := by
  rw [parse_eq_ok_iff, String.toList_ofList]

theorem parse_eq_ok_iff_layered {text : String} {t : Expr Binary64} :
    parse text = .ok t ↔ ∃ e, Layered .text text.toList e ∧ NestsWithin maxNesting text.toList ∧
      e.map Binary64.ofDecimal = t := by
  simp only [parse_eq_ok_iff, parseDecimal_eq_ok_iff, and_assoc]

/-- **`parse_grammar`** — parsing succeeds on the texts of the grammar whose parentheses nest within the
bound, and on no others; and then it yields the one expression that the layered grammar has for the
text, each literal rounded to binary64. -/
theorem parse_grammar (text : String) :
    ((∃ t, parse text = .ok t) ↔ Flat .text text.toList ∧ NestsWithin 256 text.toList) ∧
      ∀ t, parse text = .ok t ↔ NestsWithin 256 text.toList ∧
        ∃ e, (∀ d, Layered .text text.toList d ↔ d = e) ∧ t = e.map Binary64.ofDecimal := by
  constructor
  · constructor
    · rintro ⟨t, ht⟩
      obtain ⟨e, he, -⟩ := parse_eq_ok_iff.mp ht
      obtain ⟨hlayered, hnest⟩ := parseDecimal_eq_ok_iff.mp he
      exact ⟨flat_of_layered hlayered, hnest⟩
    · rintro ⟨hflat, hnest⟩
      obtain ⟨e, he⟩ := exists_layered_of_flat hflat
      exact ⟨_, parse_eq_ok_iff.mpr ⟨e, parseDecimal_eq_ok_iff.mpr ⟨he, hnest⟩, rfl⟩⟩
  · intro t
    constructor
    · intro ht
      obtain ⟨e, he, rfl⟩ := parse_eq_ok_iff.mp ht
      obtain ⟨hlayered, hnest⟩ := parseDecimal_eq_ok_iff.mp he
      refine ⟨hnest, e, fun d => ⟨fun hd => hd.unique hlayered, ?_⟩, rfl⟩
      rintro rfl
      exact hlayered
    · rintro ⟨hnest, e, hone, rfl⟩
      exact parse_eq_ok_iff.mpr ⟨e, parseDecimal_eq_ok_iff.mpr ⟨(hone e).mpr rfl, hnest⟩, rfl⟩

end Expr

end Reckoner
