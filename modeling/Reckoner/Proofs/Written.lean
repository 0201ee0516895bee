/-
# Reckoner.Proofs.Written — an expression in its plainest written form, and parsed again.

`Written e cs` says that `cs` is `e` written without blanks, with whatever numerals denote its literals,
and with parentheses only where the text would belong to another expression without them. By the layered
grammar such a text is written for `e` (`Written.exists_layered`), so it is parsed as `e` unless it nests
too deeply.

How deep it nests is a matter of the expression, its `nesting`. No text of the grammar gets by with less
(`nesting_le_of_layered`), so an expression that has been parsed can always be written and parsed again.
-/
import Mathlib.Data.Bool.Basic
import Reckoner.Proofs.Parse
import Reckoner.Proofs.Number.Exact

namespace Reckoner.Expr

open Grammar

variable {α β : Type}

/-! ## Kinds of expressions -/

/-- **`e.isLiteral`** — a literal. -/
def isLiteral : Expr α → Bool
  | literal _ => true
  | _ => false

/-- **`e.isSum`** — two operands joined by `+` or `-`. -/
def isSum : Expr α → Bool
  | binary .add _ _ | binary .sub _ _ => true
  | _ => false

/-- **`e.isProduct`** — two operands joined by `*` or `/`. -/
def isProduct : Expr α → Bool
  | binary .mul _ _ | binary .div _ _ => true
  | _ => false

/-- **`e.all p`** — `p` holds of every literal. -/
def all (p : α → Bool) : Expr α → Bool
  | literal v => p v
  | neg e => e.all p
  | binary _ l r => l.all p && r.all p

/-! ## The written form -/

/-- **`enclose needed cs`** — the text, in parentheses where they are needed. -/
def enclose (needed : Bool) (cs : List Char) : List Char := if needed then '(' :: cs ++ [')'] else cs

/-- **`Written e cs`** — `cs` is the expression written with no more parentheses than it needs: around
every operand of a minus sign but a literal, around a sum that is the right operand of a sum or any
operand of a product, and around a product that is the right operand of a product. -/
inductive Written : Expr Binary64 → List Char → Prop
  | literal {cs : List Char} {d : Decimal} : Literal cs d → Written (literal (.ofDecimal d)) cs
  | neg {e : Expr Binary64} {cs : List Char} : Written e cs →
      Written (neg e) ('-' :: enclose (!e.isLiteral) cs)
  | sum {op : Op} {l r : Expr Binary64} {as bs : List Char} : op = .add ∨ op = .sub →
      Written l as → Written r bs → Written (binary op l r) (as ++ op.sign :: enclose r.isSum bs)
  | product {op : Op} {l r : Expr Binary64} {as bs : List Char} : op = .mul ∨ op = .div →
      Written l as → Written r bs →
      Written (binary op l r)
        (enclose l.isSum as ++ op.sign :: enclose (r.isSum || r.isProduct) bs)

/-- **`e.exceeds level`** — where the grammar has that level of precedence, the expression needs
parentheses. -/
def exceeds : Level → Expr α → Bool
  | .primary, e => !e.isLiteral
  | .factor, e => e.isSum || e.isProduct
  | .term, e => e.isSum
  | .sum, _ => false
  | .text, _ => false

/-- **`e.nesting`** — how deep the parentheses nest when the expression is written. -/
def nesting : Expr α → Nat
  | literal _ => 0
  | neg e => e.nesting + (e.exceeds .primary).toNat
  | binary .add l r | binary .sub l r =>
    max (l.nesting + (l.exceeds .sum).toNat) (r.nesting + (r.exceeds .term).toNat)
  | binary .mul l r | binary .div l r =>
    max (l.nesting + (l.exceeds .term).toNat) (r.nesting + (r.exceeds .factor).toNat)

section Binary

variable {op : Op}

theorem isSum_of_loose (hop : op = .add ∨ op = .sub) (l r : Expr α) : (binary op l r).isSum = true := by
  rcases hop with rfl | rfl <;> rfl

theorem isSum_of_tight (hop : op = .mul ∨ op = .div) (l r : Expr α) : (binary op l r).isSum = false := by
  rcases hop with rfl | rfl <;> rfl

theorem isProduct_of_tight (hop : op = .mul ∨ op = .div) (l r : Expr α) :
    (binary op l r).isProduct = true := by
  rcases hop with rfl | rfl <;> rfl

theorem nesting_of_loose (hop : op = .add ∨ op = .sub) (l r : Expr α) : (binary op l r).nesting =
    max (l.nesting + (l.exceeds .sum).toNat) (r.nesting + (r.exceeds .term).toNat) := by
  rcases hop with rfl | rfl <;> rfl

theorem nesting_of_tight (hop : op = .mul ∨ op = .div) (l r : Expr α) : (binary op l r).nesting =
    max (l.nesting + (l.exceeds .term).toNat) (r.nesting + (r.exceeds .factor).toNat) := by
  rcases hop with rfl | rfl <;> rfl

end Binary

/-! ## What is written is a text of the grammar -/

/-- In its parentheses, if it needs any, a text stands at every level of precedence. -/
theorem layered_enclose {e : Expr α} {cs : List Char} {d : Expr Decimal}
    (h : ∀ level, e.exceeds level = false → Layered level cs d) (level : Level) :
    Layered level (enclose (e.exceeds level) cs) d := by
  cases hneeded : e.exceeds level with
  | false => exact h level hneeded
  | true => exact (Layered.group (h .text rfl)).of_primary level

/-- What is written stands at each level that the expression does not exceed, and there it is written
for the expression. -/
theorem Written.exists_layered {e : Expr Binary64} {cs : List Char} (h : Written e cs) :
    ∃ d, d.map Binary64.ofDecimal = e ∧ ∀ level, e.exceeds level = false → Layered level cs d := by
  induction h with
  | @literal cs d hliteral =>
    exact ⟨.literal d, rfl, fun level _ => (Layered.literal hliteral).of_primary level⟩
  | @neg e cs _ ih =>
    obtain ⟨d, rfl, hd⟩ := ih
    have hfactor := Layered.minus blank_nil (layered_enclose hd .primary)
    refine ⟨.neg d, rfl, fun level hlevel => ?_⟩
    cases level with
    | primary => cases hlevel
    | factor => exact hfactor
    | term => exact .factor hfactor
    | sum => exact hfactor.sum_of_factor
    | text => exact hfactor.sum_of_factor.text_of_sum
  | @sum op l r as bs hop _ _ ihl ihr =>
    obtain ⟨dl, rfl, hl⟩ := ihl
    obtain ⟨dr, rfl, hr⟩ := ihr
    have hsum := Layered.sum hop (hl .sum rfl) blank_nil blank_nil (layered_enclose hr .term)
    rw [List.append_nil, List.append_assoc] at hsum
    refine ⟨.binary op dl dr, rfl, fun level hlevel => ?_⟩
    -- below the level of sums it would need parentheses
    cases level with
    | primary => cases hlevel
    | factor | term => simp [exceeds, isSum_of_loose hop] at hlevel
    | sum => exact hsum
    | text => exact hsum.text_of_sum
  | @product op l r as bs hop _ _ ihl ihr =>
    obtain ⟨dl, rfl, hl⟩ := ihl
    obtain ⟨dr, rfl, hr⟩ := ihr
    have hterm := Layered.product hop (layered_enclose hl .term) blank_nil blank_nil
      (layered_enclose hr .factor)
    rw [List.append_nil, List.append_assoc] at hterm
    refine ⟨.binary op dl dr, rfl, fun level hlevel => ?_⟩
    cases level with
    | primary => cases hlevel
    | factor => simp [exceeds, isProduct_of_tight hop] at hlevel
    | term => exact hterm
    | sum => exact .term hterm
    | text => exact hterm.term.text_of_sum

theorem Written.balanced {e : Expr Binary64} {cs : List Char} (h : Written e cs) : Balanced cs := by
  obtain ⟨d, -, hd⟩ := h.exists_layered
  exact (hd .text rfl).balanced

theorem parse_of_written {e : Expr Binary64} {cs : List Char} (h : Written e cs)
    (hnest : NestsWithin 256 cs) : parse (.ofList cs) = .ok e := by
  obtain ⟨d, hmap, hd⟩ := h.exists_layered
  have hparse := parseDecimal_eq_ok_iff.mpr ⟨hd .text rfl, hnest⟩
  exact parse_ofList_eq_ok_iff.mpr ⟨d, hparse, hmap⟩

/-! ## How deep the written form nests -/

theorem balanced_enclose (needed : Bool) {cs : List Char} (h : Balanced cs) :
    Balanced (enclose needed cs) := by
  cases needed with
  | false => exact h
  | true => exact h.group

theorem nestsWithin_enclose {n : Nat} {needed : Bool} {cs : List Char} (h : Balanced cs)
    (hnest : NestsWithin n cs) : NestsWithin (n + needed.toNat) (enclose needed cs) := by
  cases needed with
  | false => exact hnest
  | true => exact (nestsWithin_group_iff h).mpr ⟨Nat.succ_pos n, hnest⟩

theorem nestsWithin_sign (op : Op) {n : Nat} {bs : List Char} :
    NestsWithin n (op.sign :: bs) ↔ NestsWithin n bs := by
  cases op <;> exact nestsWithin_cons_iff (by decide) (by decide)

/-- Two balanced texts joined by an operator nest as deep as the deeper of them. -/
theorem nestsWithin_join {m n : Nat} {as bs : List Char} (op : Op) (has : Balanced as)
    (hm : NestsWithin m as) (hn : NestsWithin n bs) :
    NestsWithin (max m n) (as ++ op.sign :: bs) :=
  (nestsWithin_append_iff has).mpr
    ⟨hm.mono (Nat.le_max_left m n), (nestsWithin_sign op).mpr (hn.mono (Nat.le_max_right m n))⟩

theorem Written.nestsWithin {e : Expr Binary64} {cs : List Char} (h : Written e cs) :
    NestsWithin e.nesting cs := by
  induction h with
  | literal hliteral => exact nestsWithin_of_free (hliteral.not_mem rfl (by decide)) 0
  | neg h ih =>
    exact (nestsWithin_cons_iff (by decide) (by decide)).mpr (nestsWithin_enclose h.balanced ih)
  | @sum op l r as bs hop hl hr ihl ihr =>
    rw [nesting_of_loose hop]
    exact nestsWithin_join op hl.balanced ihl (nestsWithin_enclose hr.balanced ihr)
  | @product op l r as bs hop hl hr ihl ihr =>
    rw [nesting_of_tight hop]
    exact nestsWithin_join op (balanced_enclose _ hl.balanced)
      (nestsWithin_enclose hl.balanced ihl) (nestsWithin_enclose hr.balanced ihr)

/-- Blanks around the operator make no difference. -/
theorem nestsWithin_of_join {n : Nat} {cs a b ds : List Char} (op : Op) (hcs : Balanced cs)
    (ha : Blank a) (hb : Blank b) (h : NestsWithin n (cs ++ a ++ op.sign :: b ++ ds)) :
    NestsWithin n cs ∧ NestsWithin n ds := by
  have hfront := hcs.append (balanced_of_blank ha)
  rw [nestsWithin_append_iff (hfront.append (balanced_sign op (balanced_of_blank hb))),
    nestsWithin_append_iff hfront, nestsWithin_append_iff hcs] at h
  exact ⟨h.1.1.1, h.2⟩

/-- A narrower level of precedence is exceeded by more expressions. -/
theorem toNat_exceeds_factor_le (e : Expr α) :
    (e.exceeds .factor).toNat ≤ (e.exceeds .primary).toNat := by
  cases e with
  | literal _ | neg _ => exact Nat.zero_le _
  | binary _ _ _ => exact Bool.toNat_le _

theorem toNat_exceeds_term_le (e : Expr α) :
    (e.exceeds .term).toNat ≤ (e.exceeds .factor).toNat :=
  Bool.toNat_le_toNat (Bool.left_le_or e.isSum e.isProduct)

/-- Every text that the grammar has for an expression nests as deep as the written form, the parentheses
around the written form included where the level of precedence demands them. -/
theorem nesting_le_of_layered {level : Level} {cs : List Char} {d : Expr Decimal}
    (h : Layered level cs d) {n : Nat} (hnest : NestsWithin n cs) :
    d.nesting + (d.exceeds level).toNat ≤ n := by
  induction h generalizing n with
  | literal _ => exact Nat.zero_le n
  | @group cs e h ih =>
    obtain ⟨hn, hinner⟩ := (nestsWithin_group_iff h.balanced).mp hnest
    have hle : e.nesting ≤ n - 1 := ih hinner
    have hone := Bool.toNat_le (e.exceeds .primary)
    omega
  | unsigned _ ih => exact Nat.le_trans (Nat.add_le_add_left (toNat_exceeds_factor_le _) _) (ih hnest)
  | minus hb _ ih =>
    exact ih ((nestsWithin_append_iff (balanced_cons (by decide) (by decide)
      (balanced_of_blank hb))).mp hnest).2
  | factor _ ih => exact Nat.le_trans (Nat.add_le_add_left (toNat_exceeds_term_le _) _) (ih hnest)
  | term _ ih => exact Nat.le_trans (Nat.le_add_right _ _) (ih hnest)
  | text ho h hb ih =>
    have hfront := hnest.of_prefix (List.prefix_append _ _)
    exact ih ((nestsWithin_append_iff ho.balanced).mp hfront).2
  | @product cs a b ds l r op hop hl ha hb _ ihl ihr =>
    obtain ⟨hleft, hright⟩ := nestsWithin_of_join op hl.balanced ha hb hnest
    have hnone : (binary op l r).exceeds .term = false := isSum_of_tight hop l r
    rw [hnone, nesting_of_tight hop]
    exact Nat.max_le.mpr ⟨ihl hleft, ihr hright⟩
  | @sum cs a b ds l r op hop hl ha hb _ ihl ihr =>
    obtain ⟨hleft, hright⟩ := nestsWithin_of_join op hl.balanced ha hb hnest
    rw [nesting_of_loose hop]
    exact Nat.max_le.mpr ⟨ihl hleft, ihr hright⟩

theorem isSum_map (f : α → β) (e : Expr α) : (e.map f).isSum = e.isSum := by
  cases e with
  | literal _ | neg _ => rfl
  | binary op _ _ => cases op <;> rfl

theorem isProduct_map (f : α → β) (e : Expr α) : (e.map f).isProduct = e.isProduct := by
  cases e with
  | literal _ | neg _ => rfl
  | binary op _ _ => cases op <;> rfl

theorem isLiteral_map (f : α → β) (e : Expr α) : (e.map f).isLiteral = e.isLiteral := by
  cases e <;> rfl

@[simp]
theorem exceeds_map (f : α → β) (e : Expr α) (level : Level) :
    (e.map f).exceeds level = e.exceeds level := by
  cases level <;> simp only [exceeds, isSum_map, isProduct_map, isLiteral_map]

@[simp]
theorem nesting_map (f : α → β) (e : Expr α) : (e.map f).nesting = e.nesting := by
  induction e with
  | literal _ => rfl
  | neg e ih => rw [map, nesting, nesting, ih, exceeds_map]
  | binary op l r ihl ihr => cases op <;> simp only [map, nesting, ihl, ihr, exceeds_map]

/-! ## Literals without a sign -/

theorem all_map (p : β → Bool) (f : α → β) (e : Expr α) : (e.map f).all p = e.all fun v => p (f v) := by
  induction e with
  | literal _ => rfl
  | neg _ ih => exact ih
  | binary _ _ _ ihl ihr => rw [map, all, all, ihl, ihr]

theorem all_eq_true {p : α → Bool} (h : ∀ v, p v = true) (e : Expr α) : e.all p = true := by
  induction e with
  | literal v => exact h v
  | neg _ ih => exact ih
  | binary _ _ _ ihl ihr => rw [all, ihl, ihr, Bool.and_self]

theorem same_self {p : α → Bool} {eq : α → α → Bool} (h : ∀ v, p v = true → eq v v = true)
    {e : Expr α} (he : e.all p = true) : e.same eq e = true := by
  induction e with
  | literal v => exact h v he
  | neg _ ih => exact ih he
  | binary op _ _ ihl ihr =>
    obtain ⟨hl, hr⟩ := Bool.and_eq_true_iff.mp he
    rw [same, ihl hl, ihr hr, beq_self_eq_true]
    rfl

/-- An expression can be written when its literals can. -/
theorem exists_written {e : Expr Binary64} (h : e.all Binary64.isUnsigned = true) :
    ∃ cs, Written e cs := by
  induction e with
  | literal v =>
    obtain ⟨cs, d, hliteral, rfl⟩ := Binary64.exists_literal h
    exact ⟨cs, .literal hliteral⟩
  | neg e ih =>
    obtain ⟨cs, he⟩ := ih h
    exact ⟨_, .neg he⟩
  | binary op l r ihl ihr =>
    obtain ⟨hl, hr⟩ := Bool.and_eq_true_iff.mp h
    obtain ⟨as, has⟩ := ihl hl
    obtain ⟨bs, hbs⟩ := ihr hr
    rcases op.loose_or_tight with hop | hop
    · exact ⟨_, .sum hop has hbs⟩
    · exact ⟨_, .product hop has hbs⟩

/-! ## Writing and parsing -/

/-- **`parse_written`** — an expression whose literals are numbers without a sign, infinity among them,
can be written, and is parsed from each of its written forms that nests within the bound. Every
expression that parsing yields is of that kind and equal to itself, and is parsed from each of its
written forms, for none of them nests deeper than the text it was first parsed from. -/
theorem parse_written :
    (∀ e : Expr Binary64, e.all Binary64.isUnsigned = true →
      (∃ cs, Written e cs) ∧
        ∀ cs, Written e cs → NestsWithin 256 cs → parse (.ofList cs) = .ok e) ∧
      ∀ text t, parse text = .ok t →
        t.all Binary64.isUnsigned = true ∧ t.same Binary64.equal t = true ∧
          (∃ cs, Written t cs) ∧ ∀ cs, Written t cs → parse (.ofList cs) = .ok t := by
  refine ⟨fun e he => ⟨exists_written he, fun cs => parse_of_written⟩, ?_⟩
  intro text t ht
  obtain ⟨d, hd, rfl⟩ := parse_eq_ok_iff.mp ht
  obtain ⟨hlayered, hnest⟩ := parseDecimal_eq_ok_iff.mp hd
  have hunsigned : (d.map Binary64.ofDecimal).all Binary64.isUnsigned = true := by
    rw [all_map]
    exact all_eq_true Binary64.isUnsigned_ofDecimal d
  -- the text that was parsed bounds the nesting, which is that of every written form
  refine ⟨hunsigned, same_self (fun _ => Binary64.equal_self_of_isUnsigned) hunsigned,
    exists_written hunsigned, fun cs hcs => parse_of_written hcs (hcs.nestsWithin.mono ?_)⟩
  rw [nesting_map]
  exact nesting_le_of_layered hlayered hnest

/-- A product and a difference inside a sum, sums and a quotient inside a product, and a negation behind a
minus sign. -/
theorem parse_written_of_mixed :
    let number (n : Nat) : Expr Binary64 := literal (.ofDecimal ⟨n, 0⟩)
    let e := binary .sub (binary .add (number 1) (binary .mul (number 2) (number 3)))
      (binary .mul (binary .add (number 4) (neg (neg (number 5)))) (binary .div (number 6) (number 7)))
    e.all Binary64.isUnsigned = true ∧ Written e "1+2*3-(4+-(-5))*(6/7)".toList ∧
      NestsWithin 256 "1+2*3-(4+-(-5))*(6/7)".toList ∧
      parse "1+2*3-(4+-(-5))*(6/7)" = .ok e ∧ e.same Binary64.equal e = true := by
  intro number e
  have hdigit (c : Char) (h : c.isDigit = true) : Written (number (digitsValue [c])) [c] :=
    .literal (.whole (List.cons_ne_nil c []) (digits_singleton h))
  have hsum : Written (binary .add (number 1) (binary .mul (number 2) (number 3))) "1+2*3".toList :=
    .sum (.inl rfl) (hdigit '1' rfl) (.product (.inl rfl) (hdigit '2' rfl) (hdigit '3' rfl))
  have hnegated : Written (binary .add (number 4) (neg (neg (number 5)))) "4+-(-5)".toList :=
    .sum (.inl rfl) (hdigit '4' rfl) (.neg (.neg (hdigit '5' rfl)))
  have hquotient : Written (binary .div (number 6) (number 7)) "6/7".toList :=
    .product (.inr rfl) (hdigit '6' rfl) (hdigit '7' rfl)
  have hwritten : Written e "1+2*3-(4+-(-5))*(6/7)".toList :=
    .sum (.inr rfl) hsum (.product (.inl rfl) hnegated hquotient)
  have hnest := hwritten.nestsWithin.mono (show e.nesting ≤ 256 by decide)
  have hunsigned : e.all Binary64.isUnsigned = true := by
    simp only [e, number, all, Binary64.isUnsigned_ofDecimal, Bool.and_self]
  have hparse := (parse_written.1 e hunsigned).2 _ hwritten hnest
  exact ⟨hunsigned, hwritten, hnest, hparse, (parse_written.2 _ e hparse).2.1⟩

end Reckoner.Expr
