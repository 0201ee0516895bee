/-
# Reckoner.Proofs.Value.Parts — the parts of an expression, and their values.

Statements about what happens on the way to a value speak of the parts of an expression: of the whole
and of all that its operands consist of. Evaluation goes through every part. So, over any arithmetic, an
expression has a value only if each of its parts has one (`exists_eval_of_mem_parts`), and it has one
just if none of them is a division by zero (`exists_eval_iff`, `eval_eq_none_iff`).
-/
import Reckoner.Proofs.Walk

namespace Reckoner

variable {α : Type}

namespace Expr

/-- **`e.parts`** — the expression, the parts of its left operand and those of its right one. -/
def parts : Expr α → List (Expr α)
  | literal v => [literal v]
  | neg e => neg e :: e.parts
  | binary op l r => binary op l r :: (l.parts ++ r.parts)

variable {e l r p q : Expr α} {op : Op} {v : α}

theorem mem_parts_self (e : Expr α) : e ∈ e.parts := by
  rcases e with v | e | ⟨op, l, r⟩ <;> exact List.mem_cons_self

theorem mem_parts_literal_iff : p ∈ (literal v).parts ↔ p = literal v := List.mem_singleton

theorem mem_parts_neg_iff : p ∈ (neg e).parts ↔ p = neg e ∨ p ∈ e.parts := List.mem_cons

theorem mem_parts_binary_iff :
    p ∈ (binary op l r).parts ↔ p = binary op l r ∨ p ∈ l.parts ∨ p ∈ r.parts := by
  rw [parts, List.mem_cons, List.mem_append]

/-- The parts of a part are parts. -/
theorem mem_parts_trans (hp : p ∈ q.parts) (hq : q ∈ e.parts) : p ∈ e.parts := by
  induction e with
  | literal v =>
    obtain rfl := mem_parts_literal_iff.mp hq
    exact hp
  | neg e ih =>
    rcases mem_parts_neg_iff.mp hq with rfl | he
    · exact hp
    · exact mem_parts_neg_iff.mpr (.inr (ih he))
  | binary op l r ihl ihr =>
    rcases mem_parts_binary_iff.mp hq with rfl | hl | hr
    · exact hp
    · exact mem_parts_binary_iff.mpr (.inr (.inl (ihl hl)))
    · exact mem_parts_binary_iff.mpr (.inr (.inr (ihr hr)))

theorem right_mem_parts (h : binary op l r ∈ e.parts) : r ∈ e.parts :=
  mem_parts_trans (mem_parts_binary_iff.mpr (.inr (.inr r.mem_parts_self))) h

/-! ## Values of parts -/

variable [Arithmetic α]

theorem eval_neg_eq_some_iff :
    (neg e).eval = some v ↔ ∃ x, e.eval = some x ∧ Arithmetic.neg x = v := by
  rw [eval, Option.map_eq_some_iff]

theorem eval_binary_eq_some_iff :
    (binary op l r).eval = some v ↔
      ∃ x y, l.eval = some x ∧ r.eval = some y ∧
        ¬ (op = .div ∧ Arithmetic.isZero y = true) ∧ Arithmetic.apply op x y = v := by
  simp only [eval, Option.bind_eq_some_iff, Option.ite_none_left_eq_some,
    Option.some.injEq]
  constructor
  · rintro ⟨x, hx, y, hy, hv⟩
    exact ⟨x, y, hx, hy, hv⟩
  · rintro ⟨x, y, hx, hy, hv⟩
    exact ⟨x, hx, y, hy, hv⟩

/-- Where the whole has a value, each part has one. -/
theorem exists_eval_of_mem_parts (h : e.eval = some v) (hp : p ∈ e.parts) :
    ∃ w, p.eval = some w := by
  induction e generalizing v with
  | literal x =>
    obtain rfl := mem_parts_literal_iff.mp hp
    exact ⟨v, h⟩
  | neg e ih =>
    rcases mem_parts_neg_iff.mp hp with rfl | he
    · exact ⟨v, h⟩
    · obtain ⟨x, hx, -⟩ := eval_neg_eq_some_iff.mp h
      exact ih hx he
  | binary op l r ihl ihr =>
    obtain ⟨x, y, hx, hy, -⟩ := eval_binary_eq_some_iff.mp h
    rcases mem_parts_binary_iff.mp hp with rfl | hl | hr
    · exact ⟨v, h⟩
    · exact ihl hx hl
    · exact ihr hy hr

/-- An expression has a value just if no part of it is a division by zero. -/
theorem exists_eval_iff :
    (∃ v, e.eval = some v) ↔
      ∀ l r, binary .div l r ∈ e.parts → ∀ y, r.eval = some y → Arithmetic.isZero y = false := by
  constructor
  · rintro ⟨v, hv⟩ l r hdiv y hy
    obtain ⟨w, hw⟩ := exists_eval_of_mem_parts hv hdiv
    obtain ⟨x, y', -, hy', hzero, -⟩ := eval_binary_eq_some_iff.mp hw
    obtain rfl := Option.some.inj (hy.symm.trans hy')
    exact Bool.eq_false_iff.mpr fun hyzero => hzero ⟨rfl, hyzero⟩
  · intro hdivisors
    induction e with
    | literal v => exact ⟨v, rfl⟩
    | neg e ih =>
      obtain ⟨x, hx⟩ := ih fun l r hdiv => hdivisors l r (mem_parts_neg_iff.mpr (.inr hdiv))
      exact ⟨_, eval_neg_eq_some_iff.mpr ⟨x, hx, rfl⟩⟩
    | binary op l r ihl ihr =>
      obtain ⟨x, hx⟩ := ihl fun l' r' hdiv =>
        hdivisors l' r' (mem_parts_binary_iff.mpr (.inr (.inl hdiv)))
      obtain ⟨y, hy⟩ := ihr fun l' r' hdiv =>
        hdivisors l' r' (mem_parts_binary_iff.mpr (.inr (.inr hdiv)))
      refine ⟨_, eval_binary_eq_some_iff.mpr ⟨x, y, hx, hy, ?_, rfl⟩⟩
      rintro ⟨rfl, hzero⟩
      rw [hdivisors l r (mem_parts_self _) y hy] at hzero
      cases hzero

/-- **`e.DividesByZero`** — somewhere in the expression something is divided by a zero. -/
def DividesByZero (e : Expr α) : Prop :=
  ∃ l r y, binary .div l r ∈ e.parts ∧ r.eval = some y ∧ Arithmetic.isZero y = true

/-- What stands around a division by zero cannot hide it. -/
theorem DividesByZero.mono (h : p.DividesByZero) (hp : p ∈ e.parts) : e.DividesByZero := by
  obtain ⟨l, r, y, hdiv, hy, hzero⟩ := h
  exact ⟨l, r, y, mem_parts_trans hdiv hp, hy, hzero⟩

/-- An expression has no value just if some part of it is a division by zero. -/
theorem eval_eq_none_iff : e.eval = none ↔ e.DividesByZero := by
  rw [← Option.not_isSome_iff_eq_none, Option.isSome_iff_exists, exists_eval_iff, DividesByZero]
  simp only [Classical.not_forall, exists_prop, exists_and_left, Bool.not_eq_false]

end Expr

end Reckoner
