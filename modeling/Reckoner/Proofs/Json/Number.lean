/-
# Reckoner.Proofs.Json.Number — a number, read from left to right.

`part.Rest cs` says that `cs` completes a number that has been read up to that part, in terms of the
grammar. One character leads to the part of which the rest completes the number, and to no other
(`rest_cons_iff`), so the parts of the reader are those of the grammar.
-/
import Reckoner.Proofs.Json.Grammar

namespace Reckoner.Json

/-- **`part.Rest cs`** — `cs` completes a number that has been read up to that part. -/
def Part.Rest : Part → List Char → Prop
  | sign, cs => ∃ w f e, Whole w ∧ Fraction f ∧ Exponent e ∧ cs = w ++ f ++ e
  | zero, cs => ∃ f e, Fraction f ∧ Exponent e ∧ cs = f ++ e
  | whole, cs => ∃ ds f e, Digits ds ∧ Fraction f ∧ Exponent e ∧ cs = ds ++ f ++ e
  | point, cs => ∃ ds e, ds ≠ [] ∧ Digits ds ∧ Exponent e ∧ cs = ds ++ e
  | fraction, cs => ∃ ds e, Digits ds ∧ Exponent e ∧ cs = ds ++ e
  | mark, cs => ∃ s ds, ExponentSign s ∧ ds ≠ [] ∧ Digits ds ∧ cs = s ++ ds
  | markSign, cs => cs ≠ [] ∧ Digits cs
  | exponent, cs => Digits cs

/-- **`IsMark c`** — the character may start an exponent. -/
def IsMark (c : Char) : Prop := c = 'e' ∨ c = 'E'

instance (c : Char) : Decidable (IsMark c) := inferInstanceAs (Decidable (_ ∨ _))

theorem exists_ite_iff {β : Type} {p : Prop} [Decidable p] {a : β} {x : Option β} {Q : β → Prop} :
    (∃ b, (if p then some a else x) = some b ∧ Q b) ↔
      (p ∧ Q a) ∨ (¬p ∧ ∃ b, x = some b ∧ Q b) := by
  by_cases hp : p <;> simp [hp]

theorem exists_some_iff {β : Type} {a : β} {Q : β → Prop} : (∃ b, some a = some b ∧ Q b) ↔ Q a := by
  simp only [Option.some.injEq, exists_eq_left']

theorem exists_map_iff {α β : Type} {x : Option α} {f : α → β} {Q : β → Prop} :
    (∃ b, x.map f = some b ∧ Q b) ↔ ∃ a, x = some a ∧ Q (f a) := by
  cases x <;> simp

namespace Part

variable {part part' : Part} {c : Char} {cs : List Char}

/-! ## What the grammar goes on with -/

theorem exponent_cons_iff : Exponent (c :: cs) ↔ IsMark c ∧ mark.Rest cs := by
  constructor
  · intro h
    cases h with
    | some hmark hsign hne hds => exact ⟨hmark, _, _, hsign, hne, hds, rfl⟩
  · rintro ⟨hmark, s, ds, hsign, hne, hds, rfl⟩
    exact .some hmark hsign hne hds

theorem rest_exponent_cons_iff : exponent.Rest (c :: cs) ↔ c.isDigit = true ∧ exponent.Rest cs :=
  digits_cons

theorem rest_markSign_cons_iff : markSign.Rest (c :: cs) ↔ c.isDigit = true ∧ exponent.Rest cs := by
  show c :: cs ≠ [] ∧ Digits (c :: cs) ↔ _
  rw [digits_cons]
  exact and_iff_right (List.cons_ne_nil c cs)

theorem rest_mark_cons_iff :
    mark.Rest (c :: cs) ↔
      ((c = '+' ∨ c = '-') ∧ markSign.Rest cs) ∨ (c.isDigit = true ∧ exponent.Rest cs) := by
  constructor
  · rintro ⟨s, ds, rfl | rfl | rfl, hne, hds, h⟩
    · obtain rfl : c :: cs = ds := h
      exact .inr (digits_cons.mp hds)
    · obtain ⟨rfl, rfl⟩ := List.cons.inj h
      exact .inl ⟨.inl rfl, hne, hds⟩
    · obtain ⟨rfl, rfl⟩ := List.cons.inj h
      exact .inl ⟨.inr rfl, hne, hds⟩
  · rintro (⟨rfl | rfl, hne, hds⟩ | ⟨hc, hds⟩)
    · exact ⟨['+'], cs, .inr (.inl rfl), hne, hds, rfl⟩
    · exact ⟨['-'], cs, .inr (.inr rfl), hne, hds, rfl⟩
    · exact ⟨[], c :: cs, .inl rfl, List.cons_ne_nil c cs, digits_cons.mpr ⟨hc, hds⟩, rfl⟩

theorem rest_fraction_cons_iff :
    fraction.Rest (c :: cs) ↔ (c.isDigit = true ∧ fraction.Rest cs) ∨ (IsMark c ∧ mark.Rest cs) := by
  constructor
  · rintro ⟨ds, e, hds, he, h⟩
    cases ds with
    | nil =>
      obtain rfl : c :: cs = e := h
      exact .inr (exponent_cons_iff.mp he)
    | cons d ds =>
      obtain ⟨rfl, rfl⟩ := List.cons.inj h
      obtain ⟨hd, hds⟩ := digits_cons.mp hds
      exact .inl ⟨hd, ds, e, hds, he, rfl⟩
  · rintro (⟨hc, ds, e, hds, he, rfl⟩ | h)
    · exact ⟨c :: ds, e, digits_cons.mpr ⟨hc, hds⟩, he, rfl⟩
    · exact ⟨[], c :: cs, digits_nil, exponent_cons_iff.mpr h, rfl⟩

theorem rest_point_cons_iff : point.Rest (c :: cs) ↔ c.isDigit = true ∧ fraction.Rest cs := by
  constructor
  · rintro ⟨ds, e, hne, hds, he, h⟩
    obtain ⟨d, ds, rfl⟩ := List.exists_cons_of_ne_nil hne
    obtain ⟨rfl, rfl⟩ := List.cons.inj h
    obtain ⟨hd, hds⟩ := digits_cons.mp hds
    exact ⟨hd, ds, e, hds, he, rfl⟩
  · rintro ⟨hc, ds, e, hds, he, rfl⟩
    exact ⟨c :: ds, e, List.cons_ne_nil c ds, digits_cons.mpr ⟨hc, hds⟩, he, rfl⟩

theorem rest_zero_cons_iff :
    zero.Rest (c :: cs) ↔ (c = '.' ∧ point.Rest cs) ∨ (IsMark c ∧ mark.Rest cs) := by
  constructor
  · rintro ⟨f, e, hf, he, h⟩
    cases hf with
    | none =>
      obtain rfl : c :: cs = e := h
      exact .inr (exponent_cons_iff.mp he)
    | some hne hds =>
      obtain ⟨rfl, rfl⟩ := List.cons.inj h
      exact .inl ⟨rfl, _, e, hne, hds, he, rfl⟩
  · rintro (⟨rfl, ds, e, hne, hds, he, rfl⟩ | h)
    · exact ⟨'.' :: ds, e, .some hne hds, he, rfl⟩
    · exact ⟨[], c :: cs, .none, exponent_cons_iff.mpr h, rfl⟩

theorem rest_whole_cons_iff :
    whole.Rest (c :: cs) ↔ (c.isDigit = true ∧ whole.Rest cs) ∨ zero.Rest (c :: cs) := by
  constructor
  · rintro ⟨ds, f, e, hds, hf, he, h⟩
    cases ds with
    | nil => exact .inr ⟨f, e, hf, he, h⟩
    | cons d ds =>
      obtain ⟨rfl, rfl⟩ := List.cons.inj h
      obtain ⟨hd, hds⟩ := digits_cons.mp hds
      exact .inl ⟨hd, ds, f, e, hds, hf, he, rfl⟩
  · rintro (⟨hc, ds, f, e, hds, hf, he, rfl⟩ | ⟨f, e, hf, he, h⟩)
    · exact ⟨c :: ds, f, e, digits_cons.mpr ⟨hc, hds⟩, hf, he, rfl⟩
    · exact ⟨[], f, e, digits_nil, hf, he, h⟩

theorem rest_sign_cons_iff :
    sign.Rest (c :: cs) ↔
      (c = '0' ∧ zero.Rest cs) ∨ (c ≠ '0' ∧ c.isDigit = true ∧ whole.Rest cs) := by
  constructor
  · rintro ⟨w, f, e, hw, hf, he, h⟩
    cases hw with
    | zero =>
      obtain ⟨rfl, rfl⟩ := List.cons.inj h
      exact .inl ⟨rfl, f, e, hf, he, rfl⟩
    | digits hne hd hds =>
      obtain ⟨rfl, rfl⟩ := List.cons.inj h
      exact .inr ⟨hne, hd, _, f, e, hds, hf, he, rfl⟩
  · rintro (⟨rfl, f, e, hf, he, rfl⟩ | ⟨hne, hc, ds, f, e, hds, hf, he, rfl⟩)
    · exact ⟨['0'], f, e, .zero, hf, he, rfl⟩
    · exact ⟨c :: ds, f, e, .digits hne hc hds, hf, he, rfl⟩

/-! ## What the reader goes on with -/

theorem isDigit_of_isMark (h : IsMark c) : c.isDigit = false ∧ c ≠ '.' := by
  rcases h with rfl | rfl <;> decide

theorem isDigit_of_sign (h : c = '+' ∨ c = '-') : c.isDigit = false := by
  rcases h with rfl | rfl <;> rfl

/-- One character leads to the part of which the rest completes the number. -/
theorem rest_cons_iff :
    part.Rest (c :: cs) ↔ ∃ part', part.next? c = some part' ∧ part'.Rest cs := by
  have hmark : (c == 'e' || c == 'E') = true ↔ IsMark c := by
    rw [Bool.or_eq_true, beq_iff_eq, beq_iff_eq, IsMark]
  have hpoint : c = '.' → c.isDigit = false := by
    rintro rfl
    rfl
  have hmarks := @isDigit_of_isMark c
  have hsigns := @isDigit_of_sign c
  cases part <;>
    simp only [next?, hmark, exists_ite_iff, reduceCtorEq, false_and, exists_false, and_false, or_false]
  case sign => exact rest_sign_cons_iff
  case zero => rw [rest_zero_cons_iff]; grind
  case whole => rw [rest_whole_cons_iff, rest_zero_cons_iff]; grind
  case point => exact rest_point_cons_iff
  case fraction => rw [rest_fraction_cons_iff]; grind
  case mark => rw [rest_mark_cons_iff]; grind
  case markSign => exact rest_markSign_cons_iff
  case exponent => exact rest_exponent_cons_iff

/-- A number may end where nothing has to follow. -/
theorem rest_nil_iff : part.Rest [] ↔ part.isComplete = true := by
  cases part
  case sign =>
    constructor
    · rintro ⟨w, f, e, hw, -, -, h⟩
      cases hw <;> cases h
    · intro h
      cases h
  case zero => exact ⟨fun _ => rfl, fun _ => ⟨[], [], .none, .none, rfl⟩⟩
  case whole => exact ⟨fun _ => rfl, fun _ => ⟨[], [], [], digits_nil, .none, .none, rfl⟩⟩
  case point =>
    constructor
    · rintro ⟨ds, e, hne, -, -, h⟩
      exact absurd (List.append_eq_nil_iff.mp h.symm).1 hne
    · intro h
      cases h
  case fraction => exact ⟨fun _ => rfl, fun _ => ⟨[], [], digits_nil, .none, rfl⟩⟩
  case mark =>
    constructor
    · rintro ⟨s, ds, -, hne, -, h⟩
      exact absurd (List.append_eq_nil_iff.mp h.symm).2 hne
    · intro h
      cases h
  case markSign =>
    constructor
    · rintro ⟨h, -⟩
      exact absurd rfl h
    · intro h
      cases h
  case exponent => exact ⟨fun _ => rfl, fun _ => digits_nil⟩

end Part

theorem not_number_nil : ¬Number [] := by
  intro h
  generalize hds : [] = ds at h
  cases h with
  | unsigned hw _ _ =>
    have hnil := (List.append_eq_nil_iff.mp (List.append_eq_nil_iff.mp hds.symm).1).1
    cases hw <;> cases hnil
  | minus => cases hds

/-- A number is a minus sign and what completes a sign, or that without the minus sign. -/
theorem number_cons_iff {c : Char} {cs : List Char} :
    Number (c :: cs) ↔ (c = '-' ∧ Part.sign.Rest cs) ∨ (c ≠ '-' ∧ Part.sign.Rest (c :: cs)) := by
  constructor
  · intro h
    generalize hds : c :: cs = ds at h
    cases h with
    | unsigned hw hf he =>
      refine .inr ⟨?_, _, _, _, hw, hf, he, rfl⟩
      rintro rfl
      cases hw with
      | zero => cases hds
      | digits hne hd hdigits =>
        obtain ⟨rfl, -⟩ := List.cons.inj hds
        cases hd
    | minus hw hf he =>
      obtain ⟨rfl, rfl⟩ := List.cons.inj hds
      exact .inl ⟨rfl, _, _, _, hw, hf, he, rfl⟩
  · rintro (⟨rfl, w, f, e, hw, hf, he, rfl⟩ | ⟨-, w, f, e, hw, hf, he, h⟩)
    · exact .minus hw hf he
    · rw [h]
      exact .unsigned hw hf he

/-- A number starts with a minus sign or a digit. -/
theorem Number.head {c : Char} {cs : List Char} (h : Number (c :: cs)) : c = '-' ∨ c.isDigit = true := by
  rcases number_cons_iff.mp h with ⟨rfl, -⟩ | ⟨-, hrest⟩
  · exact .inl rfl
  · rcases Part.rest_sign_cons_iff.mp hrest with ⟨rfl, -⟩ | ⟨-, hd, -⟩
    · exact .inr rfl
    · exact .inr hd

end Reckoner.Json
