/-
# Reckoner.Proofs.Grammar — the texts of expressions, and the expressions they are written for.

Two grammars, both over characters and with blanks only where one token ends.

* `Flat` says which texts are expressions. Operands, each behind at most one minus sign, are joined by
  operators, and nothing is said of precedence.
* `Layered` says which expression a text is written for. Terms are joined by `+` and `-`, factors by `*`
  and `/`, always with the text so far as the left operand; a minus sign belongs to the primary behind
  it. Plus signs at the start of a group, blanks and parentheses leave no trace.

The two describe the same texts (`flat_of_layered`, `exists_layered_of_flat`). That a text is written for
one expression only is not said here: it follows from reading (`Reckoner.Proofs.Parse`).
-/
import Reckoner.Expr.Reading

namespace Reckoner

/-- **`blanks`** — the characters that may stand between two tokens. -/
def blanks : List Char := [' ', '\t', '\r', '\n']

/-- **`Blank cs`** — nothing but blanks. -/
def Blank (cs : List Char) : Prop := ∀ c ∈ cs, c ∈ blanks

/-- **`Digits cs`** — nothing but digits. -/
def Digits (cs : List Char) : Prop := ∀ c ∈ cs, c.isDigit = true

/-- **`op.sign`** — the character that an operator is written with. -/
def Op.sign : Op → Char
  | add => '+'
  | sub => '-'
  | mul => '*'
  | div => '/'

/-! ## Operators, blanks and digits -/

theorem Op.loose_or_tight (op : Op) : (op = add ∨ op = sub) ∨ op = mul ∨ op = div := by
  cases op <;> simp

/-- The machine puts an operand aside by the two levels of the grammar. -/
theorem Op.isTight_iff {op : Op} : op.isTight = true ↔ op = mul ∨ op = div := by
  cases op <;> simp [isTight]

theorem Op.isTight_eq_false_iff {op : Op} : op.isTight = false ↔ op = add ∨ op = sub := by
  cases op <;> simp [isTight]

theorem isBlank_iff_mem {c : Char} : isBlank c = true ↔ c ∈ blanks := by
  simp [isBlank, blanks, or_assoc]

theorem isBlank_eq_false_iff {c : Char} : isBlank c = false ↔ c ∉ blanks := by
  rw [← isBlank_iff_mem, Bool.not_eq_true]

theorem eq_of_isBlank {c : Char} (h : isBlank c = true) :
    c = ' ' ∨ c = '\t' ∨ c = '\r' ∨ c = '\n' := by
  simpa [blanks] using isBlank_iff_mem.mp h

theorem Blank.isBlank {cs : List Char} (h : Blank cs) : ∀ c ∈ cs, isBlank c = true :=
  fun c hc => isBlank_iff_mem.mpr (h c hc)

theorem blank_nil : Blank [] := fun _ h => by cases h

theorem blank_cons {c : Char} {cs : List Char} :
    Blank (c :: cs) ↔ isBlank c = true ∧ Blank cs :=
  List.forall_mem_cons.trans (and_congr_left' isBlank_iff_mem.symm)

theorem blank_singleton {c : Char} (hc : isBlank c = true) : Blank [c] :=
  blank_cons.mpr ⟨hc, blank_nil⟩

theorem blank_append {as bs : List Char} (ha : Blank as) (hb : Blank bs) : Blank (as ++ bs) :=
  List.forall_mem_append.mpr ⟨ha, hb⟩

theorem isDigit_iff_toNat {c : Char} : c.isDigit = true ↔ 48 ≤ c.toNat ∧ c.toNat ≤ 57 := by
  rw [Char.isDigit, Bool.and_eq_true, decide_eq_true_iff, decide_eq_true_iff]
  exact Iff.rfl

theorem digits_nil : Digits [] := fun _ h => by cases h

theorem digits_cons {c : Char} {cs : List Char} :
    Digits (c :: cs) ↔ c.isDigit = true ∧ Digits cs := List.forall_mem_cons

theorem digits_singleton {c : Char} (hc : c.isDigit = true) : Digits [c] :=
  digits_cons.mpr ⟨hc, digits_nil⟩

theorem digits_append {as bs : List Char} (ha : Digits as) (hb : Digits bs) : Digits (as ++ bs) :=
  List.forall_mem_append.mpr ⟨ha, hb⟩

theorem digitsValue_concat (as : List Char) (c : Char) :
    digitsValue (as ++ [c]) = 10 * digitsValue as + digitValue c := by
  rw [digitsValue, Nat.ofDigitChars_append]
  rfl

theorem digitsValue_singleton (c : Char) : digitsValue [c] = digitValue c := by
  show 10 * 0 + digitValue c = digitValue c
  rw [Nat.mul_zero, Nat.zero_add]

namespace Grammar

/-- **`Literal cs d`** — the numeral `cs` is written for `d`: digits, with an optional point and optional
further digits, or a point and digits. -/
inductive Literal : List Char → Decimal → Prop
  | whole {ds : List Char} : ds ≠ [] → Digits ds → Literal ds ⟨digitsValue ds, 0⟩
  | pointed {ds fs : List Char} : ds ≠ [] → Digits ds → Digits fs →
      Literal (ds ++ '.' :: fs) ⟨digitsValue (ds ++ fs), fs.length⟩
  | fraction {fs : List Char} : fs ≠ [] → Digits fs →
      Literal ('.' :: fs) ⟨digitsValue fs, fs.length⟩

theorem Literal.digit_or_point {cs : List Char} {d : Decimal} (h : Literal cs d) :
    ∀ c ∈ cs, c.isDigit = true ∨ c = '.' := by
  cases h with
  | whole _ hds => exact fun c hc => .inl (hds c hc)
  | pointed _ hds hfs =>
    intro c hc
    rcases List.mem_append.mp hc with hc | hc
    · exact .inl (hds c hc)
    · rcases List.mem_cons.mp hc with hc | hc
      · exact .inr hc
      · exact .inl (hfs c hc)
  | fraction _ hfs =>
    intro c hc
    rcases List.mem_cons.mp hc with hc | hc
    · exact .inr hc
    · exact .inl (hfs c hc)

theorem Literal.not_mem {cs : List Char} {d : Decimal} {c : Char} (h : Literal cs d)
    (hdigit : c.isDigit = false) (hpoint : c ≠ '.') : c ∉ cs := by
  intro hc
  rcases h.digit_or_point c hc with hd | hp
  · rw [hdigit] at hd
    cases hd
  · exact hpoint hp

/-- **`Opening cs`** — what may stand in front of the first operand of a text or a group: blanks, and
one plus sign among them. -/
inductive Opening : List Char → Prop
  | blank {a : List Char} : Blank a → Opening a
  | plus {a b : List Char} : Blank a → Blank b → Opening (a ++ '+' :: b)

/-- What `Flat` describes. -/
inductive Part
  | operand
  | signed
  | chain
  | text

/-- **`Flat part cs`** — `cs` is a part of that kind; `Flat .text cs` says that it is an expression. -/
inductive Flat : Part → List Char → Prop
  | literal {cs : List Char} {d : Decimal} : Literal cs d → Flat .operand cs
  | group {cs : List Char} : Flat .text cs → Flat .operand ('(' :: cs ++ [')'])
  | unsigned {cs : List Char} : Flat .operand cs → Flat .signed cs
  | minus {b cs : List Char} : Blank b → Flat .operand cs → Flat .signed ('-' :: b ++ cs)
  | single {cs : List Char} : Flat .signed cs → Flat .chain cs
  | join {cs a b ds : List Char} (op : Op) : Flat .chain cs → Blank a → Blank b → Flat .signed ds →
      Flat .chain (cs ++ a ++ op.sign :: b ++ ds)
  | text {o cs b : List Char} : Opening o → Flat .chain cs → Blank b → Flat .text (o ++ cs ++ b)

/-- What `Layered` describes. -/
inductive Level
  | primary
  | factor
  | term
  | sum
  | text

/-- **`Layered level cs e`** — `cs` is written for `e` at that level of precedence; `Layered .text cs e`
says it of a whole text. -/
inductive Layered : Level → List Char → Expr Decimal → Prop
  | literal {cs : List Char} {d : Decimal} : Literal cs d → Layered .primary cs (.literal d)
  | group {cs : List Char} {e : Expr Decimal} : Layered .text cs e →
      Layered .primary ('(' :: cs ++ [')']) e
  | unsigned {cs : List Char} {e : Expr Decimal} : Layered .primary cs e → Layered .factor cs e
  | minus {b cs : List Char} {e : Expr Decimal} : Blank b → Layered .primary cs e →
      Layered .factor ('-' :: b ++ cs) (.neg e)
  | factor {cs : List Char} {e : Expr Decimal} : Layered .factor cs e → Layered .term cs e
  | product {cs a b ds : List Char} {l r : Expr Decimal} {op : Op} : op = .mul ∨ op = .div →
      Layered .term cs l → Blank a → Blank b → Layered .factor ds r →
      Layered .term (cs ++ a ++ op.sign :: b ++ ds) (.binary op l r)
  | term {cs : List Char} {e : Expr Decimal} : Layered .term cs e → Layered .sum cs e
  | sum {cs a b ds : List Char} {l r : Expr Decimal} {op : Op} : op = .add ∨ op = .sub →
      Layered .sum cs l → Blank a → Blank b → Layered .term ds r →
      Layered .sum (cs ++ a ++ op.sign :: b ++ ds) (.binary op l r)
  | text {o cs b : List Char} {e : Expr Decimal} : Opening o → Layered .sum cs e → Blank b →
      Layered .text (o ++ cs ++ b) e

/-! ## Wider levels of precedence -/

theorem Layered.sum_of_factor {cs : List Char} {e : Expr Decimal} (h : Layered .factor cs e) :
    Layered .sum cs e := .term (.factor h)

theorem Layered.text_of_sum {cs : List Char} {e : Expr Decimal} (h : Layered .sum cs e) :
    Layered .text cs e := by
  have htext := Layered.text (.blank blank_nil) h blank_nil
  rwa [List.nil_append, List.append_nil] at htext

/-- A primary stands at every level of precedence. -/
theorem Layered.of_primary {cs : List Char} {e : Expr Decimal} (h : Layered .primary cs e)
    (level : Level) : Layered level cs e := by
  have hfactor := Layered.unsigned h
  cases level with
  | primary => exact h
  | factor => exact hfactor
  | term => exact .factor hfactor
  | sum => exact hfactor.sum_of_factor
  | text => exact hfactor.sum_of_factor.text_of_sum

/-! ## The two grammars describe the same texts -/

/-- The kind of part that a level of precedence is. -/
def Level.part : Level → Part
  | primary => .operand
  | factor => .signed
  | term => .chain
  | sum => .chain
  | text => .text

/-- The widest level of precedence that a kind of part reaches. -/
def Part.level : Part → Level
  | operand => .primary
  | signed => .factor
  | chain => .sum
  | text => .text

/-- Two chains can be joined as a chain and an operand can. -/
theorem Flat.append {cs a b ds : List Char} (op : Op) (hcs : Flat .chain cs) (ha : Blank a)
    (hb : Blank b) (hds : Flat .chain ds) : Flat .chain (cs ++ a ++ op.sign :: b ++ ds) := by
  generalize hpart : Part.chain = part at hds
  induction hds with
  | single h => exact .join op hcs ha hb h
  | join op' _ ha' hb' hs ih =>
    have hjoin := Flat.join op' (ih hpart) ha' hb' hs
    simpa only [List.append_assoc, List.cons_append] using hjoin
  | literal _ | group _ | unsigned _ | minus _ _ | text _ _ _ => cases hpart

theorem flat_of_layered {level : Level} {cs : List Char} {e : Expr Decimal}
    (h : Layered level cs e) : Flat level.part cs := by
  induction h with
  | literal h => exact .literal h
  | group _ ih => exact .group ih
  | unsigned _ ih => exact .unsigned ih
  | minus hb _ ih => exact .minus hb ih
  | factor _ ih => exact .single ih
  | product _ _ ha hb _ ihl ihr => exact .join _ ihl ha hb ihr
  | term _ ih => exact ih
  | sum _ _ ha hb _ ihl ihr => exact Flat.append _ ihl ha hb ihr
  | text ho _ hb ih => exact .text ho ih hb

/-- A further operand behind `*` or `/` belongs to the last term of a sum. -/
theorem Layered.exists_sum_product {cs a b ds : List Char} {l r : Expr Decimal} {op : Op}
    (hop : op = .mul ∨ op = .div) (hl : Layered .sum cs l) (ha : Blank a) (hb : Blank b)
    (hr : Layered .factor ds r) : ∃ e, Layered .sum (cs ++ a ++ op.sign :: b ++ ds) e := by
  cases hl with
  | term ht => exact ⟨_, .term (.product hop ht ha hb hr)⟩
  | sum hop' hl' ha' hb' ht =>
    have hsum := Layered.sum hop' hl' ha' hb' (.product hop ht ha hb hr)
    simp only [List.append_assoc, List.cons_append] at hsum ⊢
    exact ⟨_, hsum⟩

theorem exists_layered_of_flat {part : Part} {cs : List Char} (h : Flat part cs) :
    ∃ e, Layered part.level cs e := by
  induction h with
  | literal h => exact ⟨_, .literal h⟩
  | group _ ih =>
    obtain ⟨e, he⟩ := ih
    exact ⟨e, .group he⟩
  | unsigned _ ih =>
    obtain ⟨e, he⟩ := ih
    exact ⟨e, .unsigned he⟩
  | minus hb _ ih =>
    obtain ⟨e, he⟩ := ih
    exact ⟨.neg e, .minus hb he⟩
  | single _ ih =>
    obtain ⟨e, he⟩ := ih
    exact ⟨e, .term (.factor he)⟩
  | join op _ ha hb _ ihl ihr =>
    obtain ⟨l, hl⟩ := ihl
    obtain ⟨r, hr⟩ := ihr
    rcases op.loose_or_tight with hop | hop
    · exact ⟨.binary op l r, .sum hop hl ha hb (.factor hr)⟩
    · exact Layered.exists_sum_product hop hl ha hb hr
  | text ho _ hb ih =>
    obtain ⟨e, he⟩ := ih
    exact ⟨e, .text ho he hb⟩

end Grammar

end Reckoner
