/-
# Reckoner.Proofs.Reading.Accepts — the machine reads every text of the grammar.

`Reading.run` is the machine over a list of characters. A reading `Holds` an operand when its last
character may have been read: it stands after the operand, or inside a numeral that is complete as it
is. The two differ only on what would prolong the numeral, so whatever may follow an operand is read
alike.

For each level of precedence, `Accepted` says how the machine reads what is written at that level, in
whatever context; `accepted_of_layered` proves it by induction on the derivation. A term may leave a
left operand pending, and a sum two, so an expression is held when closing the pending operands yields
it.
-/
import Reckoner.Proofs.Grammar

namespace Reckoner

/-! ## Characters -/

theorem isDigit_eq_false_of_isBlank {c : Char} (h : isBlank c = true) : c.isDigit = false := by
  rcases eq_of_isBlank h with rfl | rfl | rfl | rfl <;> rfl

theorem isBlank_eq_false_of_isDigit {c : Char} (h : c.isDigit = true) : isBlank c = false := by
  cases hb : isBlank c with
  | false => rfl
  | true =>
    rw [isDigit_eq_false_of_isBlank hb] at h
    cases h

theorem ne_point_of_isBlank {c : Char} (h : isBlank c = true) : c ≠ '.' := by
  rintro rfl
  cases h

namespace Expr

namespace Reading

/-! ## Single steps -/

variable {slot : Slot} {context : Context} {c : Char}

theorem stepBefore_blank (h : isBlank c = true) :
    stepBefore slot context c = some (before slot context) := by
  rw [stepBefore, if_pos h]

theorem stepBefore_digit (h : c.isDigit = true) :
    stepBefore slot context c =
      some (inside (.whole (digitValue c)) (decide (slot = .negated)) context) := by
  rw [stepBefore, if_neg (by rw [isBlank_eq_false_of_isDigit h]; decide), if_pos h]

theorem stepBefore_point :
    stepBefore slot context '.' = some (inside .point (decide (slot = .negated)) context) := rfl

theorem stepBefore_open :
    stepBefore slot context '(' =
      some (before .opening
        ⟨Pending.empty, (context.pending, decide (slot = .negated)) :: context.enclosing⟩) := rfl

theorem stepBefore_minus (h : slot ≠ .negated) :
    stepBefore slot context '-' = some (before .negated context) := by
  cases slot with
  | opening => rfl
  | operand => rfl
  | negated => exact absurd rfl h

theorem stepBefore_plus : stepBefore .opening context '+' = some (before .operand context) := rfl

theorem stepAfter_blank {e : Expr Decimal} (h : isBlank c = true) :
    stepAfter e context c = some (after e context) := by
  rw [stepAfter, if_pos h]

theorem stepAfter_close {e : Expr Decimal} {p q : Pending} {negated : Bool}
    {enclosing : List (Pending × Bool)} :
    stepAfter e ⟨p, (q, negated) :: enclosing⟩ ')' =
      some (after (negateIf negated (p.close e)) ⟨q, enclosing⟩) := rfl

theorem stepAfter_sign {e : Expr Decimal} {p : Pending} {enclosing : List (Pending × Bool)}
    (op : Op) :
    stepAfter e ⟨p, enclosing⟩ op.sign = some (before .operand ⟨p.push e op, enclosing⟩) := by
  cases op <;> rfl

/-! ## Runs -/

/-- **`r.run cs`** — the reading after the characters `cs`, none if one of them does not fit. -/
def run (r : Reading) : List Char → Option Reading
  | [] => some r
  | c :: cs => (r.step c).bind fun next => next.run cs

theorem run_cons {r next : Reading} (h : r.step c = some next) (cs : List Char) :
    r.run (c :: cs) = next.run cs := by
  rw [run, h, Option.bind_some]

theorem run_append {r next : Reading} {as : List Char} (h : r.run as = some next)
    (bs : List Char) : r.run (as ++ bs) = next.run bs := by
  induction as generalizing r with
  | nil =>
    obtain rfl := Option.some.inj h
    rfl
  | cons a as ih =>
    rw [run] at h
    cases hs : r.step a with
    | none =>
      rw [hs] at h
      cases h
    | some mid =>
      rw [hs, Option.bind_some] at h
      rw [List.cons_append, run_cons hs, ih h]

/-- Reading a text to its end is running over it and asking for the result. -/
theorem finish_eq_ok_iff {r : Reading} {index : Nat} {cs : List Char} {e : Expr Decimal} :
    r.finish index cs = .ok e ↔ ∃ last, r.run cs = some last ∧ last.result? = some e := by
  induction cs generalizing r index with
  | nil =>
    rw [finish, run]
    cases hr : r.result? with
    | none =>
      constructor
      · intro h
        cases h
      · rintro ⟨last, hlast, he⟩
        obtain rfl := Option.some.inj hlast
        rw [hr] at he
        cases he
    | some e' =>
      constructor
      · intro h
        obtain rfl := Except.ok.inj h
        exact ⟨r, rfl, hr⟩
      · rintro ⟨last, hlast, he⟩
        obtain rfl := Option.some.inj hlast
        rw [hr] at he
        rw [Option.some.inj he]
  | cons c cs ih =>
    rw [finish, run]
    cases hs : r.step c with
    | none =>
      constructor
      · intro h
        cases h
      · rintro ⟨last, hlast, -⟩
        cases hlast
    | some next => exact ih

theorem run_before_blank {cs : List Char} (h : Blank cs) (slot : Slot) (context : Context) :
    (before slot context).run cs = some (before slot context) := by
  induction cs with
  | nil => rfl
  | cons c cs ih =>
    obtain ⟨hc, hcs⟩ := blank_cons.mp h
    rw [run_cons (show (before slot context).step c = _ from stepBefore_blank hc), ih hcs]

/-! ## Numerals -/

theorem extend_whole {c : Char} (h : c.isDigit = true) (as : List Char) :
    (Numeral.whole (digitsValue as)).extend c = some (.whole (digitsValue (as ++ [c]))) := by
  rw [Numeral.extend, if_pos h, digitsValue_concat]

theorem extend_fraction {c : Char} (h : c.isDigit = true) (as : List Char) (k : Nat) :
    (Numeral.fraction (digitsValue as) k).extend c =
      some (.fraction (digitsValue (as ++ [c])) (k + 1)) := by
  rw [Numeral.extend, if_pos h, digitsValue_concat]

/-- A numeral ends in front of what is neither a digit nor a point. -/
theorem extend_eq_none {n : Numeral} {c : Char} (hd : c.isDigit = false) (hp : c ≠ '.') :
    n.extend c = none := by
  cases n <;> simp [Numeral.extend, hd, hp]

theorem step_inside {n next : Numeral} {c : Char} (h : n.extend c = some next) (negated : Bool)
    (context : Context) :
    (inside n negated context).step c = some (inside next negated context) := by
  rw [step, h]

theorem run_whole {ds : List Char} (h : Digits ds) (as : List Char) (negated : Bool)
    (context : Context) :
    (inside (.whole (digitsValue as)) negated context).run ds =
      some (inside (.whole (digitsValue (as ++ ds))) negated context) := by
  induction ds generalizing as with
  | nil => rw [List.append_nil, run]
  | cons c ds ih =>
    obtain ⟨hc, hds⟩ := digits_cons.mp h
    rw [run_cons (step_inside (extend_whole hc as) negated context), ih hds, List.append_assoc,
      List.singleton_append]

theorem run_fraction {fs : List Char} (h : Digits fs) (as : List Char) (k : Nat) (negated : Bool)
    (context : Context) :
    (inside (.fraction (digitsValue as) k) negated context).run fs =
      some (inside (.fraction (digitsValue (as ++ fs)) (k + fs.length)) negated context) := by
  induction fs generalizing as k with
  | nil => rw [List.append_nil, run, List.length_nil, Nat.add_zero]
  | cons c fs ih =>
    obtain ⟨hc, hfs⟩ := digits_cons.mp h
    rw [run_cons (step_inside (extend_fraction hc as k) negated context), ih hfs, List.append_assoc,
      List.singleton_append, List.length_cons, Nat.add_assoc, Nat.add_comm 1]

theorem run_before_digits {ds : List Char} (hne : ds ≠ []) (h : Digits ds) (slot : Slot)
    (context : Context) :
    (before slot context).run ds =
      some (inside (.whole (digitsValue ds)) (decide (slot = .negated)) context) := by
  cases ds with
  | nil => exact absurd rfl hne
  | cons c ds =>
    obtain ⟨hc, hds⟩ := digits_cons.mp h
    rw [run_cons (show (before slot context).step c = _ from stepBefore_digit hc),
      ← digitsValue_singleton, run_whole hds, List.singleton_append]

/-- A numeral is read to its end, and its value is known there. -/
theorem run_literal {cs : List Char} {d : Decimal} (h : Grammar.Literal cs d) (slot : Slot)
    (context : Context) :
    ∃ n, (before slot context).run cs = some (inside n (decide (slot = .negated)) context) ∧
      n.value? = some d := by
  cases h with
  | whole hne hds => exact ⟨_, run_before_digits hne hds slot context, rfl⟩
  | @pointed ds fs hne hds hfs =>
    have hpoint : (Numeral.whole (digitsValue ds)).extend '.' =
        some (.fraction (digitsValue ds) 0) := rfl
    refine ⟨.fraction (digitsValue (ds ++ fs)) (0 + fs.length), ?_, ?_⟩
    · rw [run_append (run_before_digits hne hds slot context),
        run_cons (step_inside hpoint _ context), run_fraction hfs]
    · rw [Numeral.value?, Nat.zero_add]
  | @fraction fs hne hfs =>
    cases fs with
    | nil => exact absurd rfl hne
    | cons c fs =>
      obtain ⟨hc, hfs⟩ := digits_cons.mp hfs
      have hfirst : Numeral.point.extend c = some (.fraction (digitsValue [c]) 1) := by
        rw [Numeral.extend, if_pos hc, digitsValue_singleton]
      refine ⟨.fraction (digitsValue ([c] ++ fs)) (1 + fs.length), ?_, ?_⟩
      · rw [run_cons (show (before slot context).step '.' = _ from stepBefore_point),
          run_cons (step_inside hfirst _ context), run_fraction hfs]
      · rw [Numeral.value?, List.singleton_append, List.length_cons, Nat.add_comm 1]

/-! ## Holding an operand -/

/-- **`Holds r e context`** — the last character of the operand `e` may have been read. -/
inductive Holds : Reading → Expr Decimal → Context → Prop
  | after (e : Expr Decimal) (context : Context) : Holds (after e context) e context
  | inside {n : Numeral} {d : Decimal} (negated : Bool) (context : Context) : n.value? = some d →
      Holds (inside n negated context) (negateIf negated (literal d)) context

variable {r : Reading} {e : Expr Decimal}

theorem Holds.step (h : Holds r e context) (hd : c.isDigit = false) (hp : c ≠ '.') :
    r.step c = stepAfter e context c := by
  cases h with
  | after => rfl
  | @inside n d negated _ hn =>
    rw [Reading.step, extend_eq_none hd hp]
    show n.value?.bind _ = _
    rw [hn, Option.bind_some]

theorem Holds.run_blank (h : Holds r e context) {cs : List Char} (hcs : Blank cs) :
    ∃ next, r.run cs = some next ∧ Holds next e context := by
  induction cs generalizing r with
  | nil => exact ⟨r, rfl, h⟩
  | cons c cs ih =>
    obtain ⟨hc, hcs⟩ := blank_cons.mp hcs
    have hstep := h.step (isDigit_eq_false_of_isBlank hc) (ne_point_of_isBlank hc)
    rw [stepAfter_blank hc] at hstep
    rw [run_cons hstep]
    exact ih (.after e context) hcs

/-- Behind an operand, an operator among blanks makes the operand a left one. -/
theorem Holds.run_sign {p : Pending} {enclosing : List (Pending × Bool)}
    (h : Holds r e ⟨p, enclosing⟩) {a b : List Char} (ha : Blank a) (op : Op) (hb : Blank b) :
    r.run (a ++ op.sign :: b) = some (before .operand ⟨p.push e op, enclosing⟩) := by
  obtain ⟨next, hrun, hnext⟩ := h.run_blank ha
  have hstep : next.step op.sign = stepAfter e ⟨p, enclosing⟩ op.sign :=
    hnext.step (by cases op <;> rfl) (by cases op <;> decide)
  rw [run_append hrun, run_cons (hstep.trans (stepAfter_sign op)), run_before_blank hb]

theorem Holds.result?_eq {p : Pending} (h : Holds r e ⟨p, []⟩) :
    r.result? = some (p.close e) := by
  cases h with
  | after => rfl
  | inside negated _ hn => rw [result?, hn, Option.map_some]

/-! ## Derivations are read -/

open Grammar (Level Layered Opening)

/-- **`Accepted level cs e`** — how the machine reads `cs` when that is written for `e` at the given
level: it comes to hold an operand from which, with what it left pending, `e` is put together. -/
def Accepted : Level → List Char → Expr Decimal → Prop
  | .primary, cs, e => ∀ slot context, ∃ r, (before slot context).run cs = some r ∧
      Holds r (negateIf (decide (slot = .negated)) e) context
  | .factor, cs, e => ∀ slot context, slot ≠ .negated → ∃ r, (before slot context).run cs = some r ∧
      Holds r e context
  | .term, cs, e => ∀ slot sum enclosing, slot ≠ .negated → ∃ r product last,
      (before slot ⟨⟨sum, none⟩, enclosing⟩).run cs = some r ∧
      Holds r last ⟨⟨sum, product⟩, enclosing⟩ ∧ joinLeft product last = e
  | .sum, cs, e => ∀ slot enclosing, slot ≠ .negated → ∃ r pending last,
      (before slot ⟨Pending.empty, enclosing⟩).run cs = some r ∧
      Holds r last ⟨pending, enclosing⟩ ∧ pending.close last = e
  | .text, cs, e => ∀ enclosing, ∃ r pending last,
      (before .opening ⟨Pending.empty, enclosing⟩).run cs = some r ∧
      Holds r last ⟨pending, enclosing⟩ ∧ pending.close last = e

theorem push_tight {op : Op} (hop : op = .mul ∨ op = .div) (sum product : Option (Expr Decimal × Op))
    (e : Expr Decimal) :
    (Pending.mk sum product).push e op = ⟨sum, some (joinLeft product e, op)⟩ := by
  rw [Pending.push, if_pos (Op.isTight_iff.mpr hop)]

theorem push_loose {op : Op} (hop : op = .add ∨ op = .sub) (p : Pending) (e : Expr Decimal) :
    p.push e op = ⟨some (p.close e, op), none⟩ := by
  rw [Pending.push, Op.isTight_eq_false_iff.mpr hop]
  rfl

theorem run_opening {o : List Char} (h : Opening o) (context : Context) :
    ∃ slot, slot ≠ .negated ∧ (before .opening context).run o = some (before slot context) := by
  cases h with
  | blank ha => exact ⟨.opening, by decide, run_before_blank ha .opening context⟩
  | plus ha hb =>
    refine ⟨.operand, by decide, ?_⟩
    rw [run_append (run_before_blank ha .opening context),
      run_cons (show (before .opening context).step '+' = _ from stepBefore_plus),
      run_before_blank hb]

theorem accepted_group {cs : List Char} (h : Accepted .text cs e) :
    Accepted .primary ('(' :: cs ++ [')']) e := by
  intro slot context
  obtain ⟨r, pending, last, hrun, hr, hlast⟩ :=
    h ((context.pending, decide (slot = .negated)) :: context.enclosing)
  have hclose := (hr.step rfl (by decide)).trans stepAfter_close
  rw [hlast] at hclose
  refine ⟨_, ?_, .after _ context⟩
  rw [List.cons_append, run_cons (show (before slot context).step '(' = _ from stepBefore_open),
    run_append hrun, run_cons hclose, run]

theorem accepted_minus {b cs : List Char} (hb : Blank b) (h : Accepted .primary cs e) :
    Accepted .factor ('-' :: b ++ cs) (neg e) := by
  intro slot context hslot
  obtain ⟨r, hrun, hr⟩ := h .negated context
  refine ⟨r, ?_, hr⟩
  rw [List.cons_append,
    run_cons (show (before slot context).step '-' = _ from stepBefore_minus hslot),
    run_append (run_before_blank hb .negated context), hrun]

theorem accepted_product {cs a b ds : List Char} {left right : Expr Decimal} {op : Op}
    (hop : op = .mul ∨ op = .div) (hl : Accepted .term cs left) (ha : Blank a) (hb : Blank b)
    (hr : Accepted .factor ds right) :
    Accepted .term (cs ++ a ++ op.sign :: b ++ ds) (binary op left right) := by
  intro slot sum enclosing hslot
  -- the left operand is held with a product pending, and the operator pushes it there
  obtain ⟨mid, product, last, hmid, hheld, rfl⟩ := hl slot sum enclosing hslot
  have hsign := hheld.run_sign ha op hb
  rw [push_tight hop] at hsign
  obtain ⟨r, hrun, hr⟩ := hr .operand _ (by decide)
  refine ⟨r, some (joinLeft product last, op), right, ?_, hr, rfl⟩
  rw [List.append_assoc cs, List.append_assoc cs, run_append hmid, run_append hsign, hrun]

theorem accepted_sum {cs a b ds : List Char} {left right : Expr Decimal} {op : Op}
    (hop : op = .add ∨ op = .sub) (hl : Accepted .sum cs left) (ha : Blank a) (hb : Blank b)
    (hr : Accepted .term ds right) :
    Accepted .sum (cs ++ a ++ op.sign :: b ++ ds) (binary op left right) := by
  intro slot enclosing hslot
  -- all that is pending becomes the left operand, so the term behind it starts afresh
  obtain ⟨mid, pending, last, hmid, hheld, rfl⟩ := hl slot enclosing hslot
  have hsign := hheld.run_sign ha op hb
  rw [push_loose hop] at hsign
  obtain ⟨r, product, last', hrun, hr, rfl⟩ := hr .operand _ enclosing (by decide)
  refine ⟨r, ⟨some (pending.close last, op), product⟩, last', ?_, hr, rfl⟩
  rw [List.append_assoc cs, List.append_assoc cs, run_append hmid, run_append hsign, hrun]

theorem accepted_text {o cs b : List Char} (ho : Opening o) (h : Accepted .sum cs e)
    (hb : Blank b) : Accepted .text (o ++ cs ++ b) e := by
  intro enclosing
  obtain ⟨slot, hslot, hopen⟩ := run_opening ho ⟨Pending.empty, enclosing⟩
  obtain ⟨mid, pending, last, hmid, hheld, hlast⟩ := h slot enclosing hslot
  obtain ⟨r, hrun, hr⟩ := hheld.run_blank hb
  refine ⟨r, pending, last, ?_, hr, hlast⟩
  rw [List.append_assoc, run_append hopen, run_append hmid, hrun]

theorem accepted_of_layered {level : Level} {cs : List Char} {e : Expr Decimal}
    (h : Layered level cs e) : Accepted level cs e := by
  induction h with
  | literal h =>
    intro slot context
    obtain ⟨n, hrun, hn⟩ := run_literal h slot context
    exact ⟨_, hrun, .inside _ context hn⟩
  | group _ ih => exact accepted_group ih
  | unsigned _ ih =>
    intro slot context hslot
    obtain ⟨r, hrun, hr⟩ := ih slot context
    -- no minus sign has been read that would be put in front of the primary
    rw [decide_eq_false hslot] at hr
    exact ⟨r, hrun, hr⟩
  | minus hb _ ih => exact accepted_minus hb ih
  | factor _ ih =>
    intro slot sum enclosing hslot
    obtain ⟨r, hrun, hr⟩ := ih slot ⟨⟨sum, none⟩, enclosing⟩ hslot
    exact ⟨r, none, _, hrun, hr, rfl⟩
  | product hop _ ha hb _ ihl ihr => exact accepted_product hop ihl ha hb ihr
  | term _ ih =>
    intro slot enclosing hslot
    obtain ⟨r, product, last, hrun, hr, hlast⟩ := ih slot none enclosing hslot
    exact ⟨r, ⟨none, product⟩, last, hrun, hr, hlast⟩
  | sum hop _ ha hb _ ihl ihr => exact accepted_sum hop ihl ha hb ihr
  | text ho _ hb ih => exact accepted_text ho ih hb

end Reading

/-- A text of the grammar is read, and as the expression it is written for. -/
theorem read_of_layered {cs : List Char} {e : Expr Decimal}
    (h : Grammar.Layered .text cs e) : read cs = .ok e := by
  obtain ⟨r, pending, last, hrun, hr, rfl⟩ := Reading.accepted_of_layered h []
  exact Reading.finish_eq_ok_iff.mpr ⟨r, hrun, hr.result?_eq⟩

end Expr

end Reckoner
