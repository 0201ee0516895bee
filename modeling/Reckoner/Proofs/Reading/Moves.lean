/-
# Reckoner.Proofs.Reading.Moves — what one character can do to a reading.

`Move` lists the moves of the machine, without the expressions that it builds on the way, and
`move_of_step` says that there are no others. What follows from the shape of a move alone is read off
here: which characters the machine knows (`mem_of_run`), how many groups are open (`depth_of_run`), how
it comes to stand inside a mere point (`exists_of_run_eq_point`), and whether it awaits an operand.

That last question can be answered from the text alone, whatever has been read of it:
`AwaitsOperand cs` looks at the last character of `cs` that is no blank (`awaits_iff`).
-/
import Mathlib.Data.List.Induction
import Reckoner.Proofs.Reading.Derives

namespace Reckoner

/-! ## What a text says of itself -/

/-- **`operators`** — the characters that operators are written with. -/
def operators : List Char := ['+', '-', '*', '/']

/-- **`symbols`** — the characters of expressions that are no digits and no blanks. -/
def symbols : List Char := '.' :: '(' :: ')' :: operators

/-- **`AwaitsOperand cs`** — behind `cs` there should be an operand: `cs` is blank, or the last of its
characters that is no blank opens a group or is an operator. -/
inductive AwaitsOperand : List Char → Prop
  | start {b : List Char} : Blank b → AwaitsOperand b
  | behind {front b : List Char} {c : Char} : c ∈ '(' :: operators → Blank b →
      AwaitsOperand (front ++ c :: b)

theorem mem_symbols_of_mem_operators {c : Char} (h : c ∈ operators) : c ∈ symbols :=
  List.mem_cons_of_mem _ (List.mem_cons_of_mem _ (List.mem_cons_of_mem _ h))

theorem isDigit_eq_false_of_mem_symbols : ∀ c ∈ symbols, c.isDigit = false := by
  simp [symbols, operators]

theorem isWhite_eq_false_of_mem_symbols : ∀ c ∈ symbols, isWhite c = false := by
  simp [symbols, operators, isWhite]

theorem isBlank_eq_false_of_mem_symbols : ∀ c ∈ symbols, isBlank c = false := by
  simp [symbols, operators, isBlank]

theorem sign_mem_operators (op : Op) : op.sign ∈ operators := by
  cases op <;> decide

theorem AwaitsOperand.blank {cs : List Char} {c : Char} (h : AwaitsOperand cs)
    (hc : isBlank c = true) : AwaitsOperand (cs ++ [c]) := by
  cases h with
  | start hb => exact .start (blank_append hb (blank_singleton hc))
  | behind hmem hb =>
    rw [List.append_assoc]
    exact .behind hmem (blank_append hb (blank_singleton hc))

namespace Expr

namespace Reading

/-! ## Moves -/

/-- **`r.context`** — the context that the machine stands in. -/
def context : Reading → Context
  | before _ context => context
  | inside _ _ context => context
  | after _ context => context

/-- **`r.depth`** — how many groups are open. -/
def depth (r : Reading) : Nat := r.context.enclosing.length

/-- **`r.awaits`** — the machine stands in front of an operand. -/
def awaits : Reading → Bool
  | before .. => true
  | _ => false

/-- **`Move r c next`** — the character `c` can lead from a reading like `r` to one like `next`. -/
inductive Move : Reading → Char → Reading → Prop
  | wait {slot : Slot} {context : Context} {c : Char} : isBlank c = true →
      Move (before slot context) c (before slot context)
  | sign {slot slot' : Slot} {context : Context} {c : Char} : c ∈ operators →
      Move (before slot context) c (before slot' context)
  | open {slot : Slot} {context : Context} {waiting : Pending × Bool} :
      Move (before slot context) '(' (before .opening ⟨Pending.empty, waiting :: context.enclosing⟩)
  | digit {slot : Slot} {context : Context} {c : Char} {n : Numeral} {negated : Bool} :
      c.isDigit = true → n ≠ .point → Move (before slot context) c (inside n negated context)
  | point {slot : Slot} {context : Context} {negated : Bool} :
      Move (before slot context) '.' (inside .point negated context)
  | extend {n n' : Numeral} {negated : Bool} {context : Context} {c : Char} :
      c.isDigit = true ∨ c = '.' → n' ≠ .point →
      Move (inside n negated context) c (inside n' negated context)
  | rest {r : Reading} {e : Expr Decimal} {c : Char} : r.awaits = false → isBlank c = true →
      Move r c (after e r.context)
  | close {r : Reading} {e : Expr Decimal} {p q : Pending} {negated : Bool}
      {enclosing : List (Pending × Bool)} : r.awaits = false →
      r.context = ⟨p, (q, negated) :: enclosing⟩ → Move r ')' (after e ⟨q, enclosing⟩)
  | operate {r : Reading} {p : Pending} {c : Char} : r.awaits = false → c ∈ operators →
      Move r c (before .operand ⟨p, r.context.enclosing⟩)

variable {r next last : Reading} {c : Char} {cs : List Char}

theorem move_of_stepBefore {slot : Slot} {context : Context}
    (h : stepBefore slot context c = some next) : Move (before slot context) c next := by
  rw [stepBefore] at h
  split at h
  · rename_i hblank
    cases h
    exact .wait hblank
  split at h
  · rename_i hdigit
    cases h
    exact .digit hdigit (by simp)
  split at h
  · rename_i hpoint
    subst hpoint
    cases h
    exact .point
  split at h
  · rename_i hopen
    subst hopen
    cases h
    exact .open
  split at h
  · rename_i hminus
    cases h
    exact .sign (by rw [hminus.1]; decide)
  split at h
  · rename_i hplus
    cases h
    exact .sign (by rw [hplus.1]; decide)
  · cases h

theorem move_of_stepAfter {e : Expr Decimal} (hr : r.awaits = false)
    (h : stepAfter e r.context c = some next) : Move r c next := by
  rw [stepAfter] at h
  split at h
  · rename_i hblank
    cases h
    exact .rest hr hblank
  split at h
  · rename_i hclose
    subst hclose
    split at h
    · cases h
    · rename_i outer negated enclosing henclosing
      cases h
      exact .close (p := r.context.pending) hr (by rw [← henclosing])
  · obtain ⟨op, hop, rfl⟩ := Option.map_eq_some_iff.mp h
    rw [opOf?_eq_some hop]
    exact .operate hr (sign_mem_operators op)

theorem move_of_extend {n n' : Numeral} {negated : Bool} {context : Context}
    (h : n.extend c = some n') : Move (inside n negated context) c (inside n' negated context) := by
  have hchar : (c.isDigit = true ∨ c = '.') ∧ n' ≠ .point := by
    cases n with
    | whole d =>
      rw [Numeral.extend] at h
      split at h
      · rename_i hdigit
        cases h
        exact ⟨.inl hdigit, by simp⟩
      split at h
      · rename_i hpoint
        cases h
        exact ⟨.inr hpoint, by simp⟩
      · cases h
    | point | fraction d k =>
      rw [Numeral.extend] at h
      split at h
      · rename_i hdigit
        cases h
        exact ⟨.inl hdigit, by simp⟩
      · cases h
  exact .extend hchar.1 hchar.2

/-- The machine makes no other moves. -/
theorem move_of_step (h : r.step c = some next) : Move r c next := by
  cases r with
  | before slot context => exact move_of_stepBefore h
  | after e context => exact move_of_stepAfter (r := after e context) rfl h
  | inside n negated context =>
    cases hext : n.extend c with
    | some n' =>
      rw [step_inside hext] at h
      cases h
      exact move_of_extend hext
    | none =>
      rw [step, hext] at h
      obtain ⟨d, -, hafter⟩ := Option.bind_eq_some_iff.mp h
      exact move_of_stepAfter (r := inside n negated context) rfl hafter

/-! ## What is read off a move -/

theorem Move.mem (h : Move r c next) :
    isBlank c = true ∨ c.isDigit = true ∨ c ∈ symbols := by
  cases h with
  | wait hblank | rest _ hblank => exact .inl hblank
  | digit hdigit _ => exact .inr (.inl hdigit)
  | «open» | point | close => exact .inr (.inr (by decide))
  | sign hmem | operate _ hmem => exact .inr (.inr (mem_symbols_of_mem_operators hmem))
  | extend hchar _ =>
    rcases hchar with hdigit | rfl
    · exact .inr (.inl hdigit)
    · exact .inr (.inr (by decide))

/-- In front of an operand no group can be closed. -/
theorem Move.not_awaits_of_close (h : Move r ')' next) : r.awaits = false := by
  cases h with
  | wait hblank => cases hblank
  | sign hmem => exact absurd hmem (by decide)
  | digit hdigit _ => cases hdigit
  | extend _ _ => rfl
  | rest hr _ | close hr _ | operate hr _ => exact hr

/-- Behind an operator or an opening parenthesis the machine awaits an operand. -/
theorem Move.awaits_of_mem (h : Move r c next) (hc : c ∈ '(' :: operators) :
    next.awaits = true := by
  have hsymbol : c ∈ symbols := by
    rcases List.mem_cons.mp hc with rfl | hop
    · decide
    · exact mem_symbols_of_mem_operators hop
  cases h with
  | wait _ | sign _ | «open» | operate _ _ => rfl
  | digit hdigit _ =>
    rw [isDigit_eq_false_of_mem_symbols c hsymbol] at hdigit
    cases hdigit
  | extend hchar _ =>
    rcases hchar with hdigit | rfl
    · rw [isDigit_eq_false_of_mem_symbols c hsymbol] at hdigit
      cases hdigit
    · exact absurd hc (by decide)
  | rest _ hblank =>
    rw [isBlank_eq_false_of_mem_symbols c hsymbol] at hblank
    cases hblank
  | point | close _ _ => exact absurd hc (by decide)

/-- The machine comes to await an operand by such a character, or it did so before a blank. -/
theorem Move.of_awaits (h : Move r c next) (hnext : next.awaits = true) :
    c ∈ '(' :: operators ∨ isBlank c = true ∧ r.awaits = true := by
  cases h with
  | wait hblank => exact .inr ⟨hblank, rfl⟩
  | «open» => exact .inl List.mem_cons_self
  | sign hmem | operate _ hmem => exact .inl (List.mem_cons_of_mem _ hmem)
  | digit _ _ | point | extend _ _ | rest _ _ | close _ _ => cases hnext

/-- A blank does not make the machine await an operand, nor stop doing so. -/
theorem Move.awaits_of_blank (h : Move r c next) (hc : isBlank c = true) :
    next.awaits = r.awaits := by
  cases h with
  | wait _ | sign _ | «open» => rfl
  | digit hdigit _ =>
    rw [isDigit_eq_false_of_isBlank hc] at hdigit
    cases hdigit
  | point => cases hc
  | extend _ _ => rfl
  | rest hr _ | close hr _ => exact hr.symm
  | operate _ hmem =>
    rw [isBlank_eq_false_of_mem_symbols c (mem_symbols_of_mem_operators hmem)] at hc
    cases hc

/-- Parentheses open and close groups, and nothing else does. -/
theorem Move.depth (h : Move r c next) :
    next.depth + [c].count ')' = r.depth + [c].count '(' := by
  have hother (hne : c ≠ '(' ∧ c ≠ ')') (hsame : next.depth = r.depth) :
      next.depth + [c].count ')' = r.depth + [c].count '(' := by
    rw [hsame, List.count_cons_of_ne hne.1, List.count_cons_of_ne hne.2]
    rfl
  cases h with
  | «open» => rfl
  | close _ hr =>
    rw [Reading.depth, Reading.depth, hr]
    rfl
  | point => rfl
  | wait hblank | rest _ hblank =>
    refine hother ⟨?_, ?_⟩ rfl <;> rintro rfl <;> cases hblank
  | sign hmem | operate _ hmem =>
    refine hother ⟨?_, ?_⟩ rfl <;> rintro rfl <;> exact absurd hmem (by decide)
  | digit hdigit _ =>
    refine hother ⟨?_, ?_⟩ rfl <;> rintro rfl <;> cases hdigit
  | extend hchar _ =>
    refine hother ⟨?_, ?_⟩ rfl <;> rintro rfl <;> exact absurd hchar (by decide)

/-- Only a point in front of an operand leads inside a mere point. -/
theorem Move.of_point {negated : Bool} {context : Context}
    (h : Move r c (inside .point negated context)) : c = '.' ∧ r.awaits = true := by
  cases h with
  | digit _ hne | extend _ hne => exact absurd rfl hne
  | point => exact ⟨rfl, rfl⟩

/-! ## Runs -/

/-- A run over a text is a run over the part in front and then one over the rest. -/
theorem run_append_eq_bind (r : Reading) (as bs : List Char) :
    r.run (as ++ bs) = (r.run as).bind fun mid => mid.run bs := by
  induction as generalizing r with
  | nil => rfl
  | cons a as ih =>
    rw [List.cons_append, run, run, Option.bind_assoc]
    simp only [ih]

theorem exists_of_run_append {as bs : List Char} (h : r.run (as ++ bs) = some last) :
    ∃ mid, r.run as = some mid ∧ mid.run bs = some last := by
  rw [run_append_eq_bind] at h
  exact Option.bind_eq_some_iff.mp h

theorem run_singleton : r.run [c] = r.step c := by
  rw [run]
  cases r.step c <;> rfl

theorem exists_of_run_concat (h : r.run (cs ++ [c]) = some last) :
    ∃ mid, r.run cs = some mid ∧ Move mid c last := by
  obtain ⟨mid, hmid, hlast⟩ := exists_of_run_append h
  rw [run_singleton] at hlast
  exact ⟨mid, hmid, move_of_step hlast⟩

theorem mem_of_run (h : r.run cs = some last) :
    ∀ c ∈ cs, isBlank c = true ∨ c.isDigit = true ∨ c ∈ symbols := by
  induction cs generalizing r with
  | nil =>
    intro c hc
    cases hc
  | cons a cs ih =>
    obtain ⟨next, hstep, hnext⟩ := Option.bind_eq_some_iff.mp h
    intro c hc
    rcases List.mem_cons.mp hc with rfl | hc
    · exact (move_of_step hstep).mem
    · exact ih hnext c hc

/-- What is still open has been opened and not closed. -/
theorem depth_of_run (h : r.run cs = some last) :
    last.depth + cs.count ')' = r.depth + cs.count '(' := by
  induction cs generalizing r with
  | nil =>
    obtain rfl := Option.some.inj h
    rfl
  | cons a cs ih =>
    obtain ⟨next, hstep, hnext⟩ := Option.bind_eq_some_iff.mp h
    have hmove := (move_of_step hstep).depth
    have hrest := ih hnext
    rw [← List.singleton_append, List.count_append, List.count_append]
    omega

theorem exists_of_run_eq_point {negated : Bool} {context : Context}
    (h : start.run cs = some (inside .point negated context)) :
    ∃ front r, cs = front ++ ['.'] ∧ start.run front = some r ∧ r.awaits = true := by
  rcases List.eq_nil_or_concat cs with rfl | ⟨front, c, rfl⟩
  · cases h
  · rw [List.concat_eq_append] at h ⊢
    obtain ⟨r, hr, hmove⟩ := exists_of_run_concat h
    obtain ⟨rfl, hawaits⟩ := hmove.of_point
    exact ⟨front, r, rfl, hr, hawaits⟩

/-! ## Awaiting an operand -/

theorem awaits_of_run_blank {b : List Char} (hb : Blank b) (h : r.run b = some last) :
    last.awaits = r.awaits := by
  induction b generalizing r with
  | nil =>
    obtain rfl := Option.some.inj h
    rfl
  | cons c b ih =>
    obtain ⟨hc, hb⟩ := blank_cons.mp hb
    obtain ⟨next, hstep, hnext⟩ := Option.bind_eq_some_iff.mp h
    rw [ih hb hnext, (move_of_step hstep).awaits_of_blank hc]

/-- The text that has been read tells whether the machine awaits an operand. -/
theorem awaits_iff (h : start.run cs = some r) : r.awaits = true ↔ AwaitsOperand cs := by
  constructor
  · intro hr
    -- from the last character backwards: over blanks, up to one that is none
    induction cs using List.reverseRecOn generalizing r with
    | nil => exact .start blank_nil
    | append_singleton cs c ih =>
      obtain ⟨mid, hmid, hmove⟩ := exists_of_run_concat h
      rcases hmove.of_awaits hr with hmem | ⟨hblank, hawaits⟩
      · exact .behind hmem blank_nil
      · exact (ih hmid hawaits).blank hblank
  · intro hcs
    cases hcs with
    | start hb => rw [awaits_of_run_blank hb h, start, awaits]
    | @behind front b c hmem hb =>
      rw [← List.singleton_append, ← List.append_assoc] at h
      obtain ⟨mid, hmid, hlast⟩ := exists_of_run_append h
      obtain ⟨before, -, hmove⟩ := exists_of_run_concat hmid
      rw [awaits_of_run_blank hb hlast, hmove.awaits_of_mem hmem]

/-- Where an operand is awaited, the text cannot end. -/
theorem result?_of_awaits (h : r.awaits = true) : r.result? = none := by
  cases r with
  | before _ _ => rfl
  | inside _ _ _ | after _ _ => cases h

end Reading

end Expr

end Reckoner
