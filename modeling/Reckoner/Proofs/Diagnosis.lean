/-
# Reckoner.Proofs.Diagnosis — how the characters of a text decide what parsing says of it.

A `Flaw` is something wrong with a text that shows in its characters: no grammar is needed to see it,
only prefixes, counts and white space. The flaws are ranked, and the first one that a text has is what
parsing reports (`parse_first_flaw`). Parsing itself looks for the last three kinds only after the
machine has failed. So what has to be known is that it does fail: with a foreign character there is no
move, and where an operand is awaited neither a group nor the text can end.

That an operand is awaited is told by the last character that is no blank. The flaws look past every
white space instead, but white space that is no blank stops the machine as a foreign character does.
-/
import Reckoner.Proofs.Parse
import Reckoner.Proofs.Reading.Moves
import Reckoner.Proofs.Text

namespace Reckoner

/-! ## Flaws -/

/-- **`Foreign c`** — neither white space nor a character that some expression is written with. -/
def Foreign (c : Char) : Prop := c.isDigit = false ∧ isWhite c = false ∧ c ∉ symbols

instance (c : Char) : Decidable (Foreign c) :=
  inferInstanceAs (Decidable (c.isDigit = false ∧ isWhite c = false ∧ c ∉ symbols))

instance (cs : List Char) : Decidable (White cs) :=
  decidable_of_iff (cs.all isWhite = true) List.all_eq_true

/-- **`Flaw`** — something wrong with a text by its characters alone, a foreign character together with
its position. -/
inductive Flaw
  | blank
  | unbalanced
  | tooDeep
  | foreign (c : Char) (index : Nat)
  | emptyGroup
  | trailingOperator

namespace Flaw

/-- **`flaw.In cs`** — the text has that flaw. -/
inductive In : Flaw → List Char → Prop
  | blank {cs : List Char} : White cs → In blank cs
  | unbalanced {cs : List Char} : ¬ Balanced cs → In unbalanced cs
  | tooDeep {cs : List Char} : ¬ NestsWithin 256 cs → In tooDeep cs
  | foreign {front rest : List Char} {c : Char} : (∀ x ∈ front, ¬ Foreign x) → Foreign c →
      In (foreign c front.length) (front ++ c :: rest)
  | emptyGroup {front white rest : List Char} : White white →
      In emptyGroup (front ++ '(' :: white ++ ')' :: rest)
  | trailingOperator {front white : List Char} {c : Char} : c ∈ operators → White white →
      In trailingOperator (front ++ c :: white)

/-- **`flaw.rank`** — the order in which the flaws are considered. -/
def rank : Flaw → Nat
  | blank => 0
  | unbalanced => 1
  | tooDeep => 2
  | foreign .. => 3
  | emptyGroup => 4
  | trailingOperator => 5

/-- **`flaw.failure`** — what a flaw is reported as. -/
def failure : Flaw → Failure
  | blank => .invalid .empty
  | unbalanced => .unbalancedParentheses
  | tooDeep => .invalid (.tooDeeplyNested 256)
  | foreign c index => .invalid (.unexpectedCharacter c index)
  | emptyGroup => .invalid .emptyGroup
  | trailingOperator => .invalid .trailingOperator

theorem failure_injective : Function.Injective failure := by
  intro flaw other h
  cases flaw <;> cases other <;> cases h <;> rfl

/-- **`FreeBelow rank cs`** — the text has no flaw that is considered before that rank. -/
def FreeBelow (rank : Nat) (cs : List Char) : Prop :=
  ∀ flaw : Flaw, flaw.rank < rank → ¬ flaw.In cs

/-- **`flaw.FirstIn cs`** — the text has that flaw, and none that is considered before it. -/
structure FirstIn (flaw : Flaw) (cs : List Char) : Prop where
  mem : flaw.In cs
  free : FreeBelow flaw.rank cs

theorem exists_firstIn {flaw : Flaw} {cs : List Char} (h : flaw.In cs) :
    ∃ first : Flaw, first.FirstIn cs := by
  by_cases hfree : FreeBelow flaw.rank cs
  · exact ⟨flaw, h, hfree⟩
  · simp only [FreeBelow, not_forall, not_not] at hfree
    obtain ⟨other, _, hother⟩ := hfree
    exact exists_firstIn hother
termination_by flaw.rank

end Flaw

open Flaw

variable {cs : List Char}

/-! ## Foreign characters -/

theorem belongs_eq_false_iff {c : Char} : belongs c = false ↔ Foreign c := by
  simp only [belongs, isOperator, Foreign, symbols, operators, Bool.or_eq_false_iff,
    beq_eq_false_iff_ne, List.mem_cons, List.not_mem_nil, or_false, not_or]
  tauto

theorem firstForeign_of_forall_not_foreign (h : ∀ c ∈ cs, ¬ Foreign c) (index : Nat) :
    firstForeign index cs = none := by
  induction cs generalizing index with
  | nil => rfl
  | cons c cs ih =>
    obtain ⟨hc, hcs⟩ := List.forall_mem_cons.mp h
    rw [← belongs_eq_false_iff, Bool.not_eq_false] at hc
    rw [firstForeign, if_pos hc, ih hcs]

theorem firstForeign_append_cons {front rest : List Char} {c : Char}
    (hfront : ∀ x ∈ front, ¬ Foreign x) (hc : Foreign c) (index : Nat) :
    firstForeign index (front ++ c :: rest) = some (c, index + front.length) := by
  induction front generalizing index with
  | nil =>
    rw [← belongs_eq_false_iff] at hc
    rw [List.nil_append, firstForeign, hc]
    rfl
  | cons x front ih =>
    obtain ⟨hx, hfront⟩ := List.forall_mem_cons.mp hfront
    rw [← belongs_eq_false_iff, Bool.not_eq_false] at hx
    rw [List.cons_append, firstForeign, if_pos hx, ih hfront, List.length_cons, Nat.add_assoc,
      Nat.add_comm 1]

/-- Where there is a foreign character, there is a first one. -/
theorem exists_in_foreign (h : ¬ ∀ c ∈ cs, ¬ Foreign c) :
    ∃ c index, (Flaw.foreign c index).In cs := by
  induction cs with
  | nil => simp at h
  | cons c cs ih =>
    by_cases hc : Foreign c
    · exact ⟨c, 0, @Flaw.In.foreign [] cs c (by simp) hc⟩
    · obtain ⟨d, index, hd⟩ := ih fun hcs => h (List.forall_mem_cons.mpr ⟨hc, hcs⟩)
      cases hd with
      | @foreign front rest _ hfront hd =>
        exact ⟨d, _, @Flaw.In.foreign (c :: front) rest d (List.forall_mem_cons.mpr ⟨hc, hfront⟩) hd⟩

/-! ## Texts without the first flaws -/

namespace Flaw.FreeBelow

variable {rank : Nat}

theorem not_white (h : FreeBelow rank cs) (hrank : 0 < rank) : ¬ White cs :=
  fun hwhite => h .blank hrank (.blank hwhite)

theorem balanced (h : FreeBelow rank cs) (hrank : 1 < rank) : Balanced cs :=
  not_not.mp fun hbalanced => h .unbalanced hrank (.unbalanced hbalanced)

theorem nestsWithin (h : FreeBelow rank cs) (hrank : 2 < rank) : NestsWithin 256 cs :=
  not_not.mp fun hdeep => h .tooDeep hrank (.tooDeep hdeep)

theorem not_foreign (h : FreeBelow rank cs) (hrank : 3 < rank) : ∀ c ∈ cs, ¬ Foreign c := by
  by_contra hforeign
  obtain ⟨c, index, hin⟩ := exists_in_foreign hforeign
  exact h (.foreign c index) hrank hin

end Flaw.FreeBelow

theorem freeBelow_four (hwhite : ¬ White cs) (hbalanced : Balanced cs) (hnests : NestsWithin 256 cs)
    (hforeign : ∀ c ∈ cs, ¬ Foreign c) : FreeBelow 4 cs := by
  intro flaw hrank hin
  cases hin with
  | blank hw => exact hwhite hw
  | unbalanced hb => exact hb hbalanced
  | tooDeep hd => exact hd hnests
  | @foreign front rest c _ hc =>
    exact hforeign c (List.mem_append_right front List.mem_cons_self) hc
  | emptyGroup _ | trailingOperator _ _ => exact absurd hrank (by decide)

/-! ## What the diagnosis sees past white space -/

theorem withoutWhite_eq_nil_iff : withoutWhite cs = [] ↔ White cs := by
  rw [withoutWhite, List.filter_eq_nil_iff]
  simp only [Bool.not_eq_true', Bool.not_eq_false, White]

theorem withoutWhite_cons {c : Char} (hc : isWhite c = false) (cs : List Char) :
    withoutWhite (c :: cs) = c :: withoutWhite cs := List.filter_cons_of_pos (by rw [hc]; rfl)

theorem withoutWhite_append (as bs : List Char) :
    withoutWhite (as ++ bs) = withoutWhite as ++ withoutWhite bs := List.filter_append as bs

/-- A character that remains has white space around it, and the rest remains as well. -/
theorem withoutWhite_eq_cons {c : Char} {rest : List Char} (h : withoutWhite cs = c :: rest) :
    ∃ white tail, cs = white ++ c :: tail ∧ White white ∧ withoutWhite tail = rest := by
  obtain ⟨white, tail, rfl, hwhite, -, htail⟩ := List.filter_eq_cons_iff.mp h
  refine ⟨white, tail, rfl, fun x hx => ?_, htail⟩
  simpa using hwhite x hx

theorem emptyGroup_infix_iff :
    ['(', ')'] <:+: withoutWhite cs ↔ Flaw.emptyGroup.In cs := by
  constructor
  · rintro ⟨front, rest, h⟩
    rw [List.append_assoc] at h
    obtain ⟨before, mid, rfl, -, hmid⟩ := List.filter_eq_append_iff.mp h.symm
    obtain ⟨white, tail, rfl, -, htail⟩ := withoutWhite_eq_cons hmid
    obtain ⟨inner, last, rfl, hinner, -⟩ := withoutWhite_eq_cons htail
    have hin := @Flaw.In.emptyGroup (before ++ white) inner last hinner
    simp only [List.append_assoc, List.cons_append] at hin
    exact hin
  · intro h
    cases h with
    | @emptyGroup front white rest hwhite =>
      refine ⟨withoutWhite front, withoutWhite rest, ?_⟩
      rw [withoutWhite_append, withoutWhite_append, withoutWhite_cons rfl, withoutWhite_cons rfl,
        withoutWhite_eq_nil_iff.mpr hwhite, List.append_assoc, List.append_assoc]
      rfl

theorem isOperator_eq_true_iff {c : Char} : isOperator c = true ↔ c ∈ operators := by
  simp only [isOperator, operators, Bool.or_eq_true, beq_iff_eq, List.mem_cons, List.not_mem_nil,
    or_false, or_assoc]

theorem trailingOperator_iff :
    (withoutWhite cs).getLast?.any isOperator = true ↔ Flaw.trailingOperator.In cs := by
  constructor
  · intro h
    obtain ⟨c, hlast, hc⟩ := (Option.any_eq_true _ _).mp h
    obtain ⟨front, hfront⟩ := List.getLast?_eq_some_iff.mp hlast
    obtain ⟨before, mid, rfl, -, hmid⟩ := List.filter_eq_append_iff.mp hfront
    obtain ⟨white, tail, rfl, -, htail⟩ := withoutWhite_eq_cons hmid
    rw [← List.append_assoc]
    exact .trailingOperator (isOperator_eq_true_iff.mp hc) (withoutWhite_eq_nil_iff.mp htail)
  · intro h
    cases h with
    | @trailingOperator front white c hc hwhite =>
      have hnot := isWhite_eq_false_of_mem_symbols c (mem_symbols_of_mem_operators hc)
      rw [withoutWhite_append, withoutWhite_cons hnot, withoutWhite_eq_nil_iff.mpr hwhite,
        List.getLast?_concat, Option.any_some, isOperator_eq_true_iff.mpr hc]

/-! ## The diagnosis -/

theorem diagnose_foreign {c : Char} {index : Nat} (h : (Flaw.foreign c index).In cs)
    (position : Nat) : diagnose cs position = .unexpectedCharacter c index := by
  cases h with
  | foreign hfront hc => rw [diagnose, firstForeign_append_cons hfront hc, Nat.zero_add]

theorem diagnose_emptyGroup (hforeign : ∀ c ∈ cs, ¬ Foreign c) (h : Flaw.emptyGroup.In cs)
    (position : Nat) : diagnose cs position = .emptyGroup := by
  rw [diagnose, firstForeign_of_forall_not_foreign hforeign]
  exact if_pos (occursIn_iff.mpr (emptyGroup_infix_iff.mpr h))

theorem diagnose_trailingOperator (hforeign : ∀ c ∈ cs, ¬ Foreign c)
    (hgroup : ¬ Flaw.emptyGroup.In cs) (h : Flaw.trailingOperator.In cs) (position : Nat) :
    diagnose cs position = .trailingOperator := by
  rw [← emptyGroup_infix_iff, ← occursIn_iff] at hgroup
  rw [diagnose, firstForeign_of_forall_not_foreign hforeign]
  exact (if_neg hgroup).trans (if_pos (trailingOperator_iff.mpr h))

theorem diagnose_malformed (hforeign : ∀ c ∈ cs, ¬ Foreign c) (hgroup : ¬ Flaw.emptyGroup.In cs)
    (hoperator : ¬ Flaw.trailingOperator.In cs) (position : Nat) :
    diagnose cs position = .malformed position := by
  rw [← emptyGroup_infix_iff, ← occursIn_iff] at hgroup
  rw [← trailingOperator_iff] at hoperator
  rw [diagnose, firstForeign_of_forall_not_foreign hforeign]
  exact (if_neg hgroup).trans (if_neg hoperator)

/-! ## No text of the grammar has a flaw but deep nesting -/

namespace Expr

open Grammar Reading

/-- The machine takes no white space but blanks. -/
theorem blank_of_white_of_run {r last : Reading} {white : List Char} (hwhite : White white)
    (h : r.run white = some last) : Blank white := by
  intro c hc
  rcases mem_of_run h c hc with hblank | hdigit | hsymbol
  · exact isBlank_iff_mem.mp hblank
  · have hw := hwhite c hc
    rw [isWhite_eq_false_of_isDigit hdigit] at hw
    cases hw
  · have hw := hwhite c hc
    rw [isWhite_eq_false_of_mem_symbols c hsymbol] at hw
    cases hw

/-- Where the machine has come by an operator or an opening parenthesis and white space, it awaits an
operand. -/
theorem awaits_of_run_white {last : Reading} {front white : List Char} {c : Char}
    (hc : c ∈ '(' :: operators) (hwhite : White white)
    (h : start.run (front ++ c :: white) = some last) : last.awaits = true := by
  rw [awaits_iff h]
  rw [← List.singleton_append, ← List.append_assoc] at h
  obtain ⟨mid, -, hmid⟩ := exists_of_run_append h
  exact .behind hc (blank_of_white_of_run hwhite hmid)

theorem not_foreign_of_run {r last : Reading} (h : r.run cs = some last) : ∀ c ∈ cs, ¬ Foreign c := by
  rintro c hc ⟨hdigit, hwhite, hsymbol⟩
  rcases mem_of_run h c hc with hblank | hdigit' | hsymbol'
  · rw [isWhite_of_isBlank hblank] at hwhite
    cases hwhite
  · rw [hdigit'] at hdigit
    cases hdigit
  · exact hsymbol hsymbol'

theorem not_layered_of_flaw {flaw : Flaw} (h : flaw.In cs) (hdeep : flaw ≠ .tooDeep)
    (e : Expr Decimal) : ¬ Layered .text cs e := by
  intro htext
  obtain ⟨last, hrun, hlast⟩ := finish_eq_ok_iff.mp (read_eq_ok_iff.mpr htext)
  cases h with
  | blank hwhite =>
    obtain ⟨c, hc, hnot⟩ := htext.exists_not_white
    exact not_mem_of_white hwhite hnot hc
  | unbalanced hbalanced => exact hbalanced htext.balanced
  | tooDeep _ => exact hdeep rfl
  | @foreign front rest c _ hc =>
    exact not_foreign_of_run hrun c (List.mem_append_right front List.mem_cons_self) hc
  | @emptyGroup front white rest hwhite =>
    -- the operand that is awaited behind `(` is not there when `)` comes
    obtain ⟨mid, hmid, hrest⟩ := exists_of_run_append hrun
    obtain ⟨next, hstep, -⟩ := Option.bind_eq_some_iff.mp hrest
    have hawaits := awaits_of_run_white List.mem_cons_self hwhite hmid
    rw [(move_of_step hstep).not_awaits_of_close] at hawaits
    cases hawaits
  | @trailingOperator front white c hc hwhite =>
    have hawaits := awaits_of_run_white (List.mem_cons_of_mem _ hc) hwhite hrun
    rw [result?_of_awaits hawaits] at hlast
    cases hlast

/-! ## The outcome of parsing -/

theorem parseDecimal_of_white (hwhite : White cs) :
    parseDecimal cs = .error (.invalid .empty) := by
  rw [parseDecimal, if_pos (List.all_eq_true.mpr hwhite)]

theorem parseDecimal_of_not_white (hwhite : ¬ White cs) :
    parseDecimal cs =
      match nesting? cs with
      | none => .error .unbalancedParentheses
      | some depth =>
        if maxNesting < depth then .error (.invalid (.tooDeeplyNested maxNesting))
        else
          match read cs with
          | .ok e => .ok e
          | .error position => .error (.invalid (diagnose cs position)) := by
  rw [parseDecimal]
  exact if_neg fun hall => hwhite (List.all_eq_true.mp hall)

theorem parseDecimal_of_unbalanced (hwhite : ¬ White cs) (hbalanced : ¬ Balanced cs) :
    parseDecimal cs = .error .unbalancedParentheses := by
  rw [← nesting?_isSome_iff, Option.not_isSome_iff_eq_none] at hbalanced
  rw [parseDecimal_of_not_white hwhite, hbalanced]

theorem parseDecimal_of_deep (hwhite : ¬ White cs) (hbalanced : Balanced cs)
    (hdeep : ¬ NestsWithin 256 cs) :
    parseDecimal cs = .error (.invalid (.tooDeeplyNested 256)) := by
  obtain ⟨depth, hdepth⟩ := Option.isSome_iff_exists.mp (nesting?_isSome_iff.mpr hbalanced)
  rw [← nesting?_le_iff hdepth, Nat.not_le] at hdeep
  rw [parseDecimal_of_not_white hwhite, hdepth]
  exact if_pos hdeep

theorem parseDecimal_of_nests (hwhite : ¬ White cs) (hbalanced : Balanced cs)
    (hnests : NestsWithin 256 cs) :
    parseDecimal cs =
      match read cs with
      | .ok e => .ok e
      | .error position => .error (.invalid (diagnose cs position)) := by
  obtain ⟨depth, hdepth⟩ := Option.isSome_iff_exists.mp (nesting?_isSome_iff.mpr hbalanced)
  rw [← nesting?_le_iff hdepth] at hnests
  rw [parseDecimal_of_not_white hwhite, hdepth]
  exact if_neg (Nat.not_lt.mpr hnests)

theorem parse_eq_error_iff {text : String} {failure : Failure} :
    parse text = .error failure ↔ parseDecimal text.toList = .error failure := by
  rw [parse]
  cases parseDecimal text.toList with
  | ok e =>
    constructor
    · intro h
      cases h
    · intro h
      cases h
  | error other => exact ⟨fun h => by rw [Except.error.inj h], fun h => by rw [Except.error.inj h]; rfl⟩

/-- The last three kinds of flaw are left to the diagnosis: the checks in front of the machine pass, and
the machine fails. -/
theorem exists_parseDecimal_eq_diagnose {flaw : Flaw} (h : flaw.FirstIn cs) (hrank : 2 < flaw.rank) :
    ∃ position, parseDecimal cs = .error (.invalid (diagnose cs position)) := by
  have hdeep : flaw ≠ .tooDeep := by
    rintro rfl
    exact Nat.lt_irrefl _ hrank
  rw [parseDecimal_of_nests (h.free.not_white (by omega)) (h.free.balanced (by omega))
    (h.free.nestsWithin hrank)]
  cases hread : read cs with
  | ok e => exact absurd (read_eq_ok_iff.mp hread) (not_layered_of_flaw h.mem hdeep e)
  | error position => exact ⟨position, rfl⟩

/-- The flaw that is considered first is what parsing reports. -/
theorem parseDecimal_of_firstIn {flaw : Flaw} (h : flaw.FirstIn cs) :
    parseDecimal cs = .error flaw.failure := by
  have hdiagnosed := exists_parseDecimal_eq_diagnose h
  obtain ⟨hin, hfree⟩ := h
  cases flaw with
  | blank =>
    cases hin with
    | blank hwhite => exact parseDecimal_of_white hwhite
  | unbalanced =>
    cases hin with
    | unbalanced hbalanced =>
      exact parseDecimal_of_unbalanced (hfree.not_white (by decide)) hbalanced
  | tooDeep =>
    cases hin with
    | tooDeep hdeep =>
      exact parseDecimal_of_deep (hfree.not_white (by decide)) (hfree.balanced (by decide)) hdeep
  | foreign c index =>
    obtain ⟨position, hparse⟩ := hdiagnosed (Nat.lt_succ_self 2)
    rw [hparse, diagnose_foreign hin]
    rfl
  | emptyGroup =>
    obtain ⟨position, hparse⟩ := hdiagnosed (by decide)
    rw [hparse, diagnose_emptyGroup (hfree.not_foreign (by decide)) hin]
    rfl
  | trailingOperator =>
    obtain ⟨position, hparse⟩ := hdiagnosed (by decide)
    rw [hparse, diagnose_trailingOperator (hfree.not_foreign (by decide)) (hfree _ (by decide)) hin]
    rfl

/-- A text without flaws is read, or it is malformed where the machine stops. -/
theorem parseDecimal_of_free (h : FreeBelow 6 cs) :
    parseDecimal cs =
      match read cs with
      | .ok e => .ok e
      | .error position => .error (.invalid (.malformed position)) := by
  rw [parseDecimal_of_nests (h.not_white (by decide)) (h.balanced (by decide))
    (h.nestsWithin (by decide))]
  cases read cs with
  | ok e => rfl
  | error position =>
    simp only [diagnose_malformed (h.not_foreign (by decide)) (h .emptyGroup (by decide))
      (h .trailingOperator (by decide))]

/-- Where parsing reports no flaw, there is none. -/
theorem free_of_parseDecimal (h : ∀ flaw : Flaw, parseDecimal cs ≠ .error flaw.failure) :
    FreeBelow 6 cs := by
  intro flaw _ hin
  obtain ⟨first, hfirst⟩ := exists_firstIn hin
  exact h first (parseDecimal_of_firstIn hfirst)

/-- A text is refused for its first flaw, or it is malformed. -/
theorem exists_firstIn_or_malformed {failure : Failure} (h : parseDecimal cs = .error failure) :
    (∃ flaw : Flaw, flaw.FirstIn cs ∧ failure = flaw.failure) ∨
      ∃ position, failure = .invalid (.malformed position) := by
  by_cases hfree : FreeBelow 6 cs
  · rw [parseDecimal_of_free hfree] at h
    cases hread : read cs with
    | ok e =>
      rw [hread] at h
      cases h
    | error position =>
      rw [hread] at h
      exact .inr ⟨position, (Except.error.inj h).symm⟩
  · simp only [FreeBelow, not_forall, not_not] at hfree
    obtain ⟨flaw, -, hin⟩ := hfree
    obtain ⟨first, hfirst⟩ := exists_firstIn hin
    rw [parseDecimal_of_firstIn hfirst] at h
    exact .inl ⟨first, hfirst, (Except.error.inj h).symm⟩

/-- What is reported as a flaw is the first flaw of the text. -/
theorem firstIn_of_parseDecimal {flaw : Flaw} (h : parseDecimal cs = .error flaw.failure) :
    flaw.FirstIn cs := by
  rcases exists_firstIn_or_malformed h with ⟨first, hfirst, hsame⟩ | ⟨position, hmalformed⟩
  · rwa [failure_injective hsame]
  · cases flaw <;> cases hmalformed

/-- **`parse_first_flaw`** — the first flaw of a text, if it has one, is what parsing reports, whatever
else is wrong with the text; and the texts without a flaw are those that are either read or malformed at
some position. So no text with a flaw is ever read. The bound on nesting is a rule of its own; every
other flaw is one that no text of the grammar has. -/
theorem parse_first_flaw (text : String) :
    (∀ flaw : Flaw, flaw.FirstIn text.toList → parse text = .error flaw.failure) ∧
    ((∀ flaw : Flaw, ¬ flaw.In text.toList) ↔
      (∃ t, parse text = .ok t) ∨
        ∃ position, parse text = .error (.invalid (.malformed position))) ∧
    ∀ flaw : Flaw, flaw.In text.toList →
      (∀ t, parse text ≠ .ok t) ∧ (flaw ≠ .tooDeep → ¬ Flat .text text.toList) := by
  have hfirst {flaw : Flaw} (h : flaw.FirstIn text.toList) : parse text = .error flaw.failure :=
    parse_eq_error_iff.mpr (parseDecimal_of_firstIn h)
  refine ⟨fun flaw => hfirst, ⟨?_, ?_⟩, ?_⟩
  · intro hnone
    have hfree : FreeBelow 6 text.toList := fun flaw _ => hnone flaw
    have hparse := parseDecimal_of_free hfree
    cases hread : read text.toList with
    | ok e =>
      rw [hread] at hparse
      exact .inl ⟨_, parse_eq_ok_iff.mpr ⟨e, hparse, rfl⟩⟩
    | error position =>
      rw [hread] at hparse
      exact .inr ⟨position, parse_eq_error_iff.mpr hparse⟩
  · -- a flaw would be reported, or one that is considered before it
    intro hparse flaw hin
    obtain ⟨first, h⟩ := exists_firstIn hin
    have herror := hfirst h
    rcases hparse with ⟨t, ht⟩ | ⟨position, hposition⟩
    · rw [ht] at herror
      cases herror
    · rw [hposition] at herror
      cases first <;> cases herror
  · intro flaw hin
    obtain ⟨first, h⟩ := exists_firstIn hin
    constructor
    · intro t ht
      rw [hfirst h] at ht
      cases ht
    · intro hdeep hflat
      obtain ⟨e, he⟩ := exists_layered_of_flat hflat
      exact not_layered_of_flaw hin hdeep e he

/-- A group with nothing but a no-break space in it comes before an operator at the end. -/
theorem parse_first_flaw_of_no_break_space :
    Flaw.emptyGroup.FirstIn "6*(\u00a0)-".toList ∧
      parse "6*(\u00a0)-" = .error (.invalid .emptyGroup) ∧
      ¬ Flat .text "6*(\u00a0)-".toList := by
  have hin : Flaw.emptyGroup.In "6*(\u00a0)-".toList :=
    @Flaw.In.emptyGroup ['6', '*'] ['\u00a0'] ['-'] (by decide)
  have hforeign : ∀ c ∈ "6*(\u00a0)-".toList, ¬ Foreign c := by
    have hall : "6*(\u00a0)-".toList.all belongs = true := rfl
    intro c hc hforeign
    rw [← belongs_eq_false_iff, List.all_eq_true.mp hall c hc] at hforeign
    cases hforeign
  have hfirst : Flaw.emptyGroup.FirstIn "6*(\u00a0)-".toList :=
    ⟨hin, freeBelow_four (by decide) (nesting?_isSome_iff.mp rfl)
      ((nesting?_le_iff (d := 1) rfl 256).mp (by decide)) hforeign⟩
  obtain ⟨hreport, -, hnone⟩ := parse_first_flaw "6*(\u00a0)-"
  exact ⟨hfirst, hreport _ hfirst, (hnone _ hin).2 (by simp)⟩

end Expr

end Reckoner
