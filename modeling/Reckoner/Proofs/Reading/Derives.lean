/-
# Reckoner.Proofs.Reading.Derives — what the machine reads is a text of the grammar.

`Describes r cs` is the invariant of reading: it says of what parts the text `cs` consists when the
machine has come to `r` by it. The groups that are still open stand in front (`Outside`), then the part
of the current group up to the operand (`Started`), with the left operands that wait in it (`Waits`),
and then what has been read of the operand itself. `describes_step` keeps it with each character, and at
the end of a text it is a derivation.
-/
import Reckoner.Proofs.Reading.Accepts

namespace Reckoner.Expr

open Grammar

namespace Reading

/-! ## The parts of a text that has been read -/

/-- **`Waits level o o' waiting cs`** — `cs` holds the left operand that waits, if any, written at that
level, and one of the two operators behind it. -/
inductive Waits (level : Level) (o o' : Op) : Option (Expr Decimal × Op) → List Char → Prop
  | none : Waits level o o' none []
  | some {cs a b : List Char} {left : Expr Decimal} {op : Op} : op = o ∨ op = o' →
      Layered level cs left → Blank a → Blank b →
      Waits level o o' (some (left, op)) (cs ++ a ++ op.sign :: b)

/-- **`Started p cs`** — `cs` is the current group up to an operand, with `p` pending. -/
inductive Started : Pending → List Char → Prop
  | mk {sum product : Option (Expr Decimal × Op)} {o s t : List Char} : Opening o →
      Waits .sum .add .sub sum s → Waits .term .mul .div product t → Started ⟨sum, product⟩ (o ++ s ++ t)

/-- **`Signed negated cs`** — the minus sign in front of an operand, or its absence. -/
inductive Signed : Bool → List Char → Prop
  | unsigned : Signed false []
  | minus {b : List Char} : Blank b → Signed true ('-' :: b)

/-- **`Outside enclosing cs`** — `cs` is the text in front of the current group. -/
inductive Outside : List (Pending × Bool) → List Char → Prop
  | nil : Outside [] []
  | cons {enclosing : List (Pending × Bool)} {p : Pending} {negated : Bool}
      {out group sign : List Char} : Outside enclosing out → Started p group →
      Signed negated sign → Outside ((p, negated) :: enclosing) (out ++ group ++ sign ++ ['('])

/-- **`Spelt n cs`** — the numeral so far is written `cs`. -/
inductive Spelt : Numeral → List Char → Prop
  | whole {ds : List Char} : ds ≠ [] → Digits ds → Spelt (.whole (digitsValue ds)) ds
  | point : Spelt .point ['.']
  | pointed {ds fs : List Char} : ds ≠ [] → Digits ds → Digits fs →
      Spelt (.fraction (digitsValue (ds ++ fs)) fs.length) (ds ++ '.' :: fs)
  | fraction {fs : List Char} : fs ≠ [] → Digits fs →
      Spelt (.fraction (digitsValue fs) fs.length) ('.' :: fs)

/-- **`Describes r cs`** — what `cs` consists of when the machine has come to `r` by it. -/
inductive Describes : Reading → List Char → Prop
  | opening {enclosing : List (Pending × Bool)} {out b : List Char} : Outside enclosing out →
      Blank b → Describes (before .opening ⟨Pending.empty, enclosing⟩) (out ++ b)
  | operand {enclosing : List (Pending × Bool)} {p : Pending} {out group : List Char} :
      Outside enclosing out → Started p group →
      Describes (before .operand ⟨p, enclosing⟩) (out ++ group)
  | negated {enclosing : List (Pending × Bool)} {p : Pending} {out group b : List Char} :
      Outside enclosing out → Started p group → Blank b →
      Describes (before .negated ⟨p, enclosing⟩) (out ++ group ++ '-' :: b)
  | inside {enclosing : List (Pending × Bool)} {p : Pending} {out group sign ts : List Char}
      {negated : Bool} {n : Numeral} : Outside enclosing out → Started p group →
      Signed negated sign → Spelt n ts →
      Describes (inside n negated ⟨p, enclosing⟩) (out ++ group ++ sign ++ ts)
  | after {enclosing : List (Pending × Bool)} {p : Pending} {out group fs b : List Char}
      {e : Expr Decimal} : Outside enclosing out → Started p group → Layered .factor fs e →
      Blank b → Describes (after e ⟨p, enclosing⟩) (out ++ group ++ fs ++ b)

/-! ## Putting the parts together -/

theorem Signed.factor {negated : Bool} {sign cs : List Char} {e : Expr Decimal}
    (h : Signed negated sign) (he : Layered .primary cs e) :
    Layered .factor (sign ++ cs) (negateIf negated e) := by
  cases h with
  | unsigned => exact .unsigned he
  | minus hb => exact .minus hb he

theorem Waits.joinLeft_term {product : Option (Expr Decimal × Op)} {t fs : List Char}
    {e : Expr Decimal} (h : Waits .term .mul .div product t) (he : Layered .factor fs e) :
    Layered .term (t ++ fs) (joinLeft product e) := by
  cases h with
  | none => exact .factor he
  | some hop hl ha hb => exact .product hop hl ha hb he

theorem Waits.joinLeft_sum {sum : Option (Expr Decimal × Op)} {s ts : List Char} {e : Expr Decimal}
    (h : Waits .sum .add .sub sum s) (he : Layered .term ts e) :
    Layered .sum (s ++ ts) (joinLeft sum e) := by
  cases h with
  | none => exact .term he
  | some hop hl ha hb => exact .sum hop hl ha hb he

/-- A group whose last operand has been read is closed by blanks. -/
theorem Started.close {p : Pending} {group fs b : List Char} {e : Expr Decimal}
    (h : Started p group) (he : Layered .factor fs e) (hb : Blank b) :
    Layered .text (group ++ fs ++ b) (p.close e) := by
  obtain ⟨ho, hs, ht⟩ := h
  have htext := Layered.text ho (hs.joinLeft_sum (ht.joinLeft_term he)) hb
  simp only [List.append_assoc] at htext ⊢
  exact htext

/-- Behind an operand, an operator starts the next one. -/
theorem Started.push {p : Pending} {group fs b : List Char} {e : Expr Decimal} (h : Started p group)
    (he : Layered .factor fs e) (hb : Blank b) (op : Op) :
    Started (p.push e op) (group ++ fs ++ b ++ [op.sign]) := by
  obtain ⟨ho, hs, ht⟩ := h
  have hterm := ht.joinLeft_term he
  rcases op.loose_or_tight with hop | hop
  · rw [push_loose hop]
    have hstart := Started.mk ho (.some hop (hs.joinLeft_sum hterm) hb blank_nil) .none
    simp only [List.append_assoc, List.append_nil] at hstart ⊢
    exact hstart
  · rw [push_tight hop]
    have hstart := Started.mk ho hs (.some hop hterm hb blank_nil)
    simp only [List.append_assoc] at hstart ⊢
    exact hstart

theorem Waits.blank {level : Level} {o o' : Op} {left : Expr Decimal × Op} {cs : List Char}
    {c : Char} (h : Waits level o o' (Option.some left) cs) (hc : isBlank c = true) :
    Waits level o o' (Option.some left) (cs ++ [c]) := by
  cases h with
  | some hop hl ha hb =>
    have hwait := Waits.some hop hl ha (blank_append hb (blank_singleton hc))
    rw [← List.cons_append, ← List.append_assoc] at hwait
    exact hwait

theorem opening_blank {o : List Char} {c : Char} (h : Opening o) (hc : isBlank c = true) :
    Opening (o ++ [c]) := by
  cases h with
  | blank ha => exact .blank (blank_append ha (blank_singleton hc))
  | plus ha hb =>
    have hplus := Opening.plus ha (blank_append hb (blank_singleton hc))
    rw [← List.cons_append, ← List.append_assoc] at hplus
    exact hplus

theorem Started.blank {p : Pending} {group : List Char} {c : Char} (h : Started p group)
    (hc : isBlank c = true) : Started p (group ++ [c]) := by
  obtain ⟨ho, hs, ht⟩ := h
  -- the blank goes to the last part of the group that is not empty
  cases ht with
  | some hop hl ha hb =>
    have hstart := Started.mk ho hs ((Waits.some hop hl ha hb).blank hc)
    rw [← List.append_assoc] at hstart
    exact hstart
  | none =>
    rw [List.append_nil]
    cases hs with
    | some hop hl ha hb =>
      have hstart := Started.mk ho ((Waits.some hop hl ha hb).blank hc) .none
      rw [List.append_nil, ← List.append_assoc] at hstart
      exact hstart
    | none =>
      have hstart := Started.mk (opening_blank ho hc) .none .none
      simp only [List.append_nil] at hstart ⊢
      exact hstart

/-! ## Numerals -/

theorem Spelt.extend {n next : Numeral} {ts : List Char} {c : Char} (h : Spelt n ts)
    (hn : n.extend c = some next) : Spelt next (ts ++ [c]) := by
  cases h with
  | @whole ds hne hds =>
    by_cases hc : c.isDigit = true
    · rw [extend_whole hc] at hn
      obtain rfl := Option.some.inj hn
      exact .whole (by simp) (digits_append hds (digits_singleton hc))
    · rw [Numeral.extend, if_neg hc] at hn
      split at hn
      · rename_i hpoint
        obtain rfl := Option.some.inj hn
        subst hpoint
        have hpointed := Spelt.pointed hne hds digits_nil
        rw [List.append_nil] at hpointed
        exact hpointed
      · cases hn
  | point =>
    rw [Numeral.extend] at hn
    split at hn
    · rename_i hc
      obtain rfl := Option.some.inj hn
      rw [← digitsValue_singleton]
      exact .fraction (List.cons_ne_nil _ _) (digits_singleton hc)
    · cases hn
  | @pointed ds fs hne hds hfs =>
    by_cases hc : c.isDigit = true
    · rw [extend_fraction hc] at hn
      obtain rfl := Option.some.inj hn
      have hpointed := Spelt.pointed hne hds (digits_append hfs (digits_singleton hc))
      simp only [List.length_append, List.length_singleton, List.append_assoc,
        List.cons_append] at hpointed ⊢
      exact hpointed
    · rw [Numeral.extend, if_neg hc] at hn
      cases hn
  | @fraction fs hne hfs =>
    by_cases hc : c.isDigit = true
    · rw [extend_fraction hc] at hn
      obtain rfl := Option.some.inj hn
      have hmore : fs ++ [c] ≠ [] := by simp
      have hfraction := Spelt.fraction hmore (digits_append hfs (digits_singleton hc))
      rw [List.length_append, List.length_singleton] at hfraction
      exact hfraction
    · rw [Numeral.extend, if_neg hc] at hn
      cases hn

theorem Spelt.literal {n : Numeral} {ts : List Char} {d : Decimal} (h : Spelt n ts)
    (hn : n.value? = some d) : Literal ts d := by
  cases h with
  | whole hne hds =>
    obtain rfl := Option.some.inj hn
    exact .whole hne hds
  | point => cases hn
  | pointed hne hds hfs =>
    obtain rfl := Option.some.inj hn
    exact .pointed hne hds hfs
  | fraction hne hfs =>
    obtain rfl := Option.some.inj hn
    exact .fraction hne hfs

/-! ## The invariant of reading -/

theorem opOf?_eq_some {c : Char} {op : Op} (h : opOf? c = some op) : c = op.sign := by
  unfold opOf? at h
  split at h
  · cases h
    assumption
  · split at h
    · cases h
      assumption
    · split at h
      · cases h
        assumption
      · split at h
        · cases h
          assumption
        · cases h

/-- In front of an operand, the text is the enclosing groups, the group so far, and the sign of the
operand if it has been read. -/
theorem Describes.before_inv {slot : Slot} {p : Pending} {enclosing : List (Pending × Bool)}
    {cs : List Char} (h : Describes (before slot ⟨p, enclosing⟩) cs) :
    ∃ out group sign, cs = out ++ group ++ sign ∧ Outside enclosing out ∧ Started p group ∧
      Signed (decide (slot = .negated)) sign := by
  cases h with
  | @opening _ out b hout hb =>
    refine ⟨out, b, [], (List.append_nil _).symm, hout, ?_, .unsigned⟩
    have hstart := Started.mk (.blank hb) .none .none
    rw [List.append_nil, List.append_nil] at hstart
    exact hstart
  | @operand _ _ out group hout hgroup =>
    exact ⟨out, group, [], (List.append_nil _).symm, hout, hgroup, .unsigned⟩
  | @negated _ _ out group b hout hgroup hb => exact ⟨out, group, '-' :: b, rfl, hout, hgroup, .minus hb⟩

theorem describes_stepAfter {enclosing : List (Pending × Bool)} {p : Pending}
    {out group fs b : List Char} {e : Expr Decimal} {c : Char} {next : Reading}
    (hout : Outside enclosing out) (hgroup : Started p group) (he : Layered .factor fs e)
    (hb : Blank b) (h : stepAfter e ⟨p, enclosing⟩ c = some next) :
    Describes next (out ++ group ++ fs ++ b ++ [c]) := by
  rw [stepAfter] at h
  split at h
  · rename_i hc
    obtain rfl := Option.some.inj h
    have hafter := Describes.after hout hgroup he (blank_append hb (blank_singleton hc))
    rw [← List.append_assoc] at hafter
    exact hafter
  · split at h
    · rename_i hc
      subst hc
      -- the group in front of `)` becomes the operand of the group around it
      cases hout with
      | nil => cases h
      | cons hout' hgroup' hsign =>
        obtain rfl := Option.some.inj h
        have hfactor := hsign.factor (.group (hgroup.close he hb))
        have hafter := Describes.after hout' hgroup' hfactor blank_nil
        simp only [List.append_assoc, List.cons_append, List.nil_append, List.append_nil] at hafter ⊢
        exact hafter
    · cases hop : opOf? c with
      | none =>
        rw [hop] at h
        cases h
      | some op =>
        rw [hop] at h
        obtain rfl := Option.some.inj h
        rw [opOf?_eq_some hop]
        have hoperand := Describes.operand hout (hgroup.push he hb op)
        simp only [← List.append_assoc] at hoperand
        exact hoperand

theorem describes_stepBefore_blank {slot : Slot} {context : Context} {cs : List Char} {c : Char}
    (h : Describes (before slot context) cs) (hc : isBlank c = true) :
    Describes (before slot context) (cs ++ [c]) := by
  cases h with
  | opening hout hb =>
    rw [List.append_assoc]
    exact .opening hout (blank_append hb (blank_singleton hc))
  | operand hout hgroup =>
    rw [List.append_assoc]
    exact .operand hout (hgroup.blank hc)
  | negated hout hgroup hb =>
    rw [List.append_assoc, List.cons_append]
    exact .negated hout hgroup (blank_append hb (blank_singleton hc))

/-- In front of the first operand of a group there are only blanks, so a plus sign opens it. -/
theorem Describes.plus {context : Context} {cs : List Char}
    (h : Describes (before .opening context) cs) :
    Describes (before .operand context) (cs ++ ['+']) := by
  cases h with
  | opening hout hb =>
    have hstart := Started.mk (.plus hb blank_nil) .none .none
    rw [List.append_nil, List.append_nil] at hstart
    rw [List.append_assoc]
    exact .operand hout hstart

theorem describes_stepBefore {slot : Slot} {p : Pending} {enclosing : List (Pending × Bool)}
    {cs : List Char} {c : Char} {next : Reading} (h : Describes (before slot ⟨p, enclosing⟩) cs)
    (hn : stepBefore slot ⟨p, enclosing⟩ c = some next) : Describes next (cs ++ [c]) := by
  by_cases hc : isBlank c = true
  · rw [stepBefore_blank hc] at hn
    obtain rfl := Option.some.inj hn
    exact describes_stepBefore_blank h hc
  obtain ⟨out, group, sign, rfl, hout, hgroup, hsign⟩ := h.before_inv
  rw [stepBefore, if_neg hc] at hn
  split at hn
  · rename_i hdigit
    obtain rfl := Option.some.inj hn
    rw [← digitsValue_singleton]
    exact .inside hout hgroup hsign (.whole (List.cons_ne_nil _ _) (digits_singleton hdigit))
  split at hn
  · rename_i hpoint
    obtain rfl := Option.some.inj hn
    subst hpoint
    exact .inside hout hgroup hsign .point
  split at hn
  · rename_i hopen
    obtain rfl := Option.some.inj hn
    subst hopen
    have hopening := Describes.opening (.cons hout hgroup hsign) blank_nil
    rw [List.append_nil] at hopening
    exact hopening
  split at hn
  · rename_i hminus
    obtain ⟨rfl, hslot⟩ := hminus
    obtain rfl := Option.some.inj hn
    rw [decide_eq_false hslot] at hsign
    cases hsign with
    | unsigned =>
      rw [List.append_nil]
      exact .negated hout hgroup blank_nil
  split at hn
  · rename_i hplus
    obtain ⟨rfl, rfl⟩ := hplus
    obtain rfl := Option.some.inj hn
    exact h.plus
  · cases hn

theorem describes_step {r next : Reading} {cs : List Char} {c : Char} (h : Describes r cs)
    (hn : r.step c = some next) : Describes next (cs ++ [c]) := by
  cases h with
  | opening hout hb => exact describes_stepBefore (.opening hout hb) hn
  | operand hout hgroup => exact describes_stepBefore (.operand hout hgroup) hn
  | negated hout hgroup hb => exact describes_stepBefore (.negated hout hgroup hb) hn
  | after hout hgroup he hb => exact describes_stepAfter hout hgroup he hb hn
  | @inside enclosing p out group sign ts negated n hout hgroup hsign hts =>
    cases hext : n.extend c with
    | some n' =>
      rw [step_inside hext] at hn
      obtain rfl := Option.some.inj hn
      rw [List.append_assoc]
      exact .inside hout hgroup hsign (hts.extend hext)
    | none =>
      -- the numeral has ended, so it is an operand if it is complete
      rw [step, hext] at hn
      obtain ⟨d, hd, hafter⟩ := Option.bind_eq_some_iff.mp hn
      have hfactor := hsign.factor (.literal (hts.literal hd))
      have hnext := describes_stepAfter hout hgroup hfactor blank_nil hafter
      rw [List.append_nil, ← List.append_assoc] at hnext
      exact hnext

theorem describes_run {r last : Reading} {cs ds : List Char} (h : Describes r cs)
    (hrun : r.run ds = some last) : Describes last (cs ++ ds) := by
  induction ds generalizing r cs with
  | nil =>
    obtain rfl := Option.some.inj hrun
    rw [List.append_nil]
    exact h
  | cons c ds ih =>
    obtain ⟨next, hstep, hnext⟩ := Option.bind_eq_some_iff.mp hrun
    rw [← List.singleton_append, ← List.append_assoc]
    exact ih (describes_step h hstep) hnext

theorem describes_start : Describes start [] := .opening .nil blank_nil

/-- At the end of a text, what has been read is the expression it is written for. -/
theorem Describes.layered {r : Reading} {cs : List Char} {e : Expr Decimal} (h : Describes r cs)
    (he : r.result? = some e) : Layered .text cs e := by
  cases h with
  | opening _ _ | operand _ _ | negated _ _ _ => cases he
  | @after enclosing p out group fs b e' hout hgroup hfactor hb =>
    cases hout with
    | nil =>
      obtain rfl := Option.some.inj he
      exact hgroup.close hfactor hb
    | cons _ _ _ => cases he
  | @inside enclosing p out group sign ts negated n hout hgroup hsign hts =>
    cases hout with
    | nil =>
      rw [result?, Option.map_eq_some_iff] at he
      obtain ⟨d, hd, rfl⟩ := he
      have htext := hgroup.close (hsign.factor (.literal (hts.literal hd))) blank_nil
      rw [List.append_nil, ← List.append_assoc] at htext
      exact htext
    | cons _ _ _ => cases he

end Reading

/-- What is read is a text of the grammar, written for the expression that reading yields. -/
theorem layered_of_read {cs : List Char} {e : Expr Decimal} (h : read cs = .ok e) :
    Layered .text cs e := by
  obtain ⟨last, hrun, he⟩ := Reading.finish_eq_ok_iff.mp h
  exact (Reading.describes_run Reading.describes_start hrun).layered he

end Reckoner.Expr
