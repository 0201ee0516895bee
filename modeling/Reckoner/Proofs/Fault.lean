/-
# Reckoner.Proofs.Fault — a malformed text is at fault where parsing says so.

A text is `Viable` when some accepted text begins with it. The machine has no look-ahead and whatever it
has read can be completed: with a digit where an operand is missing, and with a `)` for each open group.
So it stops at the first character with which the text is no longer viable, and the position that
parsing reports is that of this character (`parse_malformed`).

There is one exception. A point in front of which an operand is awaited is viable by itself, and becomes
wrong only by what follows it. The point is blamed nevertheless.

That a position is never behind the text is owed to the diagnosis: a text that could go on has an
operator at its end, or an open group, or is blank, and all of these are reported as such.
-/
import Reckoner.Proofs.Diagnosis

namespace Reckoner.Expr

open Flaw Grammar Reading

/-- **`Viable cs`** — some text that is accepted begins with `cs`. -/
def Viable (cs : List Char) : Prop := ∃ rest t, parse (.ofList (cs ++ rest)) = .ok t

/-- **`StrayPoint cs p`** — at position `p` of `cs` there is a point where an operand is awaited, and no
digit follows it. -/
structure StrayPoint (cs : List Char) (p : Nat) : Prop where
  point : cs[p]? = some '.'
  awaited : AwaitsOperand (cs.take p)
  not_digit : ∀ c, cs[p + 1]? = some c → c.isDigit = false

namespace Reading

variable {r mid last : Reading} {c : Char} {cs : List Char}

/-! ## Three kinds of readings -/

/-- The machine awaits an operand, or it is inside a mere point, or it holds an operand. -/
theorem awaits_or_point_or_holds (r : Reading) :
    r.awaits = true ∨ (∃ negated context, r = inside .point negated context) ∨
      ∃ e, Holds r e r.context := by
  cases r with
  | before slot context => exact .inl rfl
  | after e context => exact .inr (.inr ⟨e, .after e context⟩)
  | inside n negated context =>
    cases n with
    | point => exact .inr (.inl ⟨negated, context, rfl⟩)
    | whole d => exact .inr (.inr ⟨_, .inside negated context rfl⟩)
    | fraction d k => exact .inr (.inr ⟨_, .inside negated context rfl⟩)

theorem exists_eq_before (h : r.awaits = true) : ∃ slot context, r = before slot context := by
  cases r with
  | before slot context => exact ⟨slot, context, rfl⟩
  | inside _ _ _ | after _ _ => cases h

theorem Holds.faultAt_eq {e : Expr Decimal} {context : Context} (h : Holds r e context)
    (index : Nat) : r.faultAt index = index := by
  cases h with
  | after => rfl
  | @inside n d _ _ hn =>
    cases n with
    | point => cases hn
    | whole _ | fraction _ _ => rfl

/-- Only inside a mere point the machine does not take a blank. -/
theorem step_ne_none_of_blank (hc : isBlank c = true)
    (hr : r.awaits = true ∨ ∃ e, Holds r e r.context) : r.step c ≠ none := by
  rcases hr with hawaits | ⟨e, hholds⟩
  · obtain ⟨slot, context, rfl⟩ := exists_eq_before hawaits
    rw [show (before slot context).step c = _ from stepBefore_blank hc]
    exact Option.some_ne_none _
  · rw [hholds.step (isDigit_eq_false_of_isBlank hc) (ne_point_of_isBlank hc), stepAfter_blank hc]
    exact Option.some_ne_none _

/-! ## Whatever has been read can be completed -/

/-- Behind an operand, the open groups can be closed one after the other. -/
theorem Holds.exists_closed {e : Expr Decimal} {p : Pending} {enclosing : List (Pending × Bool)}
    (h : Holds r e ⟨p, enclosing⟩) :
    ∃ last e', r.run (List.replicate enclosing.length ')') = some last ∧
      last.result? = some e' := by
  induction enclosing generalizing r e p with
  | nil => exact ⟨r, _, rfl, h.result?_eq⟩
  | cons outer enclosing ih =>
    obtain ⟨q, negated⟩ := outer
    have hstep := (h.step rfl (by decide)).trans stepAfter_close
    obtain ⟨last, e', hrun, hlast⟩ := ih (.after (negateIf negated (p.close e)) ⟨q, enclosing⟩)
    exact ⟨last, e', (run_cons hstep _).trans hrun, hlast⟩

theorem Holds.exists_completion {e : Expr Decimal} {context : Context} (h : Holds r e context) :
    ∃ rest last e', '(' ∉ rest ∧ r.run rest = some last ∧ last.result? = some e' := by
  obtain ⟨last, e', hrun, hlast⟩ := h.exists_closed
  refine ⟨_, last, e', ?_, hrun, hlast⟩
  intro hmem
  exact absurd (List.eq_of_mem_replicate hmem) (by decide)

/-- Where no operand is held, a digit makes one. -/
theorem holds_or_exists_step_zero (r : Reading) :
    (∃ e, Holds r e r.context) ∨ ∃ next e, r.step '0' = some next ∧ Holds next e next.context := by
  rcases r.awaits_or_point_or_holds with hawaits | ⟨negated, context, rfl⟩ | hholds
  · obtain ⟨slot, context, rfl⟩ := exists_eq_before hawaits
    have hdigit : stepBefore slot context '0' =
        some (inside (.whole (digitValue '0')) (decide (slot = .negated)) context) :=
      stepBefore_digit rfl
    exact .inr ⟨_, _, hdigit, .inside _ context rfl⟩
  · have hfirst : Numeral.point.extend '0' = some (.fraction (digitValue '0') 1) := rfl
    exact .inr ⟨_, _, step_inside hfirst negated context, .inside negated context rfl⟩
  · exact .inl hholds

theorem exists_completion (r : Reading) :
    ∃ rest last e, '(' ∉ rest ∧ r.run rest = some last ∧ last.result? = some e := by
  rcases r.holds_or_exists_step_zero with ⟨e, hholds⟩ | ⟨next, e, hstep, hholds⟩
  · exact hholds.exists_completion
  · obtain ⟨rest, last, e', hfree, hrun, hlast⟩ := hholds.exists_completion
    refine ⟨'0' :: rest, last, e', ?_, (run_cons hstep rest).trans hrun, hlast⟩
    rw [List.mem_cons, not_or]
    exact ⟨by decide, hfree⟩

/-! ## Where the machine stops -/

/-- A text that is not read to its end has been read up to the place that is to blame: there is nothing
behind it, or a character that does not fit. -/
theorem finish_eq_error {index p : Nat} (h : r.finish index cs = .error p) :
    ∃ front mid, r.run front = some mid ∧ p = mid.faultAt (index + front.length) ∧
      (cs = front ∧ mid.result? = none ∨ ∃ c rest, cs = front ++ c :: rest ∧ mid.step c = none) := by
  induction cs generalizing r index with
  | nil =>
    rw [finish] at h
    cases hr : r.result? with
    | some e =>
      rw [hr] at h
      cases h
    | none =>
      rw [hr] at h
      exact ⟨[], r, rfl, (Except.error.inj h).symm, .inl ⟨rfl, hr⟩⟩
  | cons c cs ih =>
    rw [finish] at h
    cases hs : r.step c with
    | none =>
      rw [hs] at h
      exact ⟨[], r, rfl, (Except.error.inj h).symm, .inr ⟨c, cs, rfl, hs⟩⟩
    | some next =>
      rw [hs] at h
      obtain ⟨front, mid, hrun, hp, hstop⟩ := ih h
      refine ⟨c :: front, mid, (run_cons hs front).trans hrun, ?_, ?_⟩
      · rw [hp, List.length_cons, Nat.add_assoc, Nat.add_comm 1]
      · rcases hstop with ⟨rfl, hnone⟩ | ⟨d, rest, rfl, hnone⟩
        · exact .inl ⟨rfl, hnone⟩
        · exact .inr ⟨d, rest, rfl, hnone⟩

/-- At the end of a text without flaws the machine stops in a mere point only. -/
theorem exists_eq_point_of_free (hfree : FreeBelow 6 cs) (hrun : start.run cs = some r)
    (hr : r.result? = none) : ∃ negated context, r = inside .point negated context := by
  have hbalanced := hfree.balanced (by decide)
  rcases r.awaits_or_point_or_holds with hawaits | hpoint | ⟨e, hholds⟩
  · exfalso
    cases (awaits_iff hrun).mp hawaits with
    | start hb => exact hfree.not_white (by decide) fun c hc => isWhite_of_isBlank (hb.isBlank c hc)
    | @behind front b c hc hb =>
      rcases List.mem_cons.mp hc with rfl | hop
      · -- the parenthesis that has been opened last is not closed
        have hfront := hbalanced.closed_le front (List.prefix_append _ _)
        have hcount := hbalanced.count_eq
        have hblank := (balanced_of_blank hb).count_eq
        rw [List.count_append, List.count_append, List.count_cons_self,
          List.count_cons_of_ne (by decide)] at hcount
        omega
      · have hin : Flaw.In .trailingOperator (front ++ c :: b) :=
          .trailingOperator hop fun x hx => isWhite_of_isBlank (hb.isBlank x hx)
        exact hfree .trailingOperator (by decide) hin
  · exact hpoint
  · -- an operand is held and no group is open, so there would be a result
    have hdepth := depth_of_run hrun
    rw [hbalanced.count_eq] at hdepth
    have hclosed : r.context.enclosing = [] :=
      List.eq_nil_of_length_eq_zero (Nat.add_right_cancel hdepth)
    have hresult : r.result? = some (r.context.pending.close e) := by
      apply Holds.result?_eq
      rw [← hclosed]
      exact hholds
    rw [hr] at hresult
    cases hresult

end Reading

/-! ## Viable texts -/

variable {r : Reading} {c : Char} {cs : List Char}

/-- What has been read is viable, unless it nests too deeply. -/
theorem viable_of_run (hrun : start.run cs = some r) (hnests : NestsWithin 256 cs) : Viable cs := by
  obtain ⟨rest, last, e, hfree, hrest, he⟩ := r.exists_completion
  have hread : read (cs ++ rest) = .ok e :=
    finish_eq_ok_iff.mpr ⟨last, (run_append hrun rest).trans hrest, he⟩
  have hparse : parseDecimal (cs ++ rest) = .ok e :=
    parseDecimal_eq_ok_iff.mpr ⟨read_eq_ok_iff.mp hread, hnests.append_of_free hfree⟩
  exact ⟨rest, _, parse_ofList_eq_ok_iff.mpr ⟨e, hparse, rfl⟩⟩

theorem exists_run_of_viable (h : Viable cs) : ∃ r, start.run cs = some r := by
  obtain ⟨rest, t, ht⟩ := h
  obtain ⟨e, he, -⟩ := parse_ofList_eq_ok_iff.mp ht
  obtain ⟨last, hrun, -⟩ :=
    finish_eq_ok_iff.mp (read_eq_ok_iff.mpr (parseDecimal_eq_ok_iff.mp he).1)
  obtain ⟨mid, hmid, -⟩ := exists_of_run_append hrun
  exact ⟨mid, hmid⟩

theorem not_viable_of_step_eq_none (hrun : start.run cs = some r) (hstep : r.step c = none) :
    ¬ Viable (cs ++ [c]) := by
  intro h
  obtain ⟨last, hlast⟩ := exists_run_of_viable h
  rw [run_append hrun, run_singleton, hstep] at hlast
  cases hlast

/-! ## The character at fault -/

/-- **`FaultAt cs p`** — the character at position `p` of `cs` is at fault: it is no blank, the text in
front of it is viable, and with this character the text is not viable any more. A stray point is viable
still; here it is what follows that ends the matter, if anything follows. -/
structure FaultAt (cs : List Char) (p : Nat) : Prop where
  lt_length : p < cs.length
  not_blank : cs[p] ∉ blanks
  viable : Viable (cs.take p)
  not_viable : ¬ StrayPoint cs p → ¬ Viable (cs.take (p + 1))
  viable_point : StrayPoint cs p → Viable (cs.take (p + 1))
  not_viable_point : StrayPoint cs p → p + 2 ≤ cs.length → ¬ Viable (cs.take (p + 2))

theorem take_length_succ_append (front rest : List Char) (c : Char) :
    (front ++ c :: rest).take (front.length + 1) = front ++ [c] := by
  rw [List.take_length_add_append, List.take_succ_cons, List.take_zero]

/-- A character that the machine does not take is at fault, unless the machine is inside a mere point. -/
theorem faultAt_of_step_eq_none {rest : List Char} (hrun : start.run cs = some r)
    (hr : r.awaits = true ∨ ∃ e, Holds r e r.context) (hstep : r.step c = none)
    (hnests : NestsWithin 256 cs) : FaultAt (cs ++ c :: rest) cs.length := by
  have hget : (cs ++ c :: rest)[cs.length]? = some c := by simp
  obtain ⟨hlt, hat⟩ := List.getElem?_eq_some_iff.mp hget
  -- in front of an operand the machine takes a point, so it is no stray one that it refuses
  have hstray : ¬ StrayPoint (cs ++ c :: rest) cs.length := by
    rintro ⟨hpoint, hawaited, -⟩
    rw [hget, Option.some.injEq] at hpoint
    rw [List.take_left, ← awaits_iff hrun] at hawaited
    obtain ⟨slot, context, rfl⟩ := exists_eq_before hawaited
    rw [hpoint] at hstep
    cases hstep
  refine ⟨hlt, ?_, ?_, fun _ => ?_, fun h => absurd h hstray, fun h => absurd h hstray⟩
  · rw [hat]
    exact fun hblank => step_ne_none_of_blank (isBlank_iff_mem.mpr hblank) hr hstep
  · rw [List.take_left]
    exact viable_of_run hrun hnests
  · rw [take_length_succ_append]
    exact not_viable_of_step_eq_none hrun hstep

theorem isDigit_eq_false_of_step_point {negated : Bool} {context : Context}
    (h : (inside .point negated context).step c = none) : c.isDigit = false := by
  rw [Bool.eq_false_iff]
  intro hdigit
  have hfirst : Numeral.point.extend c = some (.fraction (digitValue c) 1) := if_pos hdigit
  rw [step_inside hfirst] at h
  cases h

/-- A point where an operand is awaited is at fault when the machine stops behind it. -/
theorem faultAt_of_point {negated : Bool} {context : Context} {rest : List Char}
    (hrun : start.run cs = some r) (hr : r.awaits = true)
    (hpoint : start.run (cs ++ ['.']) = some (inside .point negated context))
    (hstep : ∀ d ∈ rest.head?, (inside .point negated context).step d = none)
    (hnests : NestsWithin 256 (cs ++ ['.'])) : FaultAt (cs ++ '.' :: rest) cs.length := by
  have hget : (cs ++ '.' :: rest)[cs.length]? = some '.' := by simp
  obtain ⟨hlt, hat⟩ := List.getElem?_eq_some_iff.mp hget
  have hstray : StrayPoint (cs ++ '.' :: rest) cs.length := by
    refine ⟨hget, ?_, ?_⟩
    · rw [List.take_left]
      exact (awaits_iff hrun).mp hr
    · intro d hd
      rw [List.getElem?_append_right (Nat.le_add_right _ 1), Nat.add_sub_cancel_left,
        List.getElem?_cons_succ, ← List.head?_eq_getElem?] at hd
      exact isDigit_eq_false_of_step_point (hstep d hd)
  refine ⟨hlt, ?_, ?_, fun h => absurd hstray h, fun _ => ?_, fun _ hle => ?_⟩
  · rw [hat]
    decide
  · rw [List.take_left]
    exact viable_of_run hrun (hnests.of_prefix (List.prefix_append cs ['.']))
  · rw [take_length_succ_append]
    exact viable_of_run hpoint hnests
  · cases rest with
    | nil =>
      rw [List.length_append, List.length_singleton] at hle
      omega
    | cons d tail =>
      rw [List.take_length_add_append, List.take_succ_cons, List.take_succ_cons, List.take_zero,
        ← List.singleton_append, ← List.append_assoc]
      exact not_viable_of_step_eq_none hpoint (hstep d rfl)

/-- A malformed text has no flaw, so it is the machine that refuses it, and where. -/
theorem read_of_malformed {text : String} {p : Nat}
    (h : parse text = .error (.invalid (.malformed p))) :
    FreeBelow 6 text.toList ∧ read text.toList = .error p := by
  have hparse := parse_eq_error_iff.mp h
  have hfree : FreeBelow 6 text.toList := by
    apply free_of_parseDecimal
    intro flaw hflaw
    rw [hparse] at hflaw
    cases flaw <;> cases hflaw
  refine ⟨hfree, ?_⟩
  rw [parseDecimal_of_free hfree] at hparse
  cases hread : read text.toList with
  | ok e =>
    rw [hread] at hparse
    cases hparse
  | error position =>
    rw [hread] at hparse
    cases hparse
    rfl

/-- Inside a mere point the machine blames the point. -/
theorem faultAt_of_run_eq_point {negated : Bool} {context : Context} {front rest : List Char}
    (hrun : start.run front = some (inside .point negated context))
    (hstep : ∀ d ∈ rest.head?, (inside .point negated context).step d = none)
    (hnests : NestsWithin 256 front) :
    FaultAt (front ++ rest) ((inside .point negated context).faultAt front.length) := by
  obtain ⟨front, r, rfl, hr, hawaits⟩ := exists_of_run_eq_point hrun
  have hlen : (inside .point negated context).faultAt (front ++ ['.']).length = front.length := by
    simp [faultAt]
  rw [hlen, List.append_assoc]
  exact faultAt_of_point hr hawaits hrun hstep hnests

/-- **`parse_malformed`** — a malformed text is at fault where parsing says so. -/
theorem parse_malformed {text : String} {p : Nat}
    (h : parse text = .error (.invalid (.malformed p))) : FaultAt text.toList p := by
  obtain ⟨hfree, hread⟩ := read_of_malformed h
  have hnests := hfree.nestsWithin (by decide)
  generalize text.toList = cs at hfree hread hnests ⊢
  obtain ⟨front, mid, hrun, hp, hstop⟩ := finish_eq_error hread
  rw [hp, Nat.zero_add]
  rcases hstop with ⟨rfl, hnone⟩ | ⟨c, rest, rfl, hnone⟩
  · -- the text ends in a mere point
    obtain ⟨negated, context, rfl⟩ := exists_eq_point_of_free hfree hrun hnone
    have hfault := faultAt_of_run_eq_point hrun (fun d (hd : d ∈ [].head?) => by cases hd) hnests
    rwa [List.append_nil] at hfault
  · have hfront := hnests.of_prefix (List.prefix_append front (c :: rest))
    rcases mid.awaits_or_point_or_holds with hawaits | ⟨negated, context, rfl⟩ | ⟨e, hholds⟩
    · obtain ⟨slot, context, rfl⟩ := exists_eq_before hawaits
      exact faultAt_of_step_eq_none hrun (.inl hawaits) hnone hfront
    · refine faultAt_of_run_eq_point hrun (fun d hd => ?_) hfront
      obtain rfl := Option.some.inj hd
      exact hnone
    · rw [hholds.faultAt_eq]
      exact faultAt_of_step_eq_none hrun (.inr ⟨e, hholds⟩) hnone hfront

/-- A point in front of a minus sign is blamed, and not the sign. -/
theorem parse_malformed_of_stray_point :
    parse "2*(.-1)" = .error (.invalid (.malformed 3)) ∧ FaultAt "2*(.-1)".toList 3 := by
  have h : parse "2*(.-1)" = .error (.invalid (.malformed 3)) := rfl
  exact ⟨h, parse_malformed h⟩

end Reckoner.Expr
