/-
# Reckoner.Proofs.Repair.Ending — what goes at the end of a text.

An operator at the end of a text is dropped, and then the one in front of it is at the end. Parentheses
that are left open there are closed and become empty pairs, and when they are gone, the operators in front
of them are at the end. A scan of the text from the right finds what goes in this way (`ending`). It passes
over balanced parentheses and counts the parentheses that are open, and the operators in front of a given
number of them.

An operator in front of a `(` goes along with that, so it is not counted. Where an operator stands in front
of a `)`, or anything else than operators, parentheses and white space comes, the scan stops.

The counts do not rise when runs of operators are shortened or empty pairs removed (`Below`), nor when
parentheses are closed at the end (`Closing`).
-/
import Reckoner.Proofs.Repair.Hollow
import Reckoner.Proofs.Repair.Truncations

namespace Reckoner

variable {as bs cs f front : List Char} {c op : Char} {k : Nat}

theorem isWhite_of_isDisplayOperator (h : isDisplayOperator c = true) : isWhite c = false := by
  rcases isDisplayOperator_iff.mp h with rfl | rfl | rfl | rfl <;> rfl

/-- **`Ending`** — what a scan has found at the end of a text. -/
structure Ending where
  /-- The scan still goes on. -/
  live : Bool
  /-- How many `)` wait for their `(`. -/
  depth : Nat
  /-- The operators that go one by one, in front of so many open parentheses as are asked for. -/
  operators : Nat
  /-- The parentheses that are left open. -/
  opened : Nat
  deriving DecidableEq, Repr

namespace Ending

/-- Nothing is read. -/
def start : Ending := ⟨true, 0, 0, 0⟩

/-- **`e.read k c next`** — the scan after one more character `c`, with `next` behind it. The operators that
it counts have `k` open parentheses behind them. White space stops it where it stands in parentheses, for
these can never be empty. -/
def read (e : Ending) (k : Nat) (c : Char) (next : Option Char) : Ending :=
  if e.live = false then e
  else if c = ')' then { e with depth := e.depth + 1 }
  else if c = '(' then
    if 0 < e.depth then { e with depth := e.depth - 1 }
    else if next.any isWhite then { e with live := false }
    else { e with opened := e.opened + 1 }
  else if isDisplayOperator c then
    if next = some ')' then { e with live := false }
    else if 0 < e.depth ∨ next = some '(' ∨ e.opened ≠ k then e
    else { e with operators := e.operators + 1 }
  else if isWhite c ∧ e.depth = 0 then e
  else { e with live := false }

end Ending

/-- **`ending k cs`** — what the scan from the right finds, and which operators there are in front of `k` open
parentheses. -/
def ending (k : Nat) : List Char → Ending
  | [] => .start
  | c :: cs => (ending k cs).read k c cs.head?

namespace Ending

variable {e e' : Ending} {next next' : Option Char}

/-! ## One character more -/

theorem read_of_dead (h : e.live = false) : e.read k c next = e := if_pos h

theorem read_close (h : e.live = true) : e.read k ')' next = { e with depth := e.depth + 1 } := by
  simp [read, h]

theorem read_open (h : e.live = true) :
    e.read k '(' next =
      if 0 < e.depth then { e with depth := e.depth - 1 }
      else if next.any isWhite then { e with live := false }
      else { e with opened := e.opened + 1 } := by
  simp [read, h]

theorem read_operator (h : e.live = true) (hop : isDisplayOperator op = true) :
    e.read k op next =
      if next = some ')' then { e with live := false }
      else if 0 < e.depth ∨ next = some '(' ∨ e.opened ≠ k then e
      else { e with operators := e.operators + 1 } := by
  obtain ⟨hopen, hclose⟩ := isDisplayOperator_ne hop
  simp [read, h, hopen, hclose, hop]

theorem read_other (h : e.live = true) (hc : c ≠ ')') (ho : c ≠ '(')
    (hop : isDisplayOperator c = false) :
    e.read k c next = if isWhite c ∧ e.depth = 0 then e else { e with live := false } := by
  simp [read, h, hc, ho, hop]

/-- A pair that is empty makes no difference. -/
theorem read_pair (e : Ending) (k : Nat) (next : Option Char) :
    (e.read k ')' next).read k '(' (some ')') = e := by
  obtain ⟨live, depth, operators, opened⟩ := e
  cases live <;> simp [read]

theorem operators_le_read (e : Ending) (k : Nat) (c : Char) (next : Option Char) :
    e.operators ≤ (e.read k c next).operators := by
  unfold read
  repeat' split
  all_goals simp

theorem opened_le_read (e : Ending) (k : Nat) (c : Char) (next : Option Char) :
    e.opened ≤ (e.read k c next).opened := by
  unfold read
  repeat' split
  all_goals simp

end Ending

/-! ## What stands in front -/

theorem operators_ending_le (k : Nat) (as bs : List Char) :
    (ending k bs).operators ≤ (ending k (as ++ bs)).operators := by
  induction as with
  | nil => exact Nat.le_refl _
  | cons c as ih => exact ih.trans (Ending.operators_le_read _ _ _ _)

theorem opened_ending_le (k : Nat) (as bs : List Char) :
    (ending k bs).opened ≤ (ending k (as ++ bs)).opened := by
  induction as with
  | nil => exact Nat.le_refl _
  | cons c as ih => exact ih.trans (Ending.opened_le_read _ _ _ _)

/-! ## Fewer characters -/

namespace Ending

variable {e e' : Ending} {next next' : Option Char}

/-- **`e'.Below e`** — the first scan has found no more than the second one, and as long as it goes on, so does
the second one, and both stand in the same parentheses. -/
structure Below (e' e : Ending) : Prop where
  operators : e'.operators ≤ e.operators
  opened : e'.opened ≤ e.opened
  live : e'.live = true → e.live = true ∧ e'.depth = e.depth ∧ e'.opened = e.opened

theorem Below.refl (e : Ending) : Below e e :=
  ⟨Nat.le_refl _, Nat.le_refl _, fun h => ⟨h, rfl, rfl⟩⟩

/-- What has stopped stays below. -/
theorem Below.of_dead (hoperators : e'.operators ≤ e.operators) (hopened : e'.opened ≤ e.opened)
    (hdead : e'.live = false) : Below e' e where
  operators := hoperators
  opened := hopened
  live := by
    rw [hdead]
    exact nofun

/-- A character that only the second scan reads is an operator of no consequence. -/
theorem Below.read_right (h : Below e' e) (hop : isDisplayOperator op = true) (hnext : next ≠ some ')') :
    Below e' (e.read k op next) where
  operators := h.operators.trans (operators_le_read _ _ _ _)
  opened := h.opened.trans (opened_le_read _ _ _ _)
  live := by
    intro hlive
    obtain ⟨hlive', hsame⟩ := h.live hlive
    rw [read_operator hlive' hop, if_neg hnext]
    split
    · exact ⟨hlive', hsame⟩
    · exact ⟨hlive', hsame⟩

/-- Both scans read an opening parenthesis, with white space behind it in the first text if there is any
behind it in the second one. -/
theorem Below.read_open (h : Below e' e) (hwhite : next.any isWhite = true → next'.any isWhite = true) :
    Below (e'.read k '(' next') (e.read k '(' next) := by
  have hoperators := h.operators.trans (operators_le_read e k '(' next)
  have hopened := h.opened.trans (opened_le_read e k '(' next)
  cases hlive : e'.live with
  | false =>
    rw [read_of_dead hlive]
    exact .of_dead hoperators hopened hlive
  | true =>
    obtain ⟨hlive', hdepth, hsame⟩ := h.live hlive
    rw [Ending.read_open hlive, hdepth]
    split
    · rename_i hpos
      rw [Ending.read_open hlive', if_pos hpos]
      exact ⟨h.operators, h.opened, fun _ => ⟨hlive', rfl, hsame⟩⟩
    split
    · exact .of_dead hoperators hopened rfl
    · rename_i hzero hvisible
      rw [Ending.read_open hlive', if_neg hzero, if_neg fun hw => hvisible (hwhite hw)]
      exact ⟨h.operators, Nat.succ_le_succ h.opened, fun _ => ⟨hlive', rfl, congrArg (· + 1) hsame⟩⟩

/-- Both scans read an operator, with a parenthesis behind it in the first text if there is one behind it
in the second one. -/
theorem Below.read_operator (h : Below e' e) (hop : isDisplayOperator op = true)
    (hopen : next = some '(' → next' = some '(') (hclose : next = some ')' → next' = some ')') :
    Below (e'.read k op next') (e.read k op next) := by
  have hoperators := h.operators.trans (operators_le_read e k op next)
  have hopened := h.opened.trans (opened_le_read e k op next)
  cases hlive : e'.live with
  | false =>
    rw [read_of_dead hlive]
    exact .of_dead hoperators hopened hlive
  | true =>
    obtain ⟨hlive', hdepth, hsame⟩ := h.live hlive
    rw [Ending.read_operator hlive hop, hdepth, hsame]
    split
    · exact .of_dead hoperators (opened_le_read e k op next) rfl
    rename_i hstuck
    rw [Ending.read_operator hlive' hop, if_neg fun hnext => hstuck (hclose hnext)]
    by_cases hfree : 0 < e.depth ∨ next = some '(' ∨ e.opened ≠ k
    · rw [if_pos hfree, if_pos (hfree.imp_right (Or.imp_left hopen))]
      exact h
    · rw [if_neg hfree]
      split
      · exact ⟨Nat.le_succ_of_le h.operators, h.opened, h.live⟩
      · exact ⟨Nat.succ_le_succ h.operators, Nat.le_refl _, fun _ => ⟨hlive', rfl, rfl⟩⟩

/-- Both scans read a character. What stands behind it in the second text and not in the first one is an
operator, or a parenthesis that no operator can go along with. -/
theorem Below.read (h : Below e' e)
    (hnext : next' = next ∨
      ∃ d ∈ next, isDisplayOperator d = true ∨ d = '(' ∧ isDisplayOperator c = false) :
    Below (e'.read k c next') (e.read k c next) := by
  by_cases ho : c = '('
  · subst ho
    refine h.read_open ?_
    rcases hnext with rfl | ⟨d, rfl, hd⟩
    · exact id
    rw [Option.any_some]
    rcases hd with hd | ⟨rfl, -⟩
    · rw [isWhite_of_isDisplayOperator hd]
      exact nofun
    · exact nofun
  cases hop : isDisplayOperator c with
  | true =>
    have hparen : ∀ paren, isDisplayOperator paren = false → next = some paren → next' = some paren := by
      rintro paren hparen rfl
      rcases hnext with hsame | ⟨d, hd, hd' | ⟨-, hnot⟩⟩
      · exact hsame
      · obtain rfl := Option.some.inj hd
        rw [hparen] at hd'
        cases hd'
      · rw [hop] at hnot
        cases hnot
    exact h.read_operator hop (hparen '(' rfl) (hparen ')' rfl)
  | false =>
    cases hlive : e'.live with
    | false =>
      rw [read_of_dead hlive]
      exact .of_dead (h.operators.trans (operators_le_read e k c next))
        (h.opened.trans (opened_le_read e k c next)) hlive
    | true =>
      obtain ⟨hlive', hdepth, hsame⟩ := h.live hlive
      by_cases hc : c = ')'
      · subst hc
        rw [read_close hlive, read_close hlive', hdepth]
        exact ⟨h.operators, h.opened, fun _ => ⟨hlive', rfl, hsame⟩⟩
      rw [read_other hlive hc ho hop, read_other hlive' hc ho hop, hdepth]
      split
      · exact h
      · exact .of_dead h.operators h.opened rfl

end Ending

/-- Of a run of one operator no more than one goes. -/
theorem ending_collapse_below (k : Nat) (cs : List Char) :
    (ending k (collapse cs)).Below (ending k cs) := by
  fun_induction collapse cs with
  | case1 => exact .refl _
  | case2 c => exact .refl _
  | case3 c d cs hrun ih =>
    rw [Bool.and_eq_true, beq_iff_eq] at hrun
    obtain ⟨hop, rfl⟩ := hrun
    refine ih.read_right hop ?_
    obtain ⟨-, hclose⟩ := isDisplayOperator_ne hop
    simpa using hclose
  | case4 c d cs _ ih => exact ih.read (.inl (head?_collapse (d :: cs)))

/-- An empty pair is read as nothing at all, and so is an operator in front of it. -/
theorem ending_append_of_removable {found : List Char} (h : Removable found) (k : Nat)
    (cs : List Char) :
    ending k (found ++ cs) = ending k cs := by
  have hpair : ending k ('(' :: ')' :: cs) = ending k cs := (ending k cs).read_pair k cs.head?
  cases h with
  | pair => exact hpair
  | @operator op hop =>
    show (ending k ('(' :: ')' :: cs)).read k op (some '(') = ending k cs
    rw [hpair]
    cases hlive : (ending k cs).live with
    | false => exact Ending.read_of_dead hlive
    | true => rw [Ending.read_operator hlive hop, if_neg (by decide), if_pos (.inr (.inl rfl))]

theorem ending_dropEmptyGroups_below (k : Nat) (cs : List Char) :
    (ending k (dropEmptyGroups cs)).Below (ending k cs) := by
  induction cs using removable_induction with
  | nil => exact .refl _
  | remove found cs hfound ih =>
    rwa [dropEmptyGroups_append_of_removable hfound, ending_append_of_removable hfound]
  | keep c cs hc ih =>
    rw [dropEmptyGroups_cons_of_kept hc]
    exact ih.read (head?_dropEmptyGroups_of_kept hc)

/-! ## The first character -/

/-- The operators that go one by one, the first character aside: it stays if it is all that there is. -/
theorem operators_tail_collapse_le (k : Nat) (cs : List Char) :
    (ending k (collapse cs).tail).operators ≤ (ending k cs.tail).operators := by
  fun_induction collapse cs with
  | case1 => exact Nat.le_refl _
  | case2 c => exact Nat.le_refl _
  | case3 c d cs _ ih => exact ih.trans (operators_ending_le k [d] cs)
  | case4 c d cs _ _ => exact (ending_collapse_below k (d :: cs)).operators

theorem operators_tail_dropEmptyGroups_le (k : Nat) (cs : List Char) :
    (ending k (dropEmptyGroups cs).tail).operators ≤ (ending k cs.tail).operators := by
  cases hdrop : dropEmptyGroups cs with
  | nil => exact Nat.zero_le _
  | cons c rest =>
    obtain ⟨front, back, rfl, -, rfl, -⟩ :=
      exists_of_dropEmptyGroups_eq (hdrop.trans (List.nil_append (c :: rest)).symm)
    rw [List.tail_cons]
    refine (ending_dropEmptyGroups_below k back).operators.trans ?_
    cases front with
    | nil => exact Nat.le_refl _
    | cons d front =>
      have hle := operators_ending_le k (front ++ [c]) back
      rwa [List.append_assoc, List.singleton_append] at hle

/-! ## An operator at the end -/

theorem ending_of_white (h : White cs) : ending k cs = .start := by
  induction cs with
  | nil => rfl
  | cons c cs ih =>
    obtain ⟨hc, hcs⟩ := List.forall_mem_cons.mp h
    have hclose : c ≠ ')' := by
      rintro rfl
      cases hc
    have hopen : c ≠ '(' := by
      rintro rfl
      cases hc
    have hop : isDisplayOperator c = false := by
      by_contra hop
      rw [isWhite_of_isDisplayOperator (Bool.eq_true_of_not_eq_false hop)] at hc
      cases hc
    rw [ending, ih hcs, Ending.read_other rfl hclose hopen hop, if_pos ⟨hc, rfl⟩]

namespace Ending

variable {e : Ending} {next : Option Char}

/-- **`e.more n`** — `n` operators more. -/
def more (e : Ending) (n : Nat) : Ending := { e with operators := e.operators + n }

/-- An operator behind a character is to the scan as nothing behind it. -/
theorem read_operator_behind (e : Ending) (k : Nat) (c : Char) (hop : isDisplayOperator op = true) :
    e.read k c (some op) = e.read k c none := by
  obtain ⟨hopen, hclose⟩ := isDisplayOperator_ne hop
  simp [read, isWhite_of_isDisplayOperator hop, hopen, hclose]

theorem read_more (e : Ending) (n k : Nat) (c : Char) (next : Option Char) :
    (e.more n).read k c next = (e.read k c next).more n := by
  unfold read more
  repeat' split
  all_goals simp only [Nat.add_right_comm]

end Ending

/-- An operator with nothing but white space behind it is one more, in front of no parenthesis. -/
theorem ending_append_operator (hop : isDisplayOperator op = true) (hbs : White bs) (k : Nat)
    (as : List Char) :
    ending k (as ++ op :: bs) = (ending k as).more (if k = 0 then 1 else 0) := by
  induction as with
  | nil =>
    show (ending k bs).read k op bs.head? = Ending.start.more (if k = 0 then 1 else 0)
    have hnext : ∀ paren, isWhite paren = false → bs.head? ≠ some paren := by
      intro paren hparen hhead
      rw [hbs paren (List.mem_of_head? hhead)] at hparen
      cases hparen
    rw [ending_of_white hbs, Ending.read_operator rfl hop, if_neg (hnext ')' rfl)]
    cases k with
    | zero => exact if_neg (by simp [Ending.start, hnext '(' rfl])
    | succ k => exact if_pos (.inr (.inr (Nat.succ_ne_zero k).symm))
  | cons c as ih =>
    rw [List.cons_append, ending, ending, ih, Ending.read_more]
    cases as with
    | nil => exact congrArg (Ending.more · _) (Ending.start.read_operator_behind k c hop)
    | cons d as => rfl

/-! ## Parentheses that are closed at the end -/

theorem ending_replicate_close (n k : Nat) : ending n (List.replicate k ')') = ⟨true, k, 0, 0⟩ := by
  induction k with
  | zero => rfl
  | succ k ih => rw [List.replicate_succ, ending, ih, Ending.read_close rfl]

namespace Ending

variable {e e' : Ending} {next next' : Option Char}

/-- **`Closing k next e' e`** — the scan of a text with `k` parentheses closed at the end, beside that of the
text. The `)` wait for the first `k` that are open, and so it counts the operators in front of these. -/
structure Closing (k : Nat) (next : Option Char) (e' e : Ending) : Prop where
  operators : e'.operators ≤ e.operators
  live : e'.live = true → e.live = true
  depth : e'.live = true → e'.depth = e.depth + (k - e.opened)
  opened : e'.live = true → e'.opened = e.opened - k
  white : e'.live = true → next.any isWhite = true → e'.depth = 0

theorem Closing.of_dead (hoperators : e'.operators ≤ e.operators) (hdead : e'.live = false) :
    Closing k next e' e where
  operators := hoperators
  live := by rw [hdead]; exact nofun
  depth := by rw [hdead]; exact nofun
  opened := by rw [hdead]; exact nofun
  white := by rw [hdead]; exact nofun

/-- Both scans read an opening parenthesis. If a `)` at the end waits for it, it is one of the first `k` that
are open. -/
theorem Closing.read_open (h : Closing k next e' e)
    (hwhite : next.any isWhite = true → next'.any isWhite = true) :
    Closing k (some '(') (e'.read 0 '(' next') (e.read k '(' next) := by
  have hoperators := h.operators.trans (operators_le_read e k '(' next)
  cases hlive : e'.live with
  | false =>
    rw [read_of_dead hlive]
    exact .of_dead hoperators hlive
  | true =>
    have hlive' := h.live hlive
    have hdepth := h.depth hlive
    have hopened := h.opened hlive
    by_cases hpos : 0 < e.depth
    · rw [Ending.read_open hlive, Ending.read_open hlive', if_pos hpos, if_pos (by omega)]
      exact ⟨h.operators, fun _ => hlive', fun _ => by dsimp only; omega, fun _ => hopened, fun _ => nofun⟩
    -- behind a blank no `)` can wait, and so both scans stop in front of one
    rw [Ending.read_open hlive]
    split
    · rename_i hpos'
      have hvisible : ¬ next.any isWhite = true := fun hw => by
        rw [h.white hlive hw] at hpos'
        cases hpos'
      rw [Ending.read_open hlive', if_neg hpos, if_neg hvisible]
      exact ⟨h.operators, fun _ => hlive', fun _ => by dsimp only; omega,
        fun _ => by dsimp only; omega, fun _ => nofun⟩
    split
    · exact .of_dead hoperators rfl
    · rename_i hvisible
      rw [Ending.read_open hlive', if_neg hpos, if_neg fun hw => hvisible (hwhite hw)]
      exact ⟨h.operators, fun _ => hlive', fun _ => by dsimp only; omega,
        fun _ => by dsimp only; omega, fun _ => nofun⟩

/-- Both scans read an operator, and if it is not in front of a `)`, with the same behind it. -/
theorem Closing.read_operator (h : Closing k next e' e) (hop : isDisplayOperator op = true)
    (hnext : next' ≠ some ')' → next' = next) :
    Closing k (some op) (e'.read 0 op next') (e.read k op next) := by
  have hoperators := h.operators.trans (operators_le_read e k op next)
  have hwhite : ¬ (some op).any isWhite = true := by
    rw [Option.any_some, isWhite_of_isDisplayOperator hop]
    exact nofun
  cases hlive : e'.live with
  | false =>
    rw [read_of_dead hlive]
    exact .of_dead hoperators hlive
  | true =>
    have hlive' := h.live hlive
    have hdepth := h.depth hlive
    have hopened := h.opened hlive
    rw [Ending.read_operator hlive hop]
    split
    · exact .of_dead hoperators rfl
    rename_i hclose
    obtain rfl := hnext hclose
    rw [Ending.read_operator hlive' hop, if_neg hclose]
    by_cases hfree : 0 < e.depth ∨ next' = some '(' ∨ e.opened ≠ k
    · -- with fewer than `k` parentheses open a `)` waits, and with more than `k` one is open in both texts
      have hfree' : 0 < e'.depth ∨ next' = some '(' ∨ e'.opened ≠ 0 := by
        rcases hfree with hfree | hfree | hfree
        · exact .inl (by omega)
        · exact .inr (.inl hfree)
        · rcases Nat.lt_or_gt_of_ne hfree with hlt | hgt
          · exact .inl (by omega)
          · exact .inr (.inr (by omega))
      rw [if_pos hfree, if_pos hfree']
      exact ⟨h.operators, fun _ => hlive', fun _ => hdepth, fun _ => hopened,
        fun _ hw => absurd hw hwhite⟩
    · rw [if_neg hfree]
      split
      · exact ⟨Nat.le_succ_of_le h.operators, fun _ => hlive', fun _ => hdepth, fun _ => hopened,
          fun _ hw => absurd hw hwhite⟩
      · exact ⟨Nat.succ_le_succ h.operators, fun _ => hlive', fun _ => hdepth, fun _ => hopened,
          fun _ hw => absurd hw hwhite⟩

/-- Both scans read a character. Behind the last one of the text stands the first `)`, if there is one. -/
theorem Closing.read (h : Closing k next e' e)
    (hnext : next' = next ∨ next' = some ')' ∧ next = none) :
    Closing k (some c) (e'.read 0 c next') (e.read k c next) := by
  by_cases ho : c = '('
  · subst ho
    refine h.read_open fun hw => ?_
    rcases hnext with rfl | ⟨-, rfl⟩
    · exact hw
    · cases hw
  cases hop : isDisplayOperator c with
  | true => exact h.read_operator hop fun hclose => hnext.resolve_right fun ⟨hclose', _⟩ => hclose hclose'
  | false =>
    cases hlive : e'.live with
    | false =>
      rw [read_of_dead hlive]
      exact .of_dead (h.operators.trans (operators_le_read e k c next)) hlive
    | true =>
      have hlive' := h.live hlive
      have hdepth := h.depth hlive
      have hopened := h.opened hlive
      by_cases hc : c = ')'
      · subst hc
        rw [read_close hlive, read_close hlive']
        exact ⟨h.operators, fun _ => hlive', fun _ => by dsimp only; omega, fun _ => hopened,
          fun _ => nofun⟩
      rw [read_other hlive hc ho hop, read_other hlive' hc ho hop]
      split
      · rename_i hblank
        rw [if_pos ⟨hblank.1, by omega⟩]
        exact ⟨h.operators, fun _ => hlive', fun _ => hdepth, fun _ => hopened, fun _ _ => hblank.2⟩
      · exact .of_dead (by split <;> exact h.operators) rfl

end Ending

theorem ending_append_close (k : Nat) (cs : List Char) :
    Ending.Closing k cs.head? (ending 0 (cs ++ List.replicate k ')')) (ending k cs) := by
  induction cs with
  | nil =>
    rw [List.nil_append, ending_replicate_close]
    exact ⟨Nat.le_refl _, fun _ => rfl, fun _ => (Nat.zero_add k).symm, fun _ => (Nat.zero_sub k).symm,
      fun _ => nofun⟩
  | cons c cs ih =>
    refine ih.read ?_
    cases cs with
    | nil =>
      cases k with
      | zero => exact .inl rfl
      | succ k => exact .inr ⟨rfl, rfl⟩
    | cons d cs => exact .inl rfl

/-- Of operators and opening parentheses the latter are all left open. -/
theorem opened_ending_of_forall (k : Nat)
    (h : ∀ c ∈ cs, isDisplayOperator c = true ∨ c = '(') :
    (ending k cs).live = true ∧ (ending k cs).depth = 0 ∧ (ending k cs).opened = cs.count '(' := by
  induction cs with
  | nil => exact ⟨rfl, rfl, rfl⟩
  | cons c cs ih =>
    obtain ⟨hc, hcs⟩ := List.forall_mem_cons.mp h
    obtain ⟨hlive, hdepth, hopened⟩ := ih hcs
    rw [ending]
    rcases hc with hop | rfl
    · obtain ⟨hopen, -⟩ := isDisplayOperator_ne hop
      have hclose : cs.head? ≠ some ')' := by
        intro hhead
        rcases hcs ')' (List.mem_of_head? hhead) with hparen | hparen <;> cases hparen
      rw [Ending.read_operator hlive hop, if_neg hclose, List.count_cons_of_ne hopen]
      split
      · exact ⟨hlive, hdepth, hopened⟩
      · exact ⟨hlive, hdepth, hopened⟩
    · have hvisible : ¬ cs.head?.any isWhite = true := by
        rw [Option.any_eq_true]
        rintro ⟨x, hx, hw⟩
        rcases hcs x (List.mem_of_head? hx) with hop | rfl
        · rw [isWhite_of_isDisplayOperator hop] at hw
          cases hw
        · cases hw
      rw [Ending.read_open hlive, hdepth, if_neg (Nat.lt_irrefl 0), if_neg hvisible,
        List.count_cons_self]
      exact ⟨hlive, rfl, congrArg (· + 1) hopened⟩

/-! ## Hollow parts that are closed at the end -/

/-- A part that ends with a character that the back does not have lies in the front. -/
theorem infix_of_infix_append (hc : c ∉ bs) (h : f ++ [c] <:+: as ++ bs) : f ++ [c] <:+: as := by
  obtain ⟨before, behind, hparts⟩ := h
  rcases List.append_eq_append_iff.mp hparts with ⟨rest, rfl, -⟩ | ⟨rest, hbefore, rfl⟩
  · exact ⟨before, rest, rfl⟩
  rcases List.eq_nil_or_concat rest with rfl | ⟨rest, x, rfl⟩
  · rw [List.append_nil] at hbefore
    exact ⟨before, [], by rw [hbefore, List.append_nil]⟩
  · rw [List.concat_eq_append, ← List.append_assoc, ← List.append_assoc] at hbefore
    have hlast := congrArg List.getLast? hbefore
    rw [List.getLast?_concat, List.getLast?_concat] at hlast
    obtain rfl := Option.some.inj hlast
    simp at hc

/-- In a text without empty pairs, what is in front of closing parentheses in a hollow part closes none
itself. -/
theorem Hollow.forall_of_filled (h : Hollow (front ++ bs)) (hfilled : Filled front) :
    ∀ c ∈ front, isDisplayOperator c = true ∨ c = '(' := by
  have hclose : ')' ∉ front := by
    intro hmem
    obtain ⟨as, rest, rfl, hfirst⟩ := List.eq_append_cons_of_mem hmem
    rcases List.eq_nil_or_concat as with rfl | ⟨as, c, rfl⟩
    · exact h.head?_ne rfl
    rw [List.concat_eq_append] at *
    have hpair : [c, ')'] <:+: as ++ [c] ++ ')' :: rest := ⟨as, rest, by simp⟩
    rcases h.bare c (by simp) with hop | rfl | rfl
    · have hchain := isChain_iff_forall_infix.mp (List.isChain_append.mp h.unstuck).1
      exact hchain c ')' (hpair.trans (List.infix_append_left ..)) hop rfl
    · exact filled_iff.mp hfilled hpair
    · exact hfirst (by simp)
  intro c hc
  have hbare := h.bare c (List.mem_append_left bs hc)
  rcases hbare with hop | rfl | rfl
  · exact .inl hop
  · exact .inr rfl
  · exact absurd hc hclose

/-- A hollow part of a text with parentheses closed at its end lies in the text, or it is an end of the text
and some of what is added. -/
theorem Hollow.exists_of_infix_append_close (h : Hollow f) (hne : f ≠ [])
    (hf : f <:+: cs ++ List.replicate k ')') :
    f <:+: cs ∨ ∃ front j, f = front ++ List.replicate j ')' ∧ j ≤ k ∧ front <:+ cs := by
  obtain ⟨before, behind, hparts⟩ := hf
  rcases List.append_eq_append_iff.mp hparts with ⟨rest, rfl, -⟩ | ⟨ends, hbefore, hends⟩
  · exact .inl ⟨before, rest, rfl⟩
  obtain ⟨hlength, hends, -⟩ := List.replicate_eq_append_iff.mp hends
  rcases List.append_eq_append_iff.mp hbefore with ⟨front, rfl, rfl⟩ | ⟨rest, -, rfl⟩
  · exact .inr ⟨front, ends.length, by rw [← hends], by omega, List.suffix_append before front⟩
  · -- then there would be nothing in it but closing parentheses
    obtain ⟨c, f, rfl⟩ := List.exists_cons_of_ne_nil hne
    have hc : c ∈ List.replicate (rest ++ c :: f).length ')' := by
      rw [← hends]
      simp
    rw [List.eq_of_mem_replicate hc] at h
    exact absurd rfl h.head?_ne

/-- A hollow part of a text without empty pairs that is closed with `k` parentheses has no more of them
open than were open at its end. -/
theorem deepest_hollow_append_close_le (hfilled : Filled cs) (n k : Nat) :
    deepest Hollow (cs ++ List.replicate k ')') ≤ min (ending n cs).opened k := by
  refine deepest_le_iff.mpr fun f hf hollow => ?_
  by_cases hnil : f = []
  · rw [hnil]
    exact nestsWithin_of_free (by simp) _
  obtain hf | ⟨front, j, rfl, hj, hsuffix⟩ := hollow.exists_of_infix_append_close hnil hf
  · exact absurd (hollow.eq_nil_of_filled hf hfilled) hnil
  have hfront : Filled front := List.IsChain.infix hfilled hsuffix.isInfix
  have hbare := hollow.forall_of_filled hfront
  have hopened := (opened_ending_of_forall n hbare).2.2
  have hnone : front.count ')' = 0 := by
    refine List.count_eq_zero_of_not_mem fun hmem => ?_
    rcases hbare _ hmem with hop | hop <;> cases hop
  obtain ⟨as, rfl⟩ := hsuffix
  have hle := opened_ending_le n as front
  have hcount := hollow.balanced.count_eq
  have hfree : (List.replicate j ')').count '(' = 0 := by
    rw [List.count_replicate]
    rfl
  -- all the `(` of the part are in `front`, and every `)` is one of the `j` behind it
  intro p hp
  have hp := hp.count_le '('
  rw [List.count_append, hfree] at hp
  rw [List.count_append, List.count_append, List.count_replicate_self, hfree, hnone] at hcount
  omega

/-- No parting is closed at the end, for it ends in an operator. -/
theorem deepest_parting_append_close_le (k : Nat) (cs : List Char) :
    deepest Parting (cs ++ List.replicate k ')') ≤ deepest Parting cs := by
  refine deepest_le_iff.mpr fun f hf hparting => nestsWithin_deepest ?_ hparting
  obtain @⟨c, op, v, hc, -, -, -⟩ := hparting
  refine infix_of_infix_append (fun hmem => ?_) hf
  exact (isDisplayOperator_ne hc).2 (List.eq_of_mem_replicate hmem)

end Reckoner
