/-
# Reckoner.Proofs.Repair.Levels — how many repairs a text takes.

A round of repair takes one level off a slip: of empty pairs of parentheses inside each other it removes
the innermost, and of operators at the end the last one. So it depends on the text how many rounds it
takes, and no number of rounds is enough for every text. `((((` takes five.

`levels` counts the levels by what stands in the text. They are added up over the ways in which the rules
come to fire: a doubled operator, which is mended in one round however often it occurs; the deepest hollow
part, and the deepest one between equal operators, which becomes a doubled operator; the operators that
go one by one at the end; and if parentheses are left open, their closing, the empty pairs that it makes
and the operators in front of these.

Every repair lowers this number (`levels_succ_le_of_firstFix?`), so the run is over after as many rounds.
`Chain` is a run to its end, with the rules that fire.
-/
import Reckoner.Proofs.Repair.Ending

namespace Reckoner

variable {cs front rest fixed final : List Char} {rule : Rule} {rules : List Rule}

/-! ## The levels of a text -/

/-- **`missing cs`** — how many closing parentheses are missing. -/
def missing (cs : List Char) : Nat := cs.count '(' - cs.count ')'

/-- **`closing cs`** — the levels that come of closing what is open: one, and one for each empty pair inside
another that may come of it, and the operators that stand in front of these. -/
def closing (cs : List Char) : Nat :=
  if missing cs = 0 then 0
  else 1 + min (ending 0 cs).opened (missing cs) + (ending (missing cs) cs.tail).operators

/-- **`slips cs`** — the levels of a text without doubled operators. The first character is not counted as
an operator at the end, because nothing would be left without it. -/
def slips (cs : List Char) : Nat :=
  deepest Hollow cs + deepest Parting cs + (ending 0 cs.tail).operators + closing cs

/-- **`levels cs`** — the levels of a text, with one for its doubled operators. -/
def levels (cs : List Char) : Nat := (if Undoubled cs then 0 else 1) + slips (collapse cs)

theorem closing_le {as bs : List Char} (hmissing : missing as = missing bs)
    (hopened : (ending 0 as).opened ≤ (ending 0 bs).opened)
    (hoperators : (ending (missing bs) as.tail).operators ≤ (ending (missing bs) bs.tail).operators) :
    closing as ≤ closing bs := by
  rw [closing, closing, hmissing]
  split
  · exact Nat.le_refl _
  · omega

theorem missing_congr {as bs : List Char} (h : excess as = excess bs) : missing as = missing bs := by
  unfold excess at h
  unfold missing
  omega

theorem levels_of_undoubled (h : Undoubled cs) : levels cs = slips cs := by
  rw [levels, if_pos h, collapse_eq_self h, Nat.zero_add]

/-! ## A repair takes a level off -/

theorem undoubled_collapse (cs : List Char) : Undoubled (collapse cs) := by
  fun_induction collapse cs with
  | case1 => exact List.isChain_nil
  | case2 c => exact List.isChain_singleton c
  | case3 c d cs _ ih => exact ih
  | case4 c d cs hne ih =>
    refine List.isChain_cons.mpr ⟨?_, ih⟩
    rw [head?_collapse]
    rintro x hx hop rfl
    obtain rfl := Option.some.inj hx
    exact hne (by rw [hop, beq_self_eq_true]; rfl)

theorem levels_collapse (h : ¬ Undoubled cs) : levels (collapse cs) + 1 ≤ levels cs := by
  rw [levels_of_undoubled (undoubled_collapse cs), levels, if_neg h]
  omega

/-- Whatever the pass leaves is less deep, and a doubled operator that it leaves has cost a level. -/
theorem levels_dropEmptyGroups (hundoubled : Undoubled cs) (hempty : ¬ Filled cs) :
    levels (dropEmptyGroups cs) + 1 ≤ levels cs := by
  have hpass := deepest_hollow_dropEmptyGroups hempty
  have hhollow := deepest_hollow_collapse_le (dropEmptyGroups cs)
  have hparting := deepest_parting_collapse_le (dropEmptyGroups cs)
  have hoperators (k : Nat) :=
    (operators_tail_collapse_le k _).trans (operators_tail_dropEmptyGroups_le k cs)
  have hopened := (ending_collapse_below 0 _).opened.trans (ending_dropEmptyGroups_below 0 cs).opened
  have hclosing := closing_le
    (missing_congr ((excess_collapse _).trans (excess_dropEmptyGroups cs))) hopened (hoperators _)
  have hend := hoperators 0
  have hdoubled : (if Undoubled (dropEmptyGroups cs) then 0 else 1) +
      deepest Parting (dropEmptyGroups cs) ≤ deepest Parting cs := by
    have hpass := deepest_parting_dropEmptyGroups hundoubled
    split
    · omega
    · rename_i hrest
      have hpos := deepest_parting_pos hundoubled hrest
      omega
  rw [levels_of_undoubled hundoubled, levels, slips, slips]
  omega

/-- There is a level in every text with an empty pair. -/
theorem levels_pos (hundoubled : Undoubled cs) (hempty : ¬ Filled cs) : 0 < levels cs :=
  Nat.lt_of_lt_of_le (Nat.succ_pos _) (levels_dropEmptyGroups hundoubled hempty)

/-- The operator that is dropped is one of those at the end, and the others are as many as before. -/
theorem levels_of_trim {op : Char} (hundoubled : Undoubled cs) (hfilled : Filled cs)
    (hop : isDisplayOperator op = true) (htrim : trim cs = fixed ++ [op]) (hne : fixed ≠ []) :
    levels fixed + 1 ≤ levels cs := by
  obtain ⟨before, behind, hbefore, hbehind, hcs⟩ := exists_eq_append_trim cs
  obtain ⟨c, rest, rfl⟩ := List.exists_cons_of_ne_nil hne
  have hsplit : cs = before ++ (c :: rest ++ op :: behind) := by
    rw [hcs, htrim]
    simp
  have hpart : c :: rest <:+: cs := ⟨before, op :: behind, by rw [hsplit, List.append_assoc]⟩
  have hundoubled' : Undoubled (c :: rest) := List.IsChain.infix hundoubled hpart
  have hfilled' : Filled (c :: rest) := List.IsChain.infix hfilled hpart
  have htail (k : Nat) : (ending k (rest ++ op :: behind)).operators ≤ (ending k cs.tail).operators := by
    rw [hsplit]
    cases before with
    | nil => exact Nat.le_refl _
    | cons b before =>
      have hle := operators_ending_le k (before ++ [c]) (rest ++ op :: behind)
      rwa [List.append_assoc] at hle
  simp only [ending_append_operator hop hbehind] at htail
  have hopened : (ending 0 (c :: rest)).opened ≤ (ending 0 cs).opened := by
    have hle := opened_ending_le 0 before (c :: rest ++ op :: behind)
    rwa [ending_append_operator hop hbehind, ← hsplit] at hle
  have hmissing : missing (c :: rest) = missing cs := by
    apply missing_congr
    rw [hsplit, excess_append, excess_append, excess_cons op, excess_of_white hbefore,
      excess_of_white hbehind, excess_operator hop]
    omega
  have hclosing : closing (c :: rest) ≤ closing cs :=
    closing_le hmissing hopened ((Nat.le_add_right _ _).trans (htail _))
  have hend : (ending 0 rest).operators + 1 ≤ (ending 0 cs.tail).operators := htail 0
  rw [levels_of_undoubled hundoubled, levels_of_undoubled hundoubled', slips, slips,
    deepest_hollow_eq_zero hfilled', deepest_parting_eq_zero hfilled', List.tail_cons]
  omega

theorem undoubled_of_forall_not_operator (h : ∀ c ∈ cs, isDisplayOperator c = false) : Undoubled cs := by
  rw [undoubled_iff]
  intro op hop hocc
  rw [h op (hocc.subset List.mem_cons_self)] at hop
  cases hop

theorem undoubled_append_close (h : Undoubled cs) (n : Nat) :
    Undoubled (cs ++ List.replicate n ')') := by
  have hclose : ∀ c ∈ List.replicate n ')', isDisplayOperator c = false := by
    intro c hc
    rw [List.eq_of_mem_replicate hc]
    rfl
  refine List.isChain_append.mpr ⟨h, undoubled_of_forall_not_operator hclose, ?_⟩
  rintro c - d hd hc rfl
  rw [hclose c (List.mem_of_head? hd)] at hc
  cases hc

theorem count_closed (cs : List Char) : (closed cs).count '(' ≤ (closed cs).count ')' := by
  rw [closed, List.count_append, List.count_append, List.count_replicate_self, List.count_replicate,
    if_neg (by decide)]
  omega

/-- Closing what is open is a level, and the empty pairs that it makes have been counted. -/
theorem levels_closed (hundoubled : Undoubled cs) (hfilled : Filled cs) (hopen : missing cs ≠ 0) :
    levels (closed cs) + 1 ≤ levels cs := by
  have hundoubled' : Undoubled (closed cs) := undoubled_append_close hundoubled _
  have hhollow : deepest Hollow (closed cs) ≤ min (ending 0 cs).opened (missing cs) :=
    deepest_hollow_append_close_le hfilled 0 _
  have hparting : deepest Parting (closed cs) ≤ deepest Parting cs :=
    deepest_parting_append_close_le _ cs
  have hoperators : (ending 0 (closed cs).tail).operators ≤
      (ending (missing cs) cs.tail).operators := by
    cases cs with
    | nil => exact absurd rfl hopen
    | cons c cs => exact (ending_append_close _ cs).operators
  have hclosed : closing (closed cs) = 0 := if_pos (Nat.sub_eq_zero_of_le (count_closed cs))
  rw [levels_of_undoubled hundoubled, levels_of_undoubled hundoubled', slips, slips, hclosed, closing,
    if_neg hopen]
  omega

/-- Each repair takes a level off. -/
theorem levels_succ_le_of_firstFix? (h : firstFix? cs = some (rule, fixed)) :
    levels fixed + 1 ≤ levels cs := by
  have hfire := fire?_of_firstFix?_eq_some h
  have hslip := Rule.not_spares_of_fire?_eq_some hfire
  -- the rules that come earlier have spared the text, so it has none of their slips
  have hearlier (r : Rule) (hr : r ∈ Rule.order.takeWhile (· ≠ rule)) := spares_of_firstFix? h hr
  cases rule with
  | duplicateOperator =>
    rw [Rule.fire?_of_not_undoubled hslip] at hfire
    obtain rfl := Option.some.inj hfire
    exact levels_collapse hslip
  | emptyParentheses =>
    have hundoubled : Undoubled cs := hearlier .duplicateOperator (by decide)
    rcases (Rule.fire?_emptyParentheses hfire).2 with ⟨-, rfl⟩ | ⟨-, rfl⟩
    · exact levels_pos hundoubled hslip
    · exact levels_dropEmptyGroups hundoubled hslip
  | trailingOperator =>
    have hundoubled : Undoubled cs := hearlier .duplicateOperator (by decide)
    have hfilled : Filled cs := hearlier .emptyParentheses (by decide)
    obtain ⟨op, hop, htrim⟩ := Rule.fire?_trailingOperator hfire
    exact levels_of_trim hundoubled hfilled hop htrim (Rule.fire?_eq_some_iff.mp hfire).2.1
  | unclosedParentheses =>
    have hundoubled : Undoubled cs := hearlier .duplicateOperator (by decide)
    have hfilled : Filled cs := hearlier .emptyParentheses (by decide)
    rw [Rule.fire?_of_open (Nat.lt_of_not_le hslip)] at hfire
    obtain rfl := Option.some.inj hfire
    exact levels_closed hundoubled hfilled (Nat.sub_ne_zero_of_lt (Nat.lt_of_not_le hslip))

/-! ## Runs to the end -/

/-- **`Chain cs rules final`** — `rules` fire on `cs` one after the other, and then, on `final`, none
does. -/
inductive Chain : List Char → List Rule → List Char → Prop
  | done {cs : List Char} : firstFix? cs = none → Chain cs [] cs
  | fix {cs fixed final : List Char} {rule : Rule} {rules : List Rule} :
      firstFix? cs = some (rule, fixed) → Chain fixed rules final → Chain cs (rule :: rules) final

/-- Every text has a run to the end, because effort goes down. -/
theorem exists_chain (cs : List Char) : ∃ rules final, Chain cs rules final := by
  induction hn : effort cs using Nat.strong_induction_on generalizing cs with
  | _ n ih =>
    cases h : firstFix? cs with
    | none => exact ⟨[], cs, .done h⟩
    | some firing =>
      obtain ⟨rule, fixed⟩ := firing
      obtain ⟨rules, final, hchain⟩ := ih (effort fixed) (hn ▸ effort_lt_of_firstFix? h) fixed rfl
      exact ⟨rule :: rules, final, .fix h hchain⟩

namespace Chain

/-- With as many rounds as there are rules to fire a run comes to its end. -/
theorem repaired_eq (h : Chain cs rules final) {rounds : Nat} (hr : rules.length ≤ rounds) :
    repaired rounds (.ofList cs) = .ofList final := by
  induction h generalizing rounds with
  | done hnone => rw [repaired_of_firstFix?_eq_none (by rwa [String.toList_ofList])]
  | fix hfirst _ ih =>
    rw [List.length_cons] at hr
    obtain ⟨rounds, rfl⟩ := Nat.exists_eq_add_one_of_ne_zero (by omega : rounds ≠ 0)
    rw [repaired_of_firstFix?_eq_some (by rwa [String.toList_ofList]),
      ih (Nat.le_of_succ_le_succ hr)]

/-- With fewer rounds it ends where another rule fires. -/
theorem exists_firstFix?_repaired (h : Chain cs rules final) {rounds : Nat}
    (hr : rounds < rules.length) :
    ∃ rule fixed, firstFix? (repaired rounds (.ofList cs)).toList = some (rule, fixed) := by
  induction h generalizing rounds with
  | done _ => cases hr
  | @fix cs fixed final rule rules hfirst _ ih =>
    cases rounds with
    | zero =>
      refine ⟨rule, fixed, ?_⟩
      rw [show repaired 0 (String.ofList cs) = .ofList cs from rfl, String.toList_ofList]
      exact hfirst
    | succ rounds =>
      rw [repaired_of_firstFix?_eq_some (by rwa [String.toList_ofList])]
      exact ih (Nat.lt_of_succ_lt_succ hr)

theorem suggestFix_final (h : Chain cs rules final) :
    suggestFix (.ofList final) = .unavailable := by
  induction h with
  | done hnone => rw [suggestFix, String.toList_ofList, hnone]
  | fix _ _ ih => exact ih

end Chain

/-- A run has no more repairs than the text has levels. -/
theorem Chain.length_le_levels (h : Chain cs rules final) : rules.length ≤ levels cs := by
  induction h with
  | done _ => exact Nat.zero_le _
  | fix hfirst _ ih =>
    rw [List.length_cons]
    exact (Nat.succ_le_succ ih).trans (levels_succ_le_of_firstFix? hfirst)

/-! ## Pairs inside each other -/

theorem filled_of_not_mem_close (h : ')' ∉ cs) : Filled cs :=
  filled_iff.mpr fun hocc => h (hocc.subset (List.mem_cons_of_mem _ List.mem_cons_self))

/-- Parentheses that are all left open are no slip but that. -/
theorem tidy_replicate_open (m : Nat) : Tidy (List.replicate m '(') := by
  have hopen : ∀ c ∈ List.replicate m '(', c = '(' := fun c hc => List.eq_of_mem_replicate hc
  refine ⟨undoubled_of_forall_not_operator fun c hc => ?_, filled_of_not_mem_close fun hmem => ?_, ?_⟩
  · rw [hopen c hc]
    rfl
  · exact absurd (hopen _ hmem) (by decide)
  · cases m with
    | zero =>
      intro front op htrim
      cases front <;> cases htrim
    | succ m =>
      rw [List.replicate_succ']
      exact spares_trailingOperator_concat rfl rfl _

theorem closed_replicate_open (m : Nat) :
    closed (List.replicate m '(') = List.replicate m '(' ++ List.replicate m ')' := by
  rw [closed, List.count_replicate_self, List.count_replicate, if_neg (by decide), Nat.sub_zero]

theorem dropEmptyGroups_replicate_open (m : Nat) (rest : List Char) :
    dropEmptyGroups (List.replicate m '(' ++ '(' :: ')' :: rest) =
      List.replicate m '(' ++ dropEmptyGroups rest := by
  induction m with
  | zero => rfl
  | succ m ih =>
    rw [List.replicate_succ, List.cons_append, dropEmptyGroups_cons_of_kept, ih, List.cons_append]
    rw [removableAt_cons_zero_iff]
    rintro (⟨-, hclose⟩ | ⟨hop, -⟩)
    · cases m <;> exact absurd (List.cons_prefix_cons.mp hclose).1 (by decide)
    · cases hop

/-- The innermost of several pairs is removed. -/
theorem firstFix?_pairs (m : Nat) :
    firstFix? (List.replicate (m + 2) '(' ++ List.replicate (m + 2) ')') =
      some (.emptyParentheses, List.replicate (m + 1) '(' ++ List.replicate (m + 1) ')') := by
  have hpairs : List.replicate (m + 2) '(' ++ List.replicate (m + 2) ')' =
      List.replicate (m + 1) '(' ++ '(' :: ')' :: List.replicate (m + 1) ')' := by
    rw [List.replicate_succ', List.append_assoc, List.singleton_append]
    rfl
  have hclose : dropEmptyGroups (List.replicate (m + 1) ')') = List.replicate (m + 1) ')' :=
    dropEmptyGroups_eq_self (filled_iff.mpr fun hocc =>
      absurd (List.eq_of_mem_replicate (hocc.subset List.mem_cons_self)) (by decide))
  have hundoubled := undoubled_append_close (tidy_replicate_open (m + 2)).undoubled (m + 2)
  rw [hpairs] at hundoubled ⊢
  have hempty : ¬ Filled (List.replicate (m + 1) '(' ++ '(' :: ')' :: List.replicate (m + 1) ')') := by
    rw [filled_iff, not_not]
    exact ⟨List.replicate (m + 1) '(', List.replicate (m + 1) ')', by simp⟩
  have hfirst := firstFix?_emptyParentheses hundoubled hempty (by
    rw [dropEmptyGroups_replicate_open]
    exact List.cons_ne_nil _ _)
  rwa [dropEmptyGroups_replicate_open, hclose] at hfirst

/-- Of `m + 1` pairs inside each other each takes a repair. -/
theorem chain_pairs (m : Nat) :
    Chain (List.replicate (m + 1) '(' ++ List.replicate (m + 1) ')')
      (List.replicate (m + 1) .emptyParentheses) ['0'] := by
  induction m with
  | zero => exact .fix rfl (.done rfl)
  | succ m ih => exact .fix (firstFix?_pairs m) ih

/-- Of parentheses that are all left open each takes a repair, and closing them takes one. -/
theorem chain_replicate_open (m : Nat) :
    Chain (List.replicate (m + 1) '(')
      (.unclosedParentheses :: List.replicate (m + 1) .emptyParentheses) ['0'] := by
  have hcount : (List.replicate (m + 1) '(').count ')' < (List.replicate (m + 1) '(').count '(' := by
    rw [List.count_replicate_self, List.count_replicate, if_neg (by decide)]
    exact Nat.succ_pos m
  refine .fix ((tidy_replicate_open (m + 1)).firstFix?_of_open hcount) ?_
  rw [closed_replicate_open]
  exact chain_pairs m

namespace Chain

/-- A run is over after as many rounds as it has repairs, and not before. -/
theorem suggestFix_repaired_iff (h : Chain cs rules final) (rounds : Nat) :
    suggestFix (repaired rounds (.ofList cs)) = .unavailable ↔ rules.length ≤ rounds := by
  constructor
  · intro hnone
    by_contra hfewer
    obtain ⟨rule, fixed, hfirst⟩ := h.exists_firstFix?_repaired (Nat.lt_of_not_le hfewer)
    have hempty := isEmpty_suggestFix_of_firstFix?_eq_some hfirst
    rw [hnone] at hempty
    cases hempty
  · intro hr
    rw [h.repaired_eq hr]
    exact h.suggestFix_final

end Chain

theorem ending_replicate_open (k m : Nat) :
    ending k (List.replicate m '(') = ⟨true, 0, 0, m⟩ := by
  induction m with
  | zero => rfl
  | succ m ih =>
    rw [List.replicate_succ, ending, ih, Ending.read_open rfl, if_neg (Nat.lt_irrefl 0)]
    cases m <;> rfl

theorem levels_replicate_open (m : Nat) : levels (List.replicate (m + 1) '(') = m + 2 := by
  have htidy := tidy_replicate_open (m + 1)
  have hmissing : missing (List.replicate (m + 1) '(') = m + 1 := by
    rw [missing, List.count_replicate_self, List.count_replicate]
    rfl
  rw [levels_of_undoubled htidy.undoubled, slips, deepest_hollow_eq_zero htidy.filled,
    deepest_parting_eq_zero htidy.filled, closing, hmissing, if_neg (Nat.succ_ne_zero m),
    List.tail_replicate, ending_replicate_open, ending_replicate_open, ending_replicate_open]
  show 0 + 0 + 0 + (1 + min (m + 1) (m + 1) + 0) = m + 2
  omega

/-- **`four_repairs_suffice`** — a text is mended in as many rounds as it has levels, and so in four if
it has no more than that. No number of rounds is enough for every text: `m + 1` open parentheses have
`m + 2` levels, and with fewer rounds something is left of them. -/
theorem four_repairs_suffice :
    (∀ e rounds, levels e.toList ≤ rounds → suggestFix (repaired rounds e) = .unavailable) ∧
    ∀ m, levels (List.replicate (m + 1) '(') = m + 2 ∧
      ∀ rounds, suggestFix (repaired rounds (.ofList (List.replicate (m + 1) '('))) = .unavailable ↔
        m + 2 ≤ rounds := by
  refine ⟨fun e rounds hlevels => ?_, fun m => ⟨levels_replicate_open m, fun rounds => ?_⟩⟩
  · obtain ⟨rules, final, hchain⟩ := exists_chain e.toList
    rw [← String.ofList_toList (s := e)]
    exact (hchain.suggestFix_repaired_iff rounds).mpr (hchain.length_le_levels.trans hlevels)
  · rw [(chain_replicate_open m).suggestFix_repaired_iff, List.length_cons, List.length_replicate]

/-- One slip of each kind makes four levels. -/
theorem four_repairs_suffice_of_four_slips :
    levels "(2×()+3++".toList = 4 ∧ maxRepairRounds = 4 ∧
      repaired maxRepairRounds "(2×()+3++" = "(2+3)" ∧
      suggestFix (repaired maxRepairRounds "(2×()+3++") = .unavailable ∧
      suggestFix (repaired 2 (.ofList (List.replicate 1 '('))) = .unavailable := by
  have hlevels : levels "(2×()+3++".toList = 4 := by decide +kernel
  obtain ⟨henough, hopen⟩ := four_repairs_suffice
  exact ⟨hlevels, rfl, by decide +kernel, henough _ _ hlevels.le, ((hopen 0).2 2).mpr (Nat.le_refl 2)⟩

/-- Of four open parentheses an empty pair is left after four rounds. -/
theorem suggestFix_of_four_open :
    repaired maxRepairRounds "((((" = "()" ∧
      suggestFix (repaired maxRepairRounds "((((") = ⟨"0", "Removed empty parentheses."⟩ ∧
      suggestFix (repaired maxRepairRounds "((((") ≠ .unavailable := by
  have hfour : repaired maxRepairRounds "((((" = "()" := by decide +kernel
  refine ⟨hfour, ?_, ?_⟩
  · rw [hfour]
    decide +kernel
  · rw [hfour]
    decide +kernel

end Reckoner
