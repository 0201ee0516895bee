/-
# Reckoner.Proofs.Repair.Hollow — parts of a text of which repairs leave nothing.

A pass over the empty pairs of a text takes the innermost ones, and each operator that stands in front of
one. What it leaves may have new empty pairs: of `(())` it leaves `()`. The parts of a text that can go in
this way, pass after pass, are the hollow ones, parentheses with nothing in them but parentheses and
operators. How many passes a part takes is how deep it is, because a pass takes one level off each hollow
part (`deepest_hollow_dropEmptyGroups`).

A pass can bring two equal operators together, and then their run is shortened before the next pass. What
has stood between them is hollow, and it begins with another operator, since one that stood right in front
of an empty pair would have gone with it. Such a part is `Parting`, and it loses a level as well.

Shortening runs of operators makes no part deeper.
-/
import Mathlib.Data.Finset.Lattice.Fold
import Mathlib.Order.Lattice.Nat
import Reckoner.Proofs.Repair.Deletion
import Reckoner.Proofs.Repair.Numbers

namespace Reckoner

variable {P : List Char → Prop} {as bs cs f v : List Char} {c op : Char} {n : Nat}

/-! ## The deepest part of a kind -/

/-- **`depth cs`** — the most parentheses that are open at one place. -/
def depth (cs : List Char) : Nat := cs.inits.toFinset.sup fun p => p.count '(' - p.count ')'

theorem depth_le_iff : depth cs ≤ n ↔ NestsWithin n cs := by
  rw [depth, Finset.sup_le_iff]
  simp only [List.mem_toFinset, List.mem_inits, Nat.sub_le_iff_le_add]
  exact Iff.rfl

/-- **`deepest P cs`** — the greatest depth of a part of the text of which `P` holds. -/
def deepest (P : List Char → Prop) [DecidablePred P] (cs : List Char) : Nat :=
  ((cs.tails.flatMap List.inits).filter P).toFinset.sup depth

theorem deepest_le_iff [DecidablePred P] :
    deepest P cs ≤ n ↔ ∀ f, f <:+: cs → P f → NestsWithin n f := by
  have hmem (f : List Char) : f ∈ cs.tails.flatMap List.inits ↔ f <:+: cs := by
    simp only [List.mem_flatMap, List.mem_tails, List.mem_inits, List.infix_iff_prefix_suffix,
      and_comm]
  rw [deepest, Finset.sup_le_iff]
  simp only [List.mem_toFinset, List.mem_filter, hmem, decide_eq_true_eq, depth_le_iff, and_imp]

theorem nestsWithin_deepest [DecidablePred P] (hf : f <:+: cs) (hP : P f) :
    NestsWithin (deepest P cs) f := deepest_le_iff.mp (Nat.le_refl _) f hf hP

/-! ## Hollow parts -/

/-- **`Hollow cs`** — nothing but parentheses that are balanced, and operators, of which none stands in
front of a closing parenthesis or at the end. -/
structure Hollow (cs : List Char) : Prop where
  bare : ∀ c ∈ cs, isDisplayOperator c = true ∨ c = '(' ∨ c = ')'
  balanced : Balanced cs
  unstuck : (cs ++ [')']).IsChain fun c d => isDisplayOperator c = true → d ≠ ')'

theorem hollow_iff :
    Hollow cs ↔ (cs.all fun c => isDisplayOperator c || c == '(' || c == ')') = true ∧
      (nesting? cs).isSome = true ∧
      (cs ++ [')']).IsChain fun c d => isDisplayOperator c = true → d ≠ ')' := by
  simp only [List.all_eq_true, Bool.or_eq_true, beq_iff_eq, or_assoc, nesting?_isSome_iff]
  exact ⟨fun h => ⟨h.bare, h.balanced, h.unstuck⟩, fun h => ⟨h.1, h.2.1, h.2.2⟩⟩

instance : DecidablePred Hollow := fun _ => decidable_of_iff _ hollow_iff.symm

namespace Hollow

theorem nil : Hollow [] where
  bare := by simp
  balanced := balanced_of_free (by simp) (by simp)
  unstuck := List.isChain_singleton _

/-- A hollow text does not begin with a closing parenthesis. -/
theorem head?_ne (h : Hollow cs) : cs.head? ≠ some ')' := by
  intro hhead
  obtain ⟨rest, rfl⟩ := List.head?_eq_some_iff.mp hhead
  exact absurd (h.balanced.closed_le [')'] (List.prefix_append [')'] rest)) (by decide)

/-- Nor does it end with an operator. -/
theorem isDisplayOperator_getLast (h : Hollow cs) (hc : c ∈ cs.getLast?) :
    isDisplayOperator c = false := by
  by_contra hop
  exact (List.isChain_append.mp h.unstuck).2.2 c hc ')' rfl (Bool.eq_true_of_not_eq_false hop) rfl

theorem append (has : Hollow as) (hbs : Hollow bs) : Hollow (as ++ bs) where
  bare := by
    intro c hc
    rcases List.mem_append.mp hc with hc | hc
    · exact has.bare c hc
    · exact hbs.bare c hc
  balanced := has.balanced.append hbs.balanced
  unstuck := by
    rw [List.append_assoc]
    refine List.isChain_append.mpr ⟨(List.isChain_append.mp has.unstuck).1, hbs.unstuck, ?_⟩
    intro c hc d _ hop
    rw [has.isDisplayOperator_getLast hc] at hop
    cases hop

theorem cons (hop : isDisplayOperator op = true) (h : Hollow cs) (hne : cs ≠ []) :
    Hollow (op :: cs) where
  bare := List.forall_mem_cons.mpr ⟨.inl hop, h.bare⟩
  balanced := by
    obtain ⟨ho, hc⟩ := isDisplayOperator_ne hop
    exact balanced_cons ho.symm hc.symm h.balanced
  unstuck := by
    refine List.isChain_cons.mpr ⟨?_, h.unstuck⟩
    obtain ⟨c, cs, rfl⟩ := List.exists_cons_of_ne_nil hne
    rintro d hd - rfl
    exact h.head?_ne hd

theorem group (has : Hollow as) : Hollow ('(' :: as ++ [')']) where
  bare := by
    intro c hc
    rcases List.mem_append.mp hc with hc | hc
    · rcases List.mem_cons.mp hc with rfl | hc
      · exact .inr (.inl rfl)
      · exact has.bare c hc
    · exact .inr (.inr (List.mem_singleton.mp hc))
  balanced := has.balanced.group
  unstuck := by
    refine List.isChain_append.mpr ⟨?_, List.isChain_singleton _, ?_⟩
    · refine List.isChain_cons.mpr ⟨?_, has.unstuck⟩
      intro c _ hop
      cases hop
    · intro c hc d _ hop
      rw [List.getLast?_concat] at hc
      obtain rfl := Option.some.inj hc
      cases hop

/-- What stands behind an operator is hollow too. -/
theorem of_cons (hop : isDisplayOperator op = true) (h : Hollow (op :: cs)) : Hollow cs := by
  obtain ⟨ho, hc⟩ := isDisplayOperator_ne hop
  refine ⟨(List.forall_mem_cons.mp h.bare).2, ⟨fun p hp => ?_, ?_⟩, (List.isChain_cons.mp h.unstuck).2⟩
  · have hcount := h.balanced.closed_le (op :: p) (List.cons_prefix_cons.mpr ⟨rfl, hp⟩)
    rwa [List.count_cons_of_ne ho, List.count_cons_of_ne hc] at hcount
  · have hcount := h.balanced.count_eq
    rwa [List.count_cons_of_ne ho, List.count_cons_of_ne hc] at hcount

/-- A hollow text is empty, or an operator in front of a hollow text that is not, or a hollow text in
parentheses and another one behind it. -/
@[elab_as_elim]
theorem induction {motive : (cs : List Char) → Hollow cs → Prop} (nil : motive [] .nil)
    (operator : ∀ (op : Char) (cs : List Char) (hop : isDisplayOperator op = true) (h : Hollow cs)
      (hne : cs ≠ []), motive cs h → motive (op :: cs) (h.cons hop hne))
    (group : ∀ (as bs : List Char) (has : Hollow as) (hbs : Hollow bs), motive as has → motive bs hbs →
      motive ('(' :: as ++ [')'] ++ bs) (has.group.append hbs))
    (h : Hollow cs) : motive cs h := by
  induction hn : cs.length using Nat.strong_induction_on generalizing cs with
  | _ n ih =>
    subst hn
    cases cs with
    | nil => exact nil
    | cons c cs =>
      rcases h.bare c List.mem_cons_self with hop | rfl | rfl
      · have htail := h.of_cons hop
        refine operator c cs hop htail ?_ (ih _ (Nat.lt_succ_self _) htail rfl)
        rintro rfl
        rw [h.isDisplayOperator_getLast (by rfl)] at hop
        cases hop
      · obtain ⟨as, bs, rfl, has, hbs⟩ := h.balanced.exists_group
        have hsplit : '(' :: (as ++ ')' :: bs) = '(' :: as ++ [')'] ++ bs := by simp
        obtain ⟨-, hbare⟩ := List.forall_mem_cons.mp h.bare
        obtain ⟨hbareas, hbarebs⟩ := List.forall_mem_append.mp hbare
        have hunstuck := h.unstuck
        rw [List.cons_append, List.append_assoc, List.cons_append] at hunstuck
        obtain ⟨hunstuckas, hunstuckbs⟩ := List.isChain_split.mp (List.isChain_cons.mp hunstuck).2
        have hinner : Hollow as := ⟨hbareas, has, hunstuckas⟩
        have hrest : Hollow bs :=
          ⟨(List.forall_mem_cons.mp hbarebs).2, hbs, (List.isChain_cons.mp hunstuckbs).2⟩
        simp only [hsplit] at h ih ⊢
        refine group as bs hinner hrest (ih _ ?_ hinner rfl) (ih _ ?_ hrest rfl)
        · simp only [List.length_cons, List.length_append]
          omega
        · simp only [List.length_cons, List.length_append]
          omega
      · exact absurd rfl h.head?_ne

/-- There is an empty pair in every hollow text that is not empty. -/
theorem exists_pair (h : Hollow cs) (hne : cs ≠ []) : ['(', ')'] <:+: cs := by
  induction h using Hollow.induction with
  | nil => exact absurd rfl hne
  | operator op cs _ _ hcs ih => exact List.infix_cons (ih hcs)
  | group as bs _ _ ih _ =>
    cases as with
    | nil => exact ⟨[], bs, rfl⟩
    | cons a as =>
      refine (ih (List.cons_ne_nil a as)).trans ⟨['('], [')'] ++ bs, ?_⟩
      simp

theorem nestsWithin_group_append_iff (has : Balanced as) :
    NestsWithin n ('(' :: as ++ [')'] ++ bs) ↔ (0 < n ∧ NestsWithin (n - 1) as) ∧ NestsWithin n bs := by
  rw [nestsWithin_append_iff has.group, nestsWithin_group_iff has]

theorem nestsWithin_cons_iff (hop : isDisplayOperator op = true) :
    NestsWithin n (op :: cs) ↔ NestsWithin n cs := by
  obtain ⟨ho, hc⟩ := isDisplayOperator_ne hop
  exact Reckoner.nestsWithin_cons_iff ho.symm hc.symm

/-- So a parenthesis is open somewhere in it. -/
theorem pos_of_nestsWithin (h : Hollow cs) (hne : cs ≠ []) (hn : NestsWithin n cs) : 0 < n := by
  obtain ⟨front, rest, rfl⟩ := h.exists_pair hne
  have hopen := hn (front ++ ['(']) ⟨')' :: rest, by simp⟩
  have hclosed := h.balanced.closed_le front ⟨['(', ')'] ++ rest, by simp⟩
  rw [List.count_append, List.count_append] at hopen
  change front.count '(' + 1 ≤ n + (front.count ')' + 0) at hopen
  omega

theorem eq_nil_of_filled (h : Hollow f) (hf : f <:+: cs) (hfilled : Filled cs) : f = [] := by
  by_contra hne
  exact filled_iff.mp hfilled ((h.exists_pair hne).trans hf)

end Hollow

theorem EmptyGroups.hollow (h : EmptyGroups cs) : Hollow cs := by
  induction h with
  | nil => exact .nil
  | @pair cs _ ih => exact Hollow.nil.group.append ih
  | @operator op cs hop _ ih => exact (Hollow.nil.group.append ih).cons hop (List.cons_ne_nil _ _)

/-! ## Empty pairs are removed -/

/-- What the pass makes hollow was hollow before, and deeper by one. -/
theorem Hollow.of_dropEmptyGroups (h : Hollow (dropEmptyGroups f)) :
    Hollow f ∧ ∀ n, NestsWithin n f → NestsWithin (n - 1) (dropEmptyGroups f) := by
  -- by induction on what is left: its characters have all stayed, and they cut `f` into parts that the
  -- pass removes whole
  generalize hg : dropEmptyGroups f = g at h ⊢
  induction h using Hollow.induction generalizing f with
  | nil =>
    exact ⟨(dropEmptyGroups_eq_nil_iff.mp hg).hollow, fun n _ => nestsWithin_of_free (by simp) _⟩
  | operator op g hop _ hne ih =>
    obtain ⟨front, back, rfl, hfront, hback, -⟩ := @exists_of_dropEmptyGroups_eq [] _ _ _ hg
    have hgroups := (dropEmptyGroups_eq_nil_iff.mp hfront).hollow
    obtain ⟨hhollow, hnests⟩ := ih hback
    have hback' : back ≠ [] := by
      rintro rfl
      exact hne hback.symm
    refine ⟨hgroups.append (hhollow.cons hop hback'), fun n hn => ?_⟩
    rw [nestsWithin_append_iff hgroups.balanced, nestsWithin_cons_iff hop] at hn
    rw [nestsWithin_cons_iff hop]
    exact hnests n hn.2
  | group as bs has _ ihas ihbs =>
    have hg' : dropEmptyGroups f = [] ++ '(' :: (as ++ ')' :: bs) := by
      rw [hg]
      simp
    obtain ⟨front, back, rfl, hfront, hback, hkept⟩ := exists_of_dropEmptyGroups_eq hg'
    obtain ⟨inner, rest, rfl, hinner, hrest, -⟩ := exists_of_dropEmptyGroups_eq hback
    have hgroups := (dropEmptyGroups_eq_nil_iff.mp hfront).hollow
    obtain ⟨hhollow, hnests⟩ := ihas hinner
    obtain ⟨hhollow', hnests'⟩ := ihbs hrest
    -- the pair would have gone if nothing stood in it
    have hne : inner ≠ [] := by
      rintro rfl
      exact hkept (removableAt_cons_zero_iff.mpr (.inl ⟨rfl, rest, rfl⟩))
    have hsplit : front ++ '(' :: (inner ++ ')' :: rest) = front ++ ('(' :: inner ++ [')'] ++ rest) := by
      simp
    rw [hsplit]
    refine ⟨hgroups.append (hhollow.group.append hhollow'), fun n hn => ?_⟩
    rw [nestsWithin_append_iff hgroups.balanced, nestsWithin_group_append_iff hhollow.balanced] at hn
    obtain ⟨-, ⟨-, hn⟩, hn'⟩ := hn
    rw [nestsWithin_group_append_iff has.balanced]
    exact ⟨⟨hhollow.pos_of_nestsWithin hne hn, hnests _ hn⟩, hnests' n hn'⟩

theorem deepest_hollow_eq_zero (h : Filled cs) : deepest Hollow cs = 0 := by
  refine Nat.le_zero.mp (deepest_le_iff.mpr fun f hf hollow => ?_)
  rw [hollow.eq_nil_of_filled hf h]
  exact nestsWithin_of_free (by simp) 0

/-- Every hollow part has lost a level, so the deepest one has. -/
theorem deepest_hollow_dropEmptyGroups (h : ¬ Filled cs) :
    deepest Hollow (dropEmptyGroups cs) + 1 ≤ deepest Hollow cs := by
  have hpair : 0 < deepest Hollow cs := by
    rw [filled_iff, not_not] at h
    exact Hollow.nil.group.pos_of_nestsWithin (by simp) (nestsWithin_deepest h Hollow.nil.group)
  have hle : deepest Hollow (dropEmptyGroups cs) ≤ deepest Hollow cs - 1 := by
    refine deepest_le_iff.mpr fun f hf hollow => ?_
    obtain ⟨g, hg, rfl⟩ := exists_infix_of_dropEmptyGroups hf
    obtain ⟨hollow', hnests⟩ := hollow.of_dropEmptyGroups
    exact hnests _ (nestsWithin_deepest hg hollow')
  omega

/-! ## Hollow parts between equal operators -/

/-- **`Parting f`** — a hollow text that begins with an operator, between two equal ones of another
kind. -/
inductive Parting : List Char → Prop
  | between {c op : Char} {cs : List Char} : isDisplayOperator c = true →
      isDisplayOperator op = true → op ≠ c → Hollow (op :: cs) → Parting (c :: op :: cs ++ [c])

theorem parting_cons_cons_iff {rest : List Char} :
    Parting (c :: op :: rest) ↔ isDisplayOperator c = true ∧ isDisplayOperator op = true ∧ op ≠ c ∧
      rest.getLast? = some c ∧ Hollow (op :: rest.dropLast) := by
  constructor
  · intro h
    generalize hf : c :: op :: rest = f at h
    obtain @⟨c, op, cs, hc, hop, hne, hollow⟩ := h
    obtain ⟨rfl, rfl, rfl⟩ : _ = c ∧ _ = op ∧ rest = cs ++ [c] := by simpa using hf
    rw [List.getLast?_concat, List.dropLast_concat]
    exact ⟨hc, hop, hne, rfl, hollow⟩
  · rintro ⟨hc, hop, hne, hlast, hollow⟩
    obtain ⟨cs, rfl⟩ := List.getLast?_eq_some_iff.mp hlast
    rw [List.dropLast_concat] at hollow
    exact .between hc hop hne hollow

instance : DecidablePred Parting
  | [] => isFalse (by intro h; cases h)
  | [_] => isFalse (by intro h; cases h)
  | _ :: _ :: _ => decidable_of_iff _ parting_cons_cons_iff.symm

/-- Operators around a balanced text make no difference to how deep it is. -/
theorem nestsWithin_between_iff (hc : isDisplayOperator c = true) (hv : Balanced v) :
    NestsWithin n (c :: v ++ [c]) ↔ NestsWithin n v := by
  obtain ⟨hopen, -⟩ := isDisplayOperator_ne hc
  rw [List.cons_append, Hollow.nestsWithin_cons_iff hc, nestsWithin_append_iff hv]
  exact and_iff_left (nestsWithin_of_free (by simpa using hopen.symm) n)

theorem deepest_parting_eq_zero (h : Filled cs) : deepest Parting cs = 0 := by
  refine Nat.le_zero.mp (deepest_le_iff.mpr fun f hf hparting => ?_)
  obtain @⟨c, op, v, -, -, -, hollow⟩ := hparting
  cases hollow.eq_nil_of_filled (List.IsInfix.trans ⟨[c], [c], rfl⟩ hf) h

/-- Where the pass brings two equal operators together, or leaves a hollow text between them, it has
taken a level off a hollow text between them, for two equal ones did not stand side by side. -/
theorem Undoubled.exists_parting (h : Undoubled cs) (hc : isDisplayOperator c = true) (hv : Hollow v)
    (hhead : ∀ d ∈ v.head?, isDisplayOperator d = true) (hf : c :: v ++ [c] <:+: dropEmptyGroups cs) :
    ∃ f, f <:+: cs ∧ Parting f ∧ ∀ n, NestsWithin n f → 0 < n ∧ NestsWithin (n - 1) v := by
  obtain ⟨before, behind, hparts⟩ := hf
  have hfirst : dropEmptyGroups cs = before ++ c :: (v ++ c :: behind) := by
    rw [← hparts]
    simp
  obtain ⟨front, back, rfl, -, hback, hkept⟩ := exists_of_dropEmptyGroups_eq hfirst
  obtain ⟨inner, rest, rfl, rfl, -, -⟩ := exists_of_dropEmptyGroups_eq hback
  have hinfix : c :: inner ++ [c] <:+: front ++ c :: (inner ++ c :: rest) := ⟨front, rest, by simp⟩
  obtain ⟨hollow, hnests⟩ := hv.of_dropEmptyGroups
  cases inner with
  | nil =>
    -- then the two operators would stand side by side
    exact absurd hinfix (undoubled_iff.mp h c hc)
  | cons op inner =>
    have hop : isDisplayOperator op = true := by
      rcases hollow.bare op List.mem_cons_self with hop | rfl | rfl
      · exact hop
      · by_cases hpair : RemovableAt ('(' :: inner) 0
        · -- the operator would have gone with the empty pair behind it
          obtain ⟨-, tail, rfl⟩ | ⟨hop, -⟩ := removableAt_cons_zero_iff.mp hpair
          · exact absurd (removableAt_cons_zero_iff.mpr (.inr ⟨hc, _, rfl⟩)) hkept
          · cases hop
        · rw [dropEmptyGroups_cons_of_kept hpair] at hhead
          cases hhead '(' rfl
      · exact absurd rfl hollow.head?_ne
    have hne : op ≠ c := by
      rintro rfl
      exact undoubled_iff.mp h op hop ⟨front, inner ++ op :: rest, by simp⟩
    refine ⟨_, hinfix, .between hc hop hne hollow, fun n hn => ?_⟩
    rw [nestsWithin_between_iff hc hollow.balanced] at hn
    exact ⟨hollow.pos_of_nestsWithin (List.cons_ne_nil _ _) hn, hnests n hn⟩

theorem deepest_parting_dropEmptyGroups (h : Undoubled cs) :
    deepest Parting (dropEmptyGroups cs) ≤ deepest Parting cs - 1 := by
  refine deepest_le_iff.mpr fun f hf hparting => ?_
  obtain @⟨c, op, v, hc, hop, -, hollow⟩ := hparting
  have hhead : ∀ d ∈ (op :: v).head?, isDisplayOperator d = true := by
    rintro d hd
    obtain rfl := Option.some.inj hd
    exact hop
  obtain ⟨g, hg, hparting, hnests⟩ := h.exists_parting hc hollow hhead hf
  rw [nestsWithin_between_iff hc hollow.balanced]
  exact (hnests _ (nestsWithin_deepest hg hparting)).2

/-- Only between such a pair can the pass make a doubled operator. -/
theorem deepest_parting_pos (h : Undoubled cs) (hdrop : ¬ Undoubled (dropEmptyGroups cs)) :
    0 < deepest Parting cs := by
  rw [undoubled_iff] at hdrop
  push Not at hdrop
  obtain ⟨c, hc, hf⟩ := hdrop
  obtain ⟨g, hg, hparting, hnests⟩ := h.exists_parting hc .nil (by simp) hf
  exact (hnests _ (nestsWithin_deepest hg hparting)).1

/-! ## Runs of one operator -/

theorem getLast?_collapse (cs : List Char) : (collapse cs).getLast? = cs.getLast? := by
  fun_induction collapse cs with
  | case1 => rfl
  | case2 c => rfl
  | case3 c d cs _ ih => rw [ih, List.getLast?_cons_cons]
  | case4 c d cs _ ih => rw [List.getLast?_cons, ih, ← List.getLast?_cons]

theorem mem_collapse_iff : c ∈ collapse cs ↔ c ∈ cs := by
  fun_induction collapse cs with
  | case1 => exact Iff.rfl
  | case2 d => exact Iff.rfl
  | case3 x d cs h ih =>
    rw [Bool.and_eq_true, beq_iff_eq] at h
    obtain ⟨-, rfl⟩ := h
    simp only [ih, List.mem_cons, or_self_left]
  | case4 x d cs _ ih => simp only [List.mem_cons, ih]

/-- A cut of the shortened text comes from a cut of the text. -/
theorem exists_of_collapse_eq_append (h : collapse cs = as ++ bs) :
    ∃ xs ys, cs = xs ++ ys ∧ collapse xs = as ∧ collapse ys = bs := by
  fun_induction collapse cs generalizing as with
  | case1 =>
    obtain ⟨rfl, rfl⟩ := List.append_eq_nil_iff.mp h.symm
    exact ⟨[], [], rfl, rfl, rfl⟩
  | case2 c =>
    cases as with
    | nil => exact ⟨[], [c], rfl, rfl, h⟩
    | cons a as =>
      rw [List.cons_append] at h
      obtain ⟨rfl, hnil⟩ := List.cons.inj h
      obtain ⟨rfl, rfl⟩ := List.append_eq_nil_iff.mp hnil.symm
      exact ⟨[c], [], rfl, rfl, rfl⟩
  | case3 c d cs hrun ih =>
    obtain ⟨xs, ys, hcs, hxs, hys⟩ := ih h
    cases xs with
    | nil =>
      obtain rfl : d :: cs = ys := hcs
      exact ⟨[], c :: d :: cs, rfl, hxs, by rw [collapse, if_pos hrun, hys]⟩
    | cons x xs =>
      obtain ⟨rfl, -⟩ := List.cons.inj hcs
      refine ⟨c :: d :: xs, ys, by rw [hcs]; rfl, ?_, hys⟩
      rw [collapse, if_pos hrun, hxs]
  | case4 c d cs hne ih =>
    cases as with
    | nil => exact ⟨[], c :: d :: cs, rfl, rfl, by rw [collapse, if_neg hne]; exact h⟩
    | cons a as =>
      rw [List.cons_append] at h
      obtain ⟨rfl, htail⟩ := List.cons.inj h
      obtain ⟨xs, ys, hcs, hxs, hys⟩ := ih htail
      refine ⟨c :: xs, ys, by rw [hcs]; rfl, ?_, hys⟩
      cases xs with
      | nil => rw [← hxs]; rfl
      | cons x xs =>
        obtain ⟨rfl, -⟩ := List.cons.inj hcs
        rw [collapse, if_neg hne, hxs]

theorem exists_infix_of_collapse (h : f <:+: collapse cs) : ∃ g, g <:+: cs ∧ collapse g = f := by
  obtain ⟨before, behind, hparts⟩ := h
  obtain ⟨xs, ys, rfl, hxs, -⟩ := exists_of_collapse_eq_append hparts.symm
  obtain ⟨front, inner, rfl, -, hinner⟩ := exists_of_collapse_eq_append hxs
  exact ⟨inner, List.infix_append front inner ys, hinner⟩

theorem prefix_collapse_append (as bs : List Char) : collapse as <+: collapse (as ++ bs) := by
  fun_induction collapse as with
  | case1 => exact List.nil_prefix
  | case2 c =>
    obtain ⟨cs, hcs⟩ := List.head?_eq_some_iff.mp (head?_collapse ([c] ++ bs))
    exact ⟨cs, hcs.symm⟩
  | case3 c d cs hrun ih =>
    rw [List.cons_append, List.cons_append, collapse, if_pos hrun]
    exact ih
  | case4 c d cs hne ih =>
    rw [List.cons_append, List.cons_append, collapse, if_neg hne]
    exact List.cons_prefix_cons.mpr ⟨rfl, ih⟩

theorem isChain_of_collapse {R : Char → Char → Prop} (hR : ∀ c, isDisplayOperator c = true → R c c)
    (h : (collapse cs).IsChain R) : cs.IsChain R := by
  fun_induction collapse cs with
  | case1 => exact h
  | case2 c => exact h
  | case3 c d cs hrun ih =>
    rw [Bool.and_eq_true, beq_iff_eq] at hrun
    obtain ⟨hop, rfl⟩ := hrun
    exact List.isChain_cons_cons.mpr ⟨hR c hop, ih h⟩
  | case4 c d cs _ ih =>
    obtain ⟨hhead, htail⟩ := List.isChain_cons.mp h
    exact List.isChain_cons_cons.mpr ⟨hhead d (head?_collapse (d :: cs)), ih htail⟩

theorem Hollow.of_collapse (h : Hollow (collapse f)) : Hollow f where
  bare := fun c hc => h.bare c (mem_collapse_iff.mpr hc)
  balanced := by
    refine ⟨fun p hp => ?_, ?_⟩
    · obtain ⟨rest, rfl⟩ := hp
      have hclosed := h.balanced.closed_le _ (prefix_collapse_append p rest)
      rwa [count_collapse rfl, count_collapse rfl] at hclosed
    · have hcount := h.balanced.count_eq
      rwa [count_collapse rfl, count_collapse rfl] at hcount
  unstuck := by
    obtain ⟨hchain, -, hlast⟩ := List.isChain_append.mp h.unstuck
    rw [getLast?_collapse] at hlast
    refine List.isChain_append.mpr ⟨isChain_of_collapse ?_ hchain, List.isChain_singleton _, hlast⟩
    rintro c hop - rfl
    cases hop

theorem NestsWithin.collapse (h : NestsWithin n f) : NestsWithin n (collapse f) := by
  rintro p ⟨rest, hp⟩
  obtain ⟨front, back, rfl, rfl, -⟩ := exists_of_collapse_eq_append hp.symm
  rw [count_collapse rfl, count_collapse rfl]
  exact h front (List.prefix_append front back)

theorem deepest_hollow_collapse_le (cs : List Char) : deepest Hollow (collapse cs) ≤ deepest Hollow cs := by
  refine deepest_le_iff.mpr fun f hf hollow => ?_
  obtain ⟨g, hg, rfl⟩ := exists_infix_of_collapse hf
  exact (nestsWithin_deepest hg hollow.of_collapse).collapse

theorem deepest_parting_collapse_le (cs : List Char) :
    deepest Parting (collapse cs) ≤ deepest Parting cs := by
  refine deepest_le_iff.mpr fun f hf hparting => ?_
  obtain @⟨c, op, v, hc, hop, hne, hollow⟩ := hparting
  obtain ⟨before, behind, hparts⟩ := hf
  have hcut : collapse cs = (before ++ [c]) ++ ((op :: v) ++ c :: behind) := by
    rw [← hparts]
    simp
  obtain ⟨xs, ys, rfl, hxs, hys⟩ := exists_of_collapse_eq_append hcut
  obtain ⟨inner, zs, rfl, hinner, hzs⟩ := exists_of_collapse_eq_append hys
  -- the characters at the cuts are those of the shortened parts
  obtain ⟨front, rfl⟩ : ∃ front, xs = front ++ [c] := by
    rw [← List.getLast?_eq_some_iff, ← getLast?_collapse, hxs, List.getLast?_concat]
  obtain ⟨back, rfl⟩ : ∃ back, zs = c :: back := by
    rw [← List.head?_eq_some_iff, ← head?_collapse, hzs, List.head?_cons]
  obtain ⟨inner, rfl⟩ : ∃ tail, inner = op :: tail := by
    rw [← List.head?_eq_some_iff, ← head?_collapse, hinner, List.head?_cons]
  rw [← hinner] at hollow
  have hollow' := hollow.of_collapse
  have hinfix : c :: op :: inner ++ [c] <:+: front ++ [c] ++ (op :: inner ++ c :: back) :=
    ⟨front, back, by simp⟩
  have hnests := nestsWithin_deepest hinfix (Parting.between hc hop hne hollow')
  rw [nestsWithin_between_iff hc hollow'.balanced] at hnests
  show NestsWithin _ (c :: (op :: v) ++ [c])
  rw [← hinner, nestsWithin_between_iff hc hollow.balanced]
  exact hnests.collapse

end Reckoner
