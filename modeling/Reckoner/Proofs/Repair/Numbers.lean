/-
# Reckoner.Proofs.Repair.Numbers — the numbers of an expression while it is mended.

The numbers of a text are its maximal runs of digits and points. No rule of repair removes a digit or a
point, and none adds one but for the `0` that stands in for a text of which nothing is left. So the
digits and points of a fix are always those of the expression, in their order (`filter_of_fire?`).

That does not settle which of them belong to one number. `emptyParentheses` looks only for empty pairs
and for operators in front of them, and where it removes all that stands between two numbers, it puts
them together: `1+()2` is mended to `12`. This is the one way in which a repair changes the numbers
(`JoinsNumbers`). Whether it happens is a matter of each round, because an empty pair that is left may
only appear by the round before.
-/
import Reckoner.Proofs.Percent
import Reckoner.Proofs.Repair.Insertions

namespace Reckoner

/-! ## The numbers of a text -/

/-- **`numbers cs`** — the numbers of a text, its maximal runs of digits and points, from left to right.
-/
def numbers (cs : List Char) : List (List Char) :=
  (cs.splitOnP fun c => !inNumeral c).filter fun run => !run.isEmpty

variable {c x y : Char} {cs as bs front rest fixed : List Char}

theorem numbers_nil : numbers [] = [] := rfl

/-- A character of no number is where the text can be cut. -/
theorem numbers_append_cons (hc : inNumeral c = false) (as bs : List Char) :
    numbers (as ++ c :: bs) = numbers as ++ numbers bs := by
  unfold numbers
  rw [List.splitOnP_append_cons as bs (by simp [hc]), List.filter_append]

theorem numbers_cons_of_not (hc : inNumeral c = false) (cs : List Char) :
    numbers (c :: cs) = numbers cs := numbers_append_cons hc [] cs

theorem numbers_append_left (h : ∀ c ∈ as, inNumeral c = false) (bs : List Char) :
    numbers (as ++ bs) = numbers bs := by
  induction as with
  | nil => rfl
  | cons a as ih =>
    obtain ⟨ha, has⟩ := List.forall_mem_cons.mp h
    rw [List.cons_append, numbers_cons_of_not ha, ih has]

theorem numbers_append_right (as : List Char) (h : ∀ c ∈ bs, inNumeral c = false) :
    numbers (as ++ bs) = numbers as := by
  rcases bs with _ | ⟨b, bs⟩
  · rw [List.append_nil]
  · obtain ⟨hb, hbs⟩ := List.forall_mem_cons.mp h
    have hnone := numbers_append_left hbs []
    rw [List.append_nil, numbers_nil] at hnone
    rw [numbers_append_cons hb, hnone, List.append_nil]

/-- A digit or point in front belongs to the number that follows it at once, or it is a number by itself.
-/
theorem numbers_cons (hc : inNumeral c = true) (cs : List Char) :
    numbers (c :: cs) =
      if cs.head?.any inNumeral then (numbers cs).modifyHead (c :: ·) else [c] :: numbers cs := by
  rcases cs with _ | ⟨d, cs⟩
  · simp [numbers, List.splitOnP_cons_eq_if_modifyHead, hc]
  obtain ⟨first, others, hsplit⟩ :=
    List.exists_cons_of_ne_nil (List.splitOnP_ne_nil (fun c => !inNumeral c) cs)
  by_cases hd : inNumeral d = true
  · simp [numbers, List.splitOnP_cons_eq_if_modifyHead, hc, hd, hsplit]
  · simp [numbers, List.splitOnP_cons_eq_if_modifyHead, hc, hd]

theorem numbers_cons_congr
    (hhead : inNumeral c = true → as.head?.any inNumeral = bs.head?.any inNumeral)
    (h : numbers as = numbers bs) : numbers (c :: as) = numbers (c :: bs) := by
  by_cases hc : inNumeral c = true
  · rw [numbers_cons hc, numbers_cons hc, hhead hc, h]
  · rw [Bool.not_eq_true] at hc
    rw [numbers_cons_of_not hc, numbers_cons_of_not hc, h]

/-- How many numbers a character in front adds. -/
theorem length_numbers_cons (c : Char) (cs : List Char) :
    (numbers (c :: cs)).length =
      (numbers cs).length + if inNumeral c && !cs.head?.any inNumeral then 1 else 0 := by
  by_cases hc : inNumeral c = true
  · rw [numbers_cons hc]
    by_cases hhead : cs.head?.any inNumeral = true <;> simp [hc, hhead]
  · simp [numbers_cons_of_not, hc]

/-- Where two numbers touch, the text has one number fewer than its two parts. -/
theorem length_numbers_append (hx : inNumeral x = true) (hy : inNumeral y = true)
    (front rest : List Char) :
    (numbers (front ++ x :: y :: rest)).length + 1 =
      (numbers (front ++ [x])).length + (numbers (y :: rest)).length := by
  induction front with
  | nil =>
    have hboth := length_numbers_cons x (y :: rest)
    have hone := length_numbers_cons x []
    simp [hx, hy, numbers_nil] at hboth hone
    rw [List.nil_append, List.nil_append, hboth, hone, Nat.add_comm]
  | cons c front ih =>
    rw [List.cons_append, List.cons_append, length_numbers_cons, length_numbers_cons,
      head?_append_cons x front (y :: rest) []]
    omega

/-! ## Characters of no number -/

theorem inNumeral_of_isDisplayOperator (h : isDisplayOperator c = true) : inNumeral c = false := by
  rcases isDisplayOperator_iff.mp h with rfl | rfl | rfl | rfl <;> rfl

theorem inNumeral_of_isWhite (h : isWhite c = true) : inNumeral c = false := by
  by_contra hc
  rw [Bool.not_eq_false, inNumeral, Bool.or_eq_true, beq_iff_eq] at hc
  rcases hc with hdigit | rfl
  · rw [isWhite_eq_false_of_isDigit hdigit] at h
    cases h
  · cases h

/-! ## Runs of one operator -/

theorem head?_collapse (cs : List Char) : (collapse cs).head? = cs.head? := by
  fun_induction collapse cs with
  | case1 => rfl
  | case2 c => rfl
  | case3 c d cs h ih =>
    rw [Bool.and_eq_true, beq_iff_eq] at h
    rw [ih, h.2, List.head?_cons, List.head?_cons]
  | case4 c d cs _ _ => rfl

theorem numbers_collapse (cs : List Char) : numbers (collapse cs) = numbers cs := by
  fun_induction collapse cs with
  | case1 => rfl
  | case2 c => rfl
  | case3 c d cs h ih =>
    rw [Bool.and_eq_true] at h
    rw [ih, numbers_cons_of_not (inNumeral_of_isDisplayOperator h.1)]
  | case4 c d cs _ ih => exact numbers_cons_congr (fun _ => by rw [head?_collapse]) ih

theorem filter_collapse (cs : List Char) :
    (collapse cs).filter inNumeral = cs.filter inNumeral := by
  fun_induction collapse cs with
  | case1 => rfl
  | case2 c => rfl
  | case3 c d cs h ih =>
    rw [Bool.and_eq_true] at h
    simp only [ih, List.filter_cons, inNumeral_of_isDisplayOperator h.1]
    rfl
  | case4 c d cs _ ih => rw [List.filter_cons, List.filter_cons, ih]

/-! ## Empty pairs of parentheses -/

/-- **`EmptyGroups cs`** — nothing but empty pairs, with or without an operator in front of each. -/
inductive EmptyGroups : List Char → Prop
  | nil : EmptyGroups []
  | pair {cs : List Char} : EmptyGroups cs → EmptyGroups ('(' :: ')' :: cs)
  | operator {op : Char} {cs : List Char} : isDisplayOperator op = true → EmptyGroups cs →
      EmptyGroups (op :: '(' :: ')' :: cs)

/-- The pass removes nothing else. -/
theorem dropEmptyGroups_eq_nil_iff : dropEmptyGroups cs = [] ↔ EmptyGroups cs := by
  constructor
  · intro h
    fun_induction dropEmptyGroups cs with
    | case1 => exact .nil
    | case2 cs ih => exact .pair (ih h)
    | case3 c cs hop ih => exact .operator hop (ih h)
    | case4 c cs _ _ => cases h
    | case5 c cs _ _ _ => cases h
  · intro h
    induction h with
    | nil => rfl
    | pair _ ih => exact ih
    | operator hop _ ih => rw [dropEmptyGroups, if_pos hop, ih]

/-- **`JoinsNumbers cs`** — between some two numbers of the text there stands nothing but what
`emptyParentheses` removes. -/
inductive JoinsNumbers : List Char → Prop
  | between {front gap rest : List Char} {x y : Char} : inNumeral x = true → inNumeral y = true →
      gap ≠ [] → EmptyGroups gap → JoinsNumbers (front ++ x :: (gap ++ y :: rest))

theorem JoinsNumbers.cons (h : JoinsNumbers cs) (c : Char) : JoinsNumbers (c :: cs) := by
  obtain ⟨hx, hy, hne, hgap⟩ := h
  exact @JoinsNumbers.between (c :: _) _ _ _ _ hx hy hne hgap

theorem dropEmptyGroups_cons_inNumeral (hx : inNumeral x = true) (cs : List Char) :
    dropEmptyGroups (x :: cs) = x :: dropEmptyGroups cs := by
  have hop : isDisplayOperator x = false := by
    by_contra hop
    rw [inNumeral_of_isDisplayOperator (Bool.not_eq_false _ ▸ hop)] at hx
    cases hx
  rw [dropEmptyGroups.eq_def]
  split
  · rename_i heq
    cases heq
  · rename_i heq
    cases heq
    cases hx
  · rename_i heq
    cases heq
    rw [hop]
    rfl
  · rename_i heq
    cases heq
    rfl

/-- The pass goes on behind a digit or a point as if the text began there. -/
theorem dropEmptyGroups_append_inNumeral (hx : inNumeral x = true) (front rest : List Char) :
    dropEmptyGroups (front ++ x :: rest) = dropEmptyGroups front ++ x :: dropEmptyGroups rest := by
  have hopen : x ≠ '(' := by
    rintro rfl
    cases hx
  have hclose : x ≠ ')' := by
    rintro rfl
    cases hx
  fun_induction dropEmptyGroups front with
  | case1 => exact dropEmptyGroups_cons_inNumeral hx rest
  | case2 cs ih => exact ih
  | case3 c cs hop ih =>
    show dropEmptyGroups (c :: '(' :: ')' :: (cs ++ x :: rest)) = _
    rw [dropEmptyGroups, if_pos hop, ih]
  | case4 c cs hop ih =>
    simp only [List.cons_append, dropEmptyGroups, if_neg hop] at ih ⊢
    rw [ih]
  | case5 c cs hpair hnext ih =>
    -- the digit or point completes no pair
    rw [List.cons_append, dropEmptyGroups_cons, ih, List.cons_append]
    · rintro tail rfl heq
      rcases cs with _ | ⟨d, cs⟩
      · exact hclose (List.cons.inj heq).1
      · obtain ⟨rfl, -⟩ := List.cons.inj heq
        exact hpair cs rfl rfl
    · intro tail heq
      rcases cs with _ | ⟨d, _ | ⟨d', cs⟩⟩
      · exact hopen (List.cons.inj heq).1
      · exact hclose (List.cons.inj (List.cons.inj heq).2).1
      · obtain ⟨rfl, htail⟩ := List.cons.inj heq
        obtain ⟨rfl, -⟩ := List.cons.inj htail
        exact hnext cs rfl

/-- A character of a number that the pass comes to stands behind a stretch that it removes. -/
theorem exists_of_dropEmptyGroups_eq_cons {ds : List Char} (hx : inNumeral x = true)
    (h : dropEmptyGroups cs = x :: ds) :
    ∃ gap rest, cs = gap ++ x :: rest ∧ EmptyGroups gap := by
  fun_induction dropEmptyGroups cs with
  | case1 => cases h
  | case2 cs ih =>
    obtain ⟨gap, rest, rfl, hgap⟩ := ih h
    exact ⟨'(' :: ')' :: gap, rest, rfl, hgap.pair⟩
  | case3 c cs hop ih =>
    obtain ⟨gap, rest, rfl, hgap⟩ := ih h
    exact ⟨c :: '(' :: ')' :: gap, rest, rfl, hgap.operator hop⟩
  | case4 c cs _ _ =>
    obtain ⟨rfl, -⟩ := List.cons.inj h
    exact ⟨[], _, rfl, .nil⟩
  | case5 c cs _ _ _ =>
    obtain ⟨rfl, -⟩ := List.cons.inj h
    exact ⟨[], _, rfl, .nil⟩

theorem any_head?_dropEmptyGroups (h : cs.head?.any inNumeral = true) :
    (dropEmptyGroups cs).head?.any inNumeral = true := by
  obtain ⟨y, hhead, hy⟩ := (Option.any_eq_true _ _).mp h
  obtain ⟨ds, rfl⟩ := List.head?_eq_some_iff.mp hhead
  rwa [dropEmptyGroups_cons_inNumeral hy]

/-- Behind a digit or point, the pass brings up no other digit or point than stands there. -/
theorem head?_dropEmptyGroups (h : ¬ JoinsNumbers (c :: cs)) (hc : inNumeral c = true) :
    (dropEmptyGroups cs).head?.any inNumeral = cs.head?.any inNumeral := by
  rw [Bool.eq_iff_iff]
  constructor
  · intro hany
    obtain ⟨y, hhead, hy⟩ := (Option.any_eq_true _ _).mp hany
    obtain ⟨ds, hds⟩ := List.head?_eq_some_iff.mp hhead
    obtain ⟨gap, rest, rfl, hgap⟩ := exists_of_dropEmptyGroups_eq_cons hy hds
    -- with anything in between, the two characters would be joined
    rcases gap with _ | ⟨g, gap⟩
    · exact hy
    · exact absurd (@JoinsNumbers.between [] _ _ _ _ hc hy (List.cons_ne_nil g gap) hgap) h
  · exact any_head?_dropEmptyGroups

/-- Where no two numbers are joined, the pass leaves the numbers as they are. -/
theorem numbers_dropEmptyGroups (h : ¬ JoinsNumbers cs) :
    numbers (dropEmptyGroups cs) = numbers cs := by
  fun_induction dropEmptyGroups cs with
  | case1 => rfl
  | case2 cs ih =>
    rw [ih fun hjoins => h ((hjoins.cons _).cons _), numbers_cons_of_not rfl,
      numbers_cons_of_not rfl]
  | case3 c cs hop ih =>
    rw [ih fun hjoins => h (((hjoins.cons _).cons _).cons _),
      numbers_cons_of_not (inNumeral_of_isDisplayOperator hop), numbers_cons_of_not rfl,
      numbers_cons_of_not rfl]
  | case4 c cs _ ih =>
    exact numbers_cons_congr (head?_dropEmptyGroups h) (ih fun hjoins => h (hjoins.cons c))
  | case5 c cs _ _ ih =>
    exact numbers_cons_congr (head?_dropEmptyGroups h) (ih fun hjoins => h (hjoins.cons c))

theorem filter_dropEmptyGroups (cs : List Char) :
    (dropEmptyGroups cs).filter inNumeral = cs.filter inNumeral := by
  fun_induction dropEmptyGroups cs with
  | case1 => rfl
  | case2 cs ih => exact ih
  | case3 c cs hop ih =>
    rw [ih, List.filter_cons_of_neg (by simp [inNumeral_of_isDisplayOperator hop])]
    rfl
  | case4 c cs _ ih => rw [List.filter_cons, ih, ← List.filter_cons]
  | case5 c cs _ _ ih => rw [List.filter_cons, ih, ← List.filter_cons]

/-- The pass never makes more numbers. -/
theorem length_numbers_dropEmptyGroups_le (cs : List Char) :
    (numbers (dropEmptyGroups cs)).length ≤ (numbers cs).length := by
  have hcons {c : Char} {cs : List Char}
      (ih : (numbers (dropEmptyGroups cs)).length ≤ (numbers cs).length) :
      (numbers (c :: dropEmptyGroups cs)).length ≤ (numbers (c :: cs)).length := by
    rw [length_numbers_cons, length_numbers_cons]
    refine Nat.add_le_add ih ?_
    by_cases hhead : cs.head?.any inNumeral = true
    · rw [any_head?_dropEmptyGroups hhead, hhead]
    · rw [Bool.not_eq_true] at hhead
      rw [hhead]
      cases inNumeral c <;> cases (dropEmptyGroups cs).head?.any inNumeral <;> decide
  fun_induction dropEmptyGroups cs with
  | case1 => exact Nat.le_refl _
  | case2 cs ih => rwa [numbers_cons_of_not rfl, numbers_cons_of_not rfl]
  | case3 c cs hop ih =>
    rwa [numbers_cons_of_not (inNumeral_of_isDisplayOperator hop), numbers_cons_of_not rfl,
      numbers_cons_of_not rfl]
  | case4 c cs _ ih => exact hcons ih
  | case5 c cs _ _ ih => exact hcons ih

/-- Where two numbers are joined, there are fewer of them. -/
theorem length_numbers_dropEmptyGroups_lt (h : JoinsNumbers cs) :
    (numbers (dropEmptyGroups cs)).length < (numbers cs).length := by
  obtain @⟨front, gap, rest, x, y, hx, hy, hne, hgroups⟩ := h
  have hgap := dropEmptyGroups_eq_nil_iff.mpr hgroups
  have hfree : ∀ c ∈ gap, inNumeral c = false := by
    have hfilter := filter_dropEmptyGroups gap
    rw [hgap, List.filter_nil, eq_comm, List.filter_eq_nil_iff] at hfilter
    simpa using hfilter
  have hbefore : (numbers (front ++ x :: (gap ++ y :: rest))).length =
      (numbers (front ++ [x])).length + (numbers (y :: rest)).length := by
    obtain ⟨g, gap, rfl⟩ := List.exists_cons_of_ne_nil hne
    obtain ⟨hg, hgap⟩ := List.forall_mem_cons.mp hfree
    have hsplit : front ++ x :: (g :: gap ++ y :: rest) =
        (front ++ [x]) ++ g :: (gap ++ y :: rest) := by simp
    rw [hsplit, numbers_append_cons hg, numbers_append_left hgap, List.length_append]
  have hafter : dropEmptyGroups (front ++ x :: (gap ++ y :: rest)) =
      dropEmptyGroups front ++ x :: y :: dropEmptyGroups rest := by
    rw [dropEmptyGroups_append_inNumeral hx, dropEmptyGroups_append_inNumeral hy, hgap,
      List.nil_append]
  have hjoined := length_numbers_append hx hy (dropEmptyGroups front) (dropEmptyGroups rest)
  have hleft := length_numbers_dropEmptyGroups_le (front ++ [x])
  have hright := length_numbers_dropEmptyGroups_le (y :: rest)
  rw [dropEmptyGroups_append_inNumeral hx] at hleft
  rw [dropEmptyGroups_cons_inNumeral hy] at hright
  rw [hbefore, hafter]
  change _ + 1 = (numbers (dropEmptyGroups front ++ x :: dropEmptyGroups [])).length + _ at hjoined
  omega

/-! ## One repair -/

theorem filter_eq_nil_of_white (h : White cs) : cs.filter inNumeral = [] :=
  List.filter_eq_nil_iff.mpr fun c hc => by simp [inNumeral_of_isWhite (h c hc)]

namespace Rule

/-- A repair keeps the digits and points, but where there is none it may bring up a `0`. -/
theorem filter_of_fire? {rule : Rule} (h : rule.fire? cs = some fixed) :
    fixed.filter inNumeral = cs.filter inNumeral ∨
      fixed = ['0'] ∧ cs.filter inNumeral = [] := by
  cases rule with
  | duplicateOperator =>
    obtain rfl : collapse cs = fixed := Option.some.inj (fire?_eq_some_iff.mp h).1
    exact .inl (filter_collapse cs)
  | emptyParentheses =>
    have hfilter := filter_dropEmptyGroups cs
    rcases (fire?_emptyParentheses h).2 with ⟨hnil, rfl⟩ | ⟨-, rfl⟩
    · rw [hnil, List.filter_nil] at hfilter
      exact .inr ⟨rfl, hfilter.symm⟩
    · exact .inl hfilter
  | trailingOperator =>
    obtain ⟨op, hop, htrim⟩ := fire?_trailingOperator h
    obtain ⟨front, back, hfront, hback, hcs⟩ := exists_eq_append_trim cs
    rw [hcs, htrim, List.filter_append, List.filter_append, List.filter_append,
      filter_eq_nil_of_white hfront, filter_eq_nil_of_white hback,
      List.filter_cons_of_neg (by simp [inNumeral_of_isDisplayOperator hop])]
    simp
  | unclosedParentheses =>
    obtain ⟨-, rfl⟩ := fire?_unclosedParentheses h
    rw [List.filter_append, List.filter_replicate_of_neg (by decide), List.append_nil]
    exact .inl rfl

theorem dropEmptyGroups_of_fire? (h : emptyParentheses.fire? cs = some fixed)
    (hfilter : fixed.filter inNumeral = cs.filter inNumeral) : fixed = dropEmptyGroups cs := by
  rcases (fire?_emptyParentheses h).2 with ⟨hnil, rfl⟩ | ⟨-, hfixed⟩
  · -- the `0` that stands in is a digit that was not there
    rw [← filter_dropEmptyGroups cs, hnil] at hfilter
    cases hfilter
  · exact hfixed

/-- A repair keeps the numbers, unless it joins two of them. -/
theorem numbers_of_fire? {rule : Rule} (h : rule.fire? cs = some fixed)
    (hfilter : fixed.filter inNumeral = cs.filter inNumeral)
    (hjoins : rule = .emptyParentheses → ¬ JoinsNumbers cs) : numbers fixed = numbers cs := by
  cases rule with
  | duplicateOperator =>
    obtain rfl : collapse cs = fixed := Option.some.inj (fire?_eq_some_iff.mp h).1
    exact numbers_collapse cs
  | emptyParentheses =>
    rw [dropEmptyGroups_of_fire? h hfilter]
    exact numbers_dropEmptyGroups (hjoins rfl)
  | trailingOperator =>
    obtain ⟨op, hop, htrim⟩ := fire?_trailingOperator h
    obtain ⟨front, back, hfront, hback, hcs⟩ := exists_eq_append_trim cs
    have hend : ∀ c ∈ op :: back, inNumeral c = false := by
      refine List.forall_mem_cons.mpr ⟨inNumeral_of_isDisplayOperator hop, fun c hc => ?_⟩
      exact inNumeral_of_isWhite (hback c hc)
    rw [hcs, htrim, List.append_assoc, List.append_assoc, List.singleton_append,
      numbers_append_left fun c hc => inNumeral_of_isWhite (hfront c hc),
      numbers_append_right fixed hend]
  | unclosedParentheses =>
    obtain ⟨-, rfl⟩ := fire?_unclosedParentheses h
    refine numbers_append_right cs fun c hc => ?_
    rw [List.eq_of_mem_replicate hc]
    rfl

/-- Only one rule fires first. -/
theorem FiresFirst.eq {rule rule' : Rule} {expression : String} (h : rule.FiresFirst expression)
    (hfirst : firstFix? expression.toList = some (rule', fixed)) : rule = rule' := by
  obtain ⟨hfires, earlier, later, horder, hearlier⟩ := h
  have hnone : ∀ r ∈ earlier, r.fire? expression.toList = none := fun r hr => by
    simpa [Rule.apply] using hearlier r hr
  obtain ⟨result, hresult⟩ : ∃ result, rule.fire? expression.toList = some result := by
    simpa [Rule.apply, Option.isSome_iff_exists] using hfires
  have hrule : firstFix? expression.toList = some (rule, result) := by
    refine List.findSome?_eq_some_iff.mpr ⟨earlier, rule, later, horder, ?_, fun r hr => ?_⟩
    · rw [hresult, Option.map_some]
    · rw [hnone r hr, Option.map_none]
  rw [hrule] at hfirst
  exact (Prod.mk.inj (Option.some.inj hfirst)).1

end Rule

/-! ## Repair after repair -/

/-- **`KeepsNumbers joined before after`** — two texts have the same digits and points in the same order,
and these make the same numbers, or fewer of them if some have been joined. -/
structure KeepsNumbers (joined : Prop) (before after : List Char) : Prop where
  filter_eq : after.filter inNumeral = before.filter inNumeral
  numbers_eq : ¬ joined → numbers after = numbers before
  length_lt : joined → (numbers after).length < (numbers before).length

namespace KeepsNumbers

variable {joined joined' : Prop}

theorem length_le (h : KeepsNumbers joined as bs) : (numbers bs).length ≤ (numbers as).length := by
  by_cases hjoined : joined
  · exact Nat.le_of_lt (h.length_lt hjoined)
  · rw [h.numbers_eq hjoined]

theorem numbers_eq_iff (h : KeepsNumbers joined as bs) : numbers bs = numbers as ↔ ¬ joined := by
  constructor
  · intro hsame hjoined
    have hlt := h.length_lt hjoined
    rw [hsame] at hlt
    exact Nat.lt_irrefl _ hlt
  · exact h.numbers_eq

theorem refl (cs : List Char) : KeepsNumbers False cs cs := ⟨rfl, fun _ => rfl, False.elim⟩

theorem trans (h : KeepsNumbers joined as bs) (h' : KeepsNumbers joined' bs cs) :
    KeepsNumbers (joined ∨ joined') as cs where
  filter_eq := h'.filter_eq.trans h.filter_eq
  numbers_eq := by
    intro hnone
    rw [not_or] at hnone
    rw [h'.numbers_eq hnone.2, h.numbers_eq hnone.1]
  length_lt := by
    rintro (hjoined | hjoined')
    · exact Nat.lt_of_le_of_lt h'.length_le (h.length_lt hjoined)
    · exact Nat.lt_of_lt_of_le (h'.length_lt hjoined') h.length_le

end KeepsNumbers

/-- **`FusesNumbers expression`** — the first rule that fires on the expression is `emptyParentheses`, and
it removes all that stands between some two of the numbers. -/
def FusesNumbers (expression : String) : Prop :=
  Rule.FiresFirst .emptyParentheses expression ∧ JoinsNumbers expression.toList

variable {expression : String}

/-- What one repair does to the numbers. -/
theorem keepsNumbers_mended (h : mended expression ≠ "") :
    mended expression = "0" ∧ expression.toList.filter inNumeral = [] ∨
      KeepsNumbers (FusesNumbers expression) expression.toList (mended expression).toList := by
  cases hfirst : firstFix? expression.toList with
  | none => exact absurd (mended_of_firstFix?_eq_none hfirst) h
  | some firing =>
    obtain ⟨rule, fixed⟩ := firing
    have hfire := fire?_of_firstFix?_eq_some hfirst
    rw [mended_of_firstFix?_eq_some hfirst, String.toList_ofList]
    rcases Rule.filter_of_fire? hfire with hfilter | ⟨rfl, hnone⟩
    · refine .inr ⟨hfilter, fun hfuses => ?_, fun ⟨hempty, hjoins⟩ => ?_⟩
      · refine Rule.numbers_of_fire? hfire hfilter ?_
        rintro rfl hjoins
        exact hfuses ⟨Rule.firesFirst_of_firstFix? hfirst, hjoins⟩
      · obtain rfl := hempty.eq hfirst
        rw [Rule.dropEmptyGroups_of_fire? hfire hfilter]
        exact length_numbers_dropEmptyGroups_lt hjoins
    · exact .inl ⟨rfl, hnone⟩

theorem mended_zero : mended "0" = "" := rfl

/-- What a chain of repairs does to the numbers. -/
theorem keepsNumbers_iterate_mended {n : Nat} (h : mended^[n] expression ≠ "") :
    mended^[n] expression = "0" ∧ expression.toList.filter inNumeral = [] ∨
      KeepsNumbers (∃ m < n, FusesNumbers (mended^[m] expression)) expression.toList
        (mended^[n] expression).toList := by
  induction n with
  | zero =>
    simp only [Nat.not_lt_zero, false_and, exists_false]
    exact .inr (.refl _)
  | succ n ih =>
    rw [Function.iterate_succ_apply'] at h ⊢
    -- a repair is known of what comes before, so it is neither empty nor a `0` by itself
    have hne : mended^[n] expression ≠ "" := by
      intro hempty
      rw [hempty] at h
      exact h rfl
    rcases ih hne with ⟨hzero, -⟩ | hkeeps
    · rw [hzero] at h
      exact absurd mended_zero h
    · rcases keepsNumbers_mended h with ⟨hzero, hnone⟩ | hstep
      · exact .inl ⟨hzero, hkeeps.filter_eq ▸ hnone⟩
      · rw [Nat.exists_lt_succ_right]
        exact .inr (hkeeps.trans hstep)

/-! ## What is offered -/

namespace Config

variable {config : Config} {shown : String} {error : Failure} {highlight : Option Highlight}

/-- An offer is what some repairs in a row make of the expression, with validation and without it. -/
theorem exists_iterate_of_localSuggestion {offer : Suggestion}
    (h : config.localSuggestion expression = some offer) :
    ∃ n, 0 < n ∧ n ≤ 4 ∧ offer.fix = mended^[n] expression ∧ offer.fix ≠ "" := by
  cases hvalidate : config.validateSuggestions with
  | true =>
    obtain ⟨⟨n, hn, hmend⟩, -⟩ := earliestMend_of_localSuggestion hvalidate h
    refine ⟨n, hmend.pos, hn, hmend.eq_iterate, fun hempty => ?_⟩
    have heval := hmend.evaluates_eq
    rw [hempty, evaluates_empty] at heval
    cases heval
  | false =>
    obtain ⟨rule, fixed, hfirst, -⟩ := exists_firstFix?_of_localSuggestion h
    rw [localSuggestion_of_not_validate hvalidate hfirst] at h
    obtain rfl := Option.some.inj h
    have hne := (Rule.fire?_eq_some_iff.mp (fire?_of_firstFix?_eq_some hfirst)).2.1
    refine ⟨1, Nat.one_pos, by decide, (mended_of_firstFix?_eq_some hfirst).symm, ?_⟩
    simpa using hne

/-- **`calculate_keeps_numbers`** — the fix that a failed calculation offers has the digits and points of
the expression, in their order, and in most cases they make the same numbers. It is what some repairs
in a row make of the expression, four at the most, and the numbers are the same just if none of these
repairs removes all that stands between two of them. The exception is the `0` that stands in where
there is neither a digit nor a point. -/
theorem calculate_keeps_numbers {offer : Suggestion}
    (h : config.calculate expression = .ok (.failure shown error highlight (some offer))) :
    offer.fix = "0" ∧ numbers expression.toList = [] ∨
      offer.fix.toList.filter inNumeral = expression.toList.filter inNumeral ∧
        ∃ n, 0 < n ∧ n ≤ 4 ∧ offer.fix = mended^[n] expression ∧
          (numbers offer.fix.toList = numbers expression.toList ↔
            ∀ m < n, ¬ FusesNumbers (mended^[m] expression)) := by
  obtain ⟨-, -, -, hoffer⟩ := failure_of_calculate h
  obtain ⟨n, hpos, hn, hfix, hne⟩ := exists_iterate_of_localSuggestion hoffer.symm
  rw [hfix] at hne
  rw [hfix]
  rcases keepsNumbers_iterate_mended hne with ⟨hzero, hnone⟩ | hkeeps
  · have hfree : ∀ c ∈ expression.toList, inNumeral c = false := by
      simpa using List.filter_eq_nil_iff.mp hnone
    have hnumbers := numbers_append_left hfree []
    rw [List.append_nil, numbers_nil] at hnumbers
    exact .inl ⟨hzero, hnumbers⟩
  · refine .inr ⟨hkeeps.filter_eq, n, hpos, hn, rfl, ?_⟩
    rw [hkeeps.numbers_eq_iff]
    simp only [not_exists, not_and]

/-- Three repairs take away what is behind the number, and it stays as it is. -/
theorem calculate_keeps_numbers_of_three_repairs :
    Config.default.calculate "3.5×(()" =
        .ok (.failure "3.5×(()" .unbalancedParentheses (some ⟨"3.5×", "(", "()"⟩)
          (some ⟨"3.5", Rule.emptyParentheses.message⟩)) ∧
      mended^[3] "3.5×(()" = "3.5" ∧
      "3.5".toList.filter inNumeral = "3.5×(()".toList.filter inNumeral ∧
      ∃ n, 0 < n ∧ n ≤ 4 ∧ "3.5" = mended^[n] "3.5×(()" ∧
        (numbers "3.5".toList = numbers "3.5×(()".toList ↔
          ∀ m < n, ¬ FusesNumbers (mended^[m] "3.5×(()")) := by
  have hc : Config.default.calculate "3.5×(()" =
      .ok (.failure "3.5×(()" .unbalancedParentheses (some ⟨"3.5×", "(", "()"⟩)
        (some ⟨"3.5", Rule.emptyParentheses.message⟩)) :=
    eq_ok_of_toOption_eq_some (by decide +kernel)
  rcases calculate_keeps_numbers hc with ⟨hzero, -⟩ | ⟨hfilter, hmend⟩
  · exact absurd hzero (by decide)
  · exact ⟨hc, by decide +kernel, hfilter, hmend⟩

/-- Where nothing but an empty pair stands between two numbers, the fix makes one number of them. -/
theorem calculate_joins_numbers :
    Config.default.calculate "1()2" =
        .ok (.failure "1()2" (.invalid .emptyGroup) (some ⟨"1", "()", "2"⟩)
          (some ⟨"12", Rule.emptyParentheses.message⟩)) ∧
      "12" ≠ "0" ∧ numbers "12".toList ≠ numbers "1()2".toList :=
  ⟨eq_ok_of_toOption_eq_some (by decide +kernel), by decide, by decide⟩

end Config

end Reckoner
