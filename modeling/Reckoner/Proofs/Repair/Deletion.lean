/-
# Reckoner.Proofs.Repair.Deletion — which characters the rule `emptyParentheses` takes out of a text.

The rule searches the text once, from the left, for `()` with or without an operator in front, takes out what
it finds and goes on behind it (`Pass`). A stretch that it finds has two or three characters, and the next one
can follow at once.

What the rule takes out can also be said without a search, for every position by itself (`TakenAt`): the two
characters of each `()` of the text that is given, and a displayed operator right in front of one. The two
descriptions agree (`pass_iff`), because no two stretches compete for a character: pairs do not overlap, and an
operator is part of none. A pair that only comes together by the removal is no pair of the text that is given,
and it stays.
-/
import Reckoner.Proofs.Repair.Closing
import Reckoner.Proofs.Repair.EmptyGroup

namespace Reckoner

variable {as bs cs f back found front rest : List Char} {c : Char} {i : Nat}

/-! ## The search from the left -/

/-- **`Removable found`** — an empty pair, with or without a displayed operator in front. -/
inductive Removable : List Char → Prop
  | pair : Removable ['(', ')']
  | operator {op : Char} : isDisplayOperator op = true → Removable [op, '(', ')']

/-- **`RemovableAt cs i`** — a removable stretch of the text begins at position `i`. -/
def RemovableAt (cs : List Char) (i : Nat) : Prop := ∃ found, Removable found ∧ found <+: cs.drop i

/-- **`Pass cs rest`** — the search for removable stretches, from left to right, leaves `rest` of the text.
The leftmost one is taken out, and the search goes on behind it. -/
inductive Pass : List Char → List Char → Prop
  | done {cs : List Char} : (∀ i, ¬ RemovableAt cs i) → Pass cs cs
  | remove {front found back rest : List Char} : Removable found →
      (∀ i < front.length, ¬ RemovableAt (front ++ (found ++ back)) i) → Pass back rest →
      Pass (front ++ (found ++ back)) (front ++ rest)

/-- A character at which no stretch begins stays in front of what the search leaves behind it. -/
theorem Pass.cons (h : ¬ RemovableAt (c :: cs) 0) (hpass : Pass cs rest) : Pass (c :: cs) (c :: rest) := by
  cases hpass with
  | done hnone =>
    refine .done fun i => ?_
    cases i with
    | zero => exact h
    | succ i => exact hnone i
  | @remove front found back rest hfound hfirst hback =>
    refine @Pass.remove (c :: front) found back rest hfound (fun i hi => ?_) hback
    cases i with
    | zero => exact h
    | succ i => exact hfirst i (Nat.lt_of_succ_lt_succ hi)

theorem Pass.append (hfound : Removable found) (hpass : Pass cs rest) : Pass (found ++ cs) rest :=
  @Pass.remove [] found cs rest hfound (fun i hi => absurd hi (Nat.not_lt_zero i)) hpass

theorem removableAt_cons_zero_iff :
    RemovableAt (c :: cs) 0 ↔
      c = '(' ∧ [')'] <+: cs ∨ isDisplayOperator c = true ∧ ['(', ')'] <+: cs := by
  constructor
  · rintro ⟨found, hfound, hprefix⟩
    cases hfound with
    | pair =>
      obtain ⟨rfl, hclose⟩ := List.cons_prefix_cons.mp hprefix
      exact .inl ⟨rfl, hclose⟩
    | operator hop =>
      obtain ⟨rfl, hgroup⟩ := List.cons_prefix_cons.mp hprefix
      exact .inr ⟨hop, hgroup⟩
  · rintro (⟨rfl, hclose⟩ | ⟨hop, hgroup⟩)
    · exact ⟨_, .pair, List.cons_prefix_cons.mpr ⟨rfl, hclose⟩⟩
    · exact ⟨_, .operator hop, List.cons_prefix_cons.mpr ⟨rfl, hgroup⟩⟩

/-- The pass takes out a removable stretch at the front of what is left, or keeps a character. -/
theorem removable_induction {motive : List Char → Prop} (nil : motive [])
    (remove : ∀ found cs, Removable found → motive cs → motive (found ++ cs))
    (keep : ∀ c cs, ¬ RemovableAt (c :: cs) 0 → motive cs → motive (c :: cs)) (cs : List Char) :
    motive cs := by
  fun_induction dropEmptyGroups cs with
  | case1 => exact nil
  | case2 cs ih => exact remove _ cs .pair ih
  | case3 c cs hop ih => exact remove _ cs (.operator hop) ih
  | case4 c cs hop ih =>
    refine keep c _ (fun h => ?_) ih
    obtain ⟨-, hclose⟩ | ⟨hop', -⟩ := removableAt_cons_zero_iff.mp h
    · exact absurd (List.cons_prefix_cons.mp hclose).1 (by decide)
    · exact hop hop'
  | case5 c cs hpair hnext ih =>
    refine keep c _ (fun h => ?_) ih
    obtain ⟨rfl, tail, rfl⟩ | ⟨-, tail, rfl⟩ := removableAt_cons_zero_iff.mp h
    · exact hpair tail rfl rfl
    · exact hnext tail rfl

theorem dropEmptyGroups_append_of_removable (h : Removable found) (cs : List Char) :
    dropEmptyGroups (found ++ cs) = dropEmptyGroups cs := by
  cases h with
  | pair => rfl
  | operator hop => exact (dropEmptyGroups.eq_3 _ cs).trans (if_pos hop)

theorem dropEmptyGroups_cons_of_kept (h : ¬ RemovableAt (c :: cs) 0) :
    dropEmptyGroups (c :: cs) = c :: dropEmptyGroups cs := by
  rw [dropEmptyGroups.eq_def]
  split
  · rename_i heq
    cases heq
  · rename_i heq
    cases heq
    exact absurd (removableAt_cons_zero_iff.mpr (.inl ⟨rfl, _, rfl⟩)) h
  · rename_i heq
    cases heq
    exact if_neg fun hop => h (removableAt_cons_zero_iff.mpr (.inr ⟨hop, _, rfl⟩))
  · rename_i heq
    cases heq
    rfl

/-- The rule makes this search. -/
theorem pass_dropEmptyGroups (cs : List Char) : Pass cs (dropEmptyGroups cs) := by
  induction cs using removable_induction with
  | nil =>
    refine .done fun i => ?_
    rintro ⟨found, hfound, hprefix⟩
    rw [List.drop_nil, List.prefix_nil] at hprefix
    subst hprefix
    cases hfound
  | remove found cs hfound ih =>
    rw [dropEmptyGroups_append_of_removable hfound]
    exact .append hfound ih
  | keep c cs hc ih =>
    rw [dropEmptyGroups_cons_of_kept hc]
    exact .cons hc ih

/-! ## The pass and the parts of a text -/

theorem RemovableAt.append (h : RemovableAt cs 0) (bs : List Char) : RemovableAt (cs ++ bs) 0 := by
  obtain ⟨found, hfound, hprefix⟩ := h
  exact ⟨found, hfound, hprefix.trans (List.prefix_append cs bs)⟩

/-- A character that stays has a place in the text, and the pass does the same on both sides of it as it
would do to each of them alone. -/
theorem exists_of_dropEmptyGroups_eq (h : dropEmptyGroups cs = as ++ c :: bs) :
    ∃ front back, cs = front ++ c :: back ∧ dropEmptyGroups front = as ∧ dropEmptyGroups back = bs ∧
      ¬ RemovableAt (c :: back) 0 := by
  induction cs using removable_induction generalizing as with
  | nil => exact absurd h (by simp [dropEmptyGroups])
  | remove found cs hfound ih =>
    rw [dropEmptyGroups_append_of_removable hfound] at h
    obtain ⟨front, back, rfl, hfront, hback, hkept⟩ := ih h
    refine ⟨found ++ front, back, (List.append_assoc _ _ _).symm, ?_, hback, hkept⟩
    rw [dropEmptyGroups_append_of_removable hfound, hfront]
  | keep d cs hd ih =>
    rw [dropEmptyGroups_cons_of_kept hd] at h
    cases as with
    | nil =>
      obtain ⟨rfl, rfl⟩ := List.cons.inj h
      exact ⟨[], cs, rfl, rfl, rfl, hd⟩
    | cons a as =>
      rw [List.cons_append] at h
      obtain ⟨rfl, htail⟩ := List.cons.inj h
      obtain ⟨front, back, rfl, hfront, hback, hkept⟩ := ih htail
      refine ⟨d :: front, back, rfl, ?_, hback, hkept⟩
      rw [dropEmptyGroups_cons_of_kept fun hremovable => hd (hremovable.append (c :: back)), hfront]

/-- A part of what stays is what stays of a part. -/
theorem exists_infix_of_dropEmptyGroups (h : f <:+: dropEmptyGroups cs) :
    ∃ g, g <:+: cs ∧ dropEmptyGroups g = f := by
  obtain ⟨before, behind, hparts⟩ := h
  cases f with
  | nil => exact ⟨[], List.nil_infix, rfl⟩
  | cons c f =>
    rw [List.append_assoc, List.cons_append] at hparts
    obtain ⟨front, back, rfl, -, hback, hkept⟩ := exists_of_dropEmptyGroups_eq hparts.symm
    cases behind with
    | nil =>
      refine ⟨c :: back, (List.suffix_append front (c :: back)).isInfix, ?_⟩
      rw [dropEmptyGroups_cons_of_kept hkept, hback, List.append_nil]
    | cons d behind =>
      obtain ⟨inner, rest, rfl, hinner, -, -⟩ := exists_of_dropEmptyGroups_eq hback
      refine ⟨c :: inner, ⟨front, d :: rest, by simp⟩, ?_⟩
      rw [dropEmptyGroups_cons_of_kept fun hremovable => hkept (hremovable.append (d :: rest)), hinner]

/-- The pass brings an operator in front of what stood further behind, and no parenthesis but one that
was not in front of an empty pair. -/
theorem head?_dropEmptyGroups_of_kept (h : ¬ RemovableAt (c :: cs) 0) :
    (dropEmptyGroups cs).head? = cs.head? ∨
      ∃ d ∈ cs.head?, isDisplayOperator d = true ∨ d = '(' ∧ isDisplayOperator c = false := by
  cases cs with
  | nil => exact .inl rfl
  | cons d cs =>
    by_cases hd : RemovableAt (d :: cs) 0
    · refine .inr ⟨d, rfl, ?_⟩
      rcases removableAt_cons_zero_iff.mp hd with ⟨rfl, tail, rfl⟩ | ⟨hop, -⟩
      · refine .inr ⟨rfl, ?_⟩
        by_contra hop
        rw [Bool.not_eq_false] at hop
        exact h (removableAt_cons_zero_iff.mpr (.inr ⟨hop, tail, rfl⟩))
      · exact .inl hop
    · rw [dropEmptyGroups_cons_of_kept hd]
      exact .inl rfl

/-! ## The positions that are taken out -/

/-- **`EmptyGroupAt cs i`** — `()` stands in the text from position `i` on. -/
def EmptyGroupAt (cs : List Char) (i : Nat) : Prop := ['(', ')'] <+: cs.drop i

instance (cs : List Char) (i : Nat) : Decidable (EmptyGroupAt cs i) :=
  inferInstanceAs (Decidable (['(', ')'] <+: cs.drop i))

/-- **`InEmptyGroup cs i`** — the character at position `i` belongs to some `()`. -/
def InEmptyGroup (cs : List Char) (i : Nat) : Prop := ∃ j ≤ i, i < j + 2 ∧ EmptyGroupAt cs j

instance (cs : List Char) (i : Nat) : Decidable (InEmptyGroup cs i) :=
  inferInstanceAs (Decidable (∃ j ≤ i, i < j + 2 ∧ EmptyGroupAt cs j))

/-- **`BeforeEmptyGroup cs i`** — the character at position `i` is an operator, and `()` follows it. -/
def BeforeEmptyGroup (cs : List Char) (i : Nat) : Prop :=
  cs[i]?.any isDisplayOperator = true ∧ EmptyGroupAt cs (i + 1)

instance (cs : List Char) (i : Nat) : Decidable (BeforeEmptyGroup cs i) :=
  inferInstanceAs (Decidable (cs[i]?.any isDisplayOperator = true ∧ EmptyGroupAt cs (i + 1)))

/-- **`TakenAt cs i`** — the character at position `i` is one of those that go. -/
def TakenAt (cs : List Char) (i : Nat) : Prop := InEmptyGroup cs i ∨ BeforeEmptyGroup cs i

instance (cs : List Char) (i : Nat) : Decidable (TakenAt cs i) :=
  inferInstanceAs (Decidable (InEmptyGroup cs i ∨ BeforeEmptyGroup cs i))

theorem emptyGroupAt_cons_zero_iff : EmptyGroupAt (c :: cs) 0 ↔ c = '(' ∧ [')'] <+: cs := by
  rw [EmptyGroupAt, List.drop_zero, List.cons_prefix_cons, eq_comm]

theorem inEmptyGroup_zero_iff : InEmptyGroup cs 0 ↔ EmptyGroupAt cs 0 := by
  constructor
  · rintro ⟨j, hj, -, hgroup⟩
    obtain rfl := Nat.le_zero.mp hj
    exact hgroup
  · intro hgroup
    exact ⟨0, Nat.le_refl 0, Nat.two_pos, hgroup⟩

/-- Behind the first character, a position belongs to a pair of the rest, or the pair begins in front. -/
theorem inEmptyGroup_cons_succ_iff :
    InEmptyGroup (c :: cs) (i + 1) ↔ InEmptyGroup cs i ∨ i = 0 ∧ EmptyGroupAt (c :: cs) 0 := by
  constructor
  · rintro ⟨_ | j, hj, hi, hgroup⟩
    · exact .inr ⟨by omega, hgroup⟩
    · exact .inl ⟨j, Nat.le_of_succ_le_succ hj, by omega, hgroup⟩
  · rintro (⟨j, hj, hi, hgroup⟩ | ⟨rfl, hgroup⟩)
    · exact ⟨j + 1, Nat.succ_le_succ hj, by omega, hgroup⟩
    · exact ⟨0, Nat.zero_le _, Nat.one_lt_two, hgroup⟩

theorem beforeEmptyGroup_cons_zero_iff :
    BeforeEmptyGroup (c :: cs) 0 ↔ isDisplayOperator c = true ∧ EmptyGroupAt cs 0 := Iff.rfl

/-- The first character goes just if a removable stretch begins with it. -/
theorem takenAt_cons_zero_iff : TakenAt (c :: cs) 0 ↔ RemovableAt (c :: cs) 0 := by
  rw [TakenAt, inEmptyGroup_zero_iff, beforeEmptyGroup_cons_zero_iff, emptyGroupAt_cons_zero_iff,
    removableAt_cons_zero_iff]
  rfl

/-- Unless a pair begins in front, what goes behind the first character does not depend on that one. -/
theorem takenAt_cons_succ_iff (h : i = 0 → ¬ EmptyGroupAt (c :: cs) 0) :
    TakenAt (c :: cs) (i + 1) ↔ TakenAt cs i := by
  have hgroup : InEmptyGroup (c :: cs) (i + 1) ↔ InEmptyGroup cs i := by
    rw [inEmptyGroup_cons_succ_iff, or_iff_left fun hpair => h hpair.1 hpair.2]
  exact or_congr_left hgroup

/-! ## What stays -/

/-- **`keepAt keep cs`** — the characters at the positions that `keep` admits, in their order. -/
def keepAt (keep : Nat → Bool) (cs : List Char) : List Char :=
  (cs.zipIdx.filter fun entry => keep entry.2).map Prod.fst

theorem keepAt_cons (keep : Nat → Bool) (c : Char) (cs : List Char) :
    keepAt keep (c :: cs) =
      if keep 0 then c :: keepAt (fun i => keep (i + 1)) cs else keepAt (fun i => keep (i + 1)) cs := by
  have htail : ((cs.zipIdx 1).filter fun entry => keep entry.2).map Prod.fst =
      keepAt (fun i => keep (i + 1)) cs := by
    rw [List.zipIdx_succ, List.filter_map, List.map_map]
    rfl
  rw [← htail, keepAt, List.zipIdx_cons, List.filter_cons]
  split <;> rfl

/-- **`outsideEmptyGroups cs`** — the text without the characters that go. -/
def outsideEmptyGroups (cs : List Char) : List Char := keepAt (fun i => !decide (TakenAt cs i)) cs

theorem outsideEmptyGroups_cons (h : ¬ EmptyGroupAt (c :: cs) 0) :
    outsideEmptyGroups (c :: cs) =
      if TakenAt (c :: cs) 0 then outsideEmptyGroups cs else c :: outsideEmptyGroups cs := by
  have hrest (i : Nat) : TakenAt (c :: cs) (i + 1) ↔ TakenAt cs i := takenAt_cons_succ_iff fun _ => h
  simp only [outsideEmptyGroups, keepAt_cons, hrest]
  by_cases hgoes : TakenAt (c :: cs) 0
  · rw [if_pos hgoes, decide_eq_true hgoes]
    rfl
  · rw [if_neg hgoes, decide_eq_false hgoes]
    rfl

theorem outsideEmptyGroups_pair (cs : List Char) :
    outsideEmptyGroups ('(' :: ')' :: cs) = outsideEmptyGroups cs := by
  have hgroup : EmptyGroupAt ('(' :: ')' :: cs) 0 := ⟨cs, rfl⟩
  have hopen : TakenAt ('(' :: ')' :: cs) 0 := .inl (inEmptyGroup_zero_iff.mpr hgroup)
  have hclose : TakenAt ('(' :: ')' :: cs) 1 :=
    .inl (inEmptyGroup_cons_succ_iff.mpr (.inr ⟨rfl, hgroup⟩))
  have hnone : ¬ EmptyGroupAt (')' :: cs) 0 :=
    fun h => absurd (emptyGroupAt_cons_zero_iff.mp h).1 (by decide)
  have hrest (i : Nat) : TakenAt ('(' :: ')' :: cs) (i + 1 + 1) ↔ TakenAt cs i := by
    rw [takenAt_cons_succ_iff (by omega), takenAt_cons_succ_iff fun _ => hnone]
  simp only [outsideEmptyGroups, keepAt_cons, hopen, hclose, hrest]
  rfl

/-- A removable stretch in front goes as a whole. -/
theorem outsideEmptyGroups_append_of_removable (h : Removable found) (cs : List Char) :
    outsideEmptyGroups (found ++ cs) = outsideEmptyGroups cs := by
  cases h with
  | pair => exact outsideEmptyGroups_pair cs
  | @operator op hop =>
    show outsideEmptyGroups (op :: '(' :: ')' :: cs) = outsideEmptyGroups cs
    have hgoes : TakenAt (op :: '(' :: ')' :: cs) 0 :=
      .inr (beforeEmptyGroup_cons_zero_iff.mpr ⟨hop, cs, rfl⟩)
    have hnone : ¬ EmptyGroupAt (op :: '(' :: ')' :: cs) 0 := by
      intro hgroup
      -- no operator is a parenthesis
      obtain ⟨rfl, -⟩ := emptyGroupAt_cons_zero_iff.mp hgroup
      cases hop
    rw [outsideEmptyGroups_cons hnone, if_pos hgoes, outsideEmptyGroups_pair]

/-- A part in which no removable stretch begins stays as a whole. -/
theorem outsideEmptyGroups_append (h : ∀ i < front.length, ¬ RemovableAt (front ++ back) i) :
    outsideEmptyGroups (front ++ back) = front ++ outsideEmptyGroups back := by
  induction front with
  | nil => rfl
  | cons c front ih =>
    have hfirst : ¬ TakenAt (c :: (front ++ back)) 0 :=
      fun htaken => h 0 (Nat.zero_lt_succ _) (takenAt_cons_zero_iff.mp htaken)
    have hnone : ¬ EmptyGroupAt (c :: (front ++ back)) 0 :=
      fun hgroup => hfirst (.inl (inEmptyGroup_zero_iff.mpr hgroup))
    rw [List.cons_append, outsideEmptyGroups_cons hnone, if_neg hfirst,
      ih fun i hi => h (i + 1) (Nat.succ_lt_succ hi), List.cons_append]

/-! ## The search and the positions -/

theorem Pass.eq_outsideEmptyGroups (h : Pass cs rest) : rest = outsideEmptyGroups cs := by
  -- the induction is on the finds: the text up to the next one stays, and what is behind it is a text anew
  induction h with
  | @done cs hnone =>
    have hall : outsideEmptyGroups (cs ++ []) = cs ++ outsideEmptyGroups [] :=
      outsideEmptyGroups_append fun i _ => by
        rw [List.append_nil]
        exact hnone i
    have hnil : outsideEmptyGroups [] = [] := rfl
    rw [hnil, List.append_nil] at hall
    exact hall.symm
  | remove hfound hfirst _ ih =>
    rw [outsideEmptyGroups_append hfirst, outsideEmptyGroups_append_of_removable hfound, ih]

theorem dropEmptyGroups_eq (cs : List Char) : dropEmptyGroups cs = outsideEmptyGroups cs :=
  (pass_dropEmptyGroups cs).eq_outsideEmptyGroups

/-- The search takes out the characters at the positions that are taken, and no others. -/
theorem pass_iff : Pass cs rest ↔ rest = outsideEmptyGroups cs := by
  constructor
  · exact Pass.eq_outsideEmptyGroups
  · rintro rfl
    rw [← dropEmptyGroups_eq]
    exact pass_dropEmptyGroups cs

namespace Rule

/-- **`apply_emptyParentheses_pointwise`** — the rule fires just if `()` stands in the expression. The one
search from the left leaves the characters that belong to no `()` of the expression and are no operator in
front of one, in their order. The result is what is left, or `0` if that is nothing, and it opens as many
more parentheses than it closes as the expression does. -/
theorem apply_emptyParentheses_pointwise (expression : String) :
    ((emptyParentheses.apply expression).isSome = true ↔ ['(', ')'] <:+: expression.toList) ∧
    (∀ rest, Pass expression.toList rest ↔ rest = outsideEmptyGroups expression.toList) ∧
    ∀ fixed, emptyParentheses.apply expression = some fixed →
      (fixed.toList =
        if outsideEmptyGroups expression.toList = [] then ['0']
        else outsideEmptyGroups expression.toList) ∧
      excess fixed.toList = excess expression.toList := by
  refine ⟨apply_emptyParentheses_isSome_iff, fun _ => pass_iff, fun fixed hfixed => ?_⟩
  have hfire := apply_eq_some_iff.mp hfixed
  refine ⟨?_, (excess_nonClosing_of_fire? hfire (by decide)).1⟩
  rw [← dropEmptyGroups_eq]
  obtain ⟨-, ⟨hnil, heq⟩ | ⟨hne, heq⟩⟩ := fire?_emptyParentheses hfire
  · rw [if_pos hnil, heq]
  · rw [if_neg hne, heq]

/-- In `(()÷())` two pairs go, and the operator in front of the second. The pair that is left over has only
come together by that, and it stays. -/
theorem apply_emptyParentheses_pointwise_of_adjacent :
    emptyParentheses.apply "(()÷())" = some "()" ∧
      ['(', ')'] <:+: "(()÷())".toList ∧
      Pass "(()÷())".toList ['(', ')'] ∧
      excess "()".toList = excess "(()÷())".toList := by
  have happly : emptyParentheses.apply "(()÷())" = some "()" := by decide
  obtain ⟨hfires, hpass, hfixed⟩ := apply_emptyParentheses_pointwise "(()÷())"
  obtain ⟨-, hexcess⟩ := hfixed "()" happly
  refine ⟨happly, hfires.mp (by rw [happly]; rfl), (hpass _).mpr ?_, hexcess⟩
  decide

/-- Of `()+()` nothing is left. -/
example : emptyParentheses.apply "()+()" = some "0" ∧ outsideEmptyGroups "()+()".toList = [] := by
  decide

end Rule

end Reckoner
