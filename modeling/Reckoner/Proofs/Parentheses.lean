/-
# Reckoner.Proofs.Parentheses — balance and depth of the parentheses of a text.

Both are said of the prefixes of a text, with no machine in sight: a text is `Balanced` when no prefix
closes more parentheses than it opens and the whole closes as many as it opens, and it `NestsWithin` a
bound when no prefix has more of them open. `nesting?` decides the first and measures the second, and
every text of the grammar is balanced.
-/
import Reckoner.Expr.Parse
import Reckoner.Proofs.Grammar

namespace Reckoner

/-- **`Balanced cs`** — every `)` closes an earlier `(`, and none stays open. -/
structure Balanced (cs : List Char) : Prop where
  closed_le : ∀ p, p <+: cs → p.count ')' ≤ p.count '('
  count_eq : cs.count '(' = cs.count ')'

/-- **`NestsWithin n cs`** — at no place in `cs` are more than `n` parentheses open. -/
def NestsWithin (n : Nat) (cs : List Char) : Prop := ∀ p, p <+: cs → p.count '(' ≤ n + p.count ')'

/-! ## Prefixes -/

theorem forall_prefix_nil {P : List Char → Prop} : (∀ p, p <+: [] → P p) ↔ P [] := by
  constructor
  · intro h
    exact h [] List.prefix_rfl
  · intro h p hp
    rw [List.prefix_nil.mp hp]
    exact h

theorem forall_prefix_cons {P : List Char → Prop} {c : Char} {cs : List Char} :
    (∀ p, p <+: c :: cs → P p) ↔ P [] ∧ ∀ p, p <+: cs → P (c :: p) := by
  constructor
  · intro h
    exact ⟨h [] List.nil_prefix, fun p hp => h (c :: p) (List.cons_prefix_cons.mpr ⟨rfl, hp⟩)⟩
  · rintro ⟨hnil, hcons⟩ p hp
    rcases List.prefix_cons_iff.mp hp with rfl | ⟨t, rfl, ht⟩
    · exact hnil
    · exact hcons t ht

theorem forall_prefix_append {P : List Char → Prop} {as bs : List Char}
    (ha : ∀ p, p <+: as → P p) (hb : ∀ q, q <+: bs → P (as ++ q)) : ∀ p, p <+: as ++ bs → P p := by
  intro p hp
  rcases List.prefix_or_prefix_of_prefix hp (List.prefix_append as bs) with hpa | ⟨q, rfl⟩
  · exact ha p hpa
  · exact hb q ((List.prefix_append_right_inj as).mp hp)

/-! ## What `nesting?` decides and measures -/

variable {depth deepest d : Nat} {c : Char} {cs : List Char}

theorem nestingFrom_open :
    nestingFrom depth deepest ('(' :: cs) =
      nestingFrom (depth + 1) (max deepest (depth + 1)) cs := by
  rw [nestingFrom.eq_def]
  exact if_pos rfl

theorem nestingFrom_close_zero : nestingFrom 0 deepest (')' :: cs) = none := rfl

theorem nestingFrom_close_succ :
    nestingFrom (depth + 1) deepest (')' :: cs) = nestingFrom depth deepest cs := rfl

theorem nestingFrom_other (ho : c ≠ '(') (hc : c ≠ ')') :
    nestingFrom depth deepest (c :: cs) = nestingFrom depth deepest cs := by
  rw [nestingFrom.eq_def]
  exact (if_neg ho).trans (if_neg hc)

theorem nestingFrom_isSome_iff :
    (nestingFrom depth deepest cs).isSome = true ↔
      (∀ p, p <+: cs → p.count ')' ≤ depth + p.count '(') ∧
        depth + cs.count '(' = cs.count ')' := by
  induction cs generalizing depth deepest with
  | nil =>
    rw [nestingFrom, forall_prefix_nil]
    by_cases h : depth = 0 <;> simp [h]
  | cons c cs ih =>
    rw [forall_prefix_cons]
    by_cases ho : c = '('
    · subst ho
      rw [nestingFrom_open, ih]
      simp only [List.count_cons_self, List.count_cons_of_ne (show '(' ≠ ')' by decide)]
      constructor
      · rintro ⟨hp, hcount⟩
        exact ⟨⟨Nat.zero_le _, fun p h => by have := hp p h; omega⟩, by omega⟩
      · rintro ⟨⟨-, hp⟩, hcount⟩
        exact ⟨fun p h => by have := hp p h; omega, by omega⟩
    by_cases hc : c = ')'
    · subst hc
      simp only [List.count_cons_self, List.count_cons_of_ne (show ')' ≠ '(' by decide)]
      cases depth with
      | zero =>
        -- the prefix `)` already closes too many
        constructor
        · intro h
          cases h
        · rintro ⟨⟨-, hp⟩, -⟩
          have hfirst := hp [] List.nil_prefix
          simp only [List.count_nil] at hfirst
          omega
      | succ depth =>
        rw [nestingFrom_close_succ, ih]
        constructor
        · rintro ⟨hp, hcount⟩
          exact ⟨⟨Nat.zero_le _, fun p h => by have := hp p h; omega⟩, by omega⟩
        · rintro ⟨⟨-, hp⟩, hcount⟩
          exact ⟨fun p h => by have := hp p h; omega, by omega⟩
    · rw [nestingFrom_other ho hc, ih]
      simp only [List.count_cons_of_ne ho, List.count_cons_of_ne hc]
      exact and_congr_left' ⟨fun hp => ⟨Nat.zero_le _, hp⟩, And.right⟩

theorem nestingFrom_le_iff (h : nestingFrom depth deepest cs = some d) (hle : depth ≤ deepest)
    (n : Nat) :
    d ≤ n ↔ deepest ≤ n ∧ ∀ p, p <+: cs → depth + p.count '(' ≤ n + p.count ')' := by
  induction cs generalizing depth deepest with
  | nil =>
    rw [nestingFrom] at h
    split at h
    · obtain rfl := Option.some.inj h
      rw [forall_prefix_nil]
      simp only [List.count_nil]
      omega
    · cases h
  | cons c cs ih =>
    rw [forall_prefix_cons]
    by_cases ho : c = '('
    · subst ho
      rw [nestingFrom_open] at h
      rw [ih h (by omega)]
      simp only [List.count_cons_self, List.count_cons_of_ne (show '(' ≠ ')' by decide)]
      constructor
      · rintro ⟨hmax, hp⟩
        refine ⟨by omega, ?_, fun p h => by have := hp p h; omega⟩
        rw [List.count_nil, List.count_nil]
        omega
      · rintro ⟨hmax, -, hp⟩
        have hfirst := hp [] List.nil_prefix
        simp only [List.count_nil] at hfirst
        exact ⟨by omega, fun p h => by have := hp p h; omega⟩
    by_cases hc : c = ')'
    · subst hc
      simp only [List.count_cons_self, List.count_cons_of_ne (show ')' ≠ '(' by decide)]
      cases depth with
      | zero =>
        rw [nestingFrom_close_zero] at h
        cases h
      | succ depth =>
        rw [nestingFrom_close_succ] at h
        rw [ih h (by omega)]
        constructor
        · rintro ⟨hd, hp⟩
          refine ⟨hd, ?_, fun p h => by have := hp p h; omega⟩
          rw [List.count_nil, List.count_nil]
          omega
        · rintro ⟨hd, -, hp⟩
          exact ⟨hd, fun p h => by have := hp p h; omega⟩
    · rw [nestingFrom_other ho hc] at h
      rw [ih h hle]
      simp only [List.count_cons_of_ne ho, List.count_cons_of_ne hc]
      constructor
      · rintro ⟨hd, hp⟩
        exact ⟨hd, by rw [List.count_nil, List.count_nil]; omega, hp⟩
      · rintro ⟨hd, -, hp⟩
        exact ⟨hd, hp⟩

theorem nesting?_isSome_iff : (nesting? cs).isSome = true ↔ Balanced cs := by
  rw [nesting?, nestingFrom_isSome_iff]
  simp only [Nat.zero_add]
  exact ⟨fun h => ⟨h.1, h.2⟩, fun h => ⟨h.closed_le, h.count_eq⟩⟩

theorem nestsWithin_of_free (ho : '(' ∉ cs) (n : Nat) : NestsWithin n cs := by
  intro p hp
  rw [List.count_eq_zero.mpr fun h => ho (hp.subset h)]
  exact Nat.zero_le _

theorem nesting?_le_iff (h : nesting? cs = some d) (n : Nat) : d ≤ n ↔ NestsWithin n cs := by
  rw [nestingFrom_le_iff h Nat.le.refl]
  simp only [Nat.zero_add, Nat.zero_le, true_and]
  exact Iff.rfl

/-! ## Composed texts -/

theorem balanced_of_free (ho : '(' ∉ cs) (hc : ')' ∉ cs) : Balanced cs where
  closed_le := by
    intro p hp
    rw [List.count_eq_zero.mpr fun h => hc (hp.subset h)]
    exact Nat.zero_le _
  count_eq := by rw [List.count_eq_zero.mpr ho, List.count_eq_zero.mpr hc]

theorem Balanced.append {as bs : List Char} (ha : Balanced as) (hb : Balanced bs) :
    Balanced (as ++ bs) where
  closed_le := by
    refine forall_prefix_append ha.closed_le fun q hq => ?_
    rw [List.count_append, List.count_append, ha.count_eq]
    exact Nat.add_le_add_left (hb.closed_le q hq) _
  count_eq := by rw [List.count_append, List.count_append, ha.count_eq, hb.count_eq]

/-- A pair of parentheses around a balanced text keeps it balanced. -/
theorem Balanced.group (h : Balanced cs) : Balanced ('(' :: cs ++ [')']) where
  closed_le := by
    rw [List.cons_append, forall_prefix_cons]
    refine ⟨Nat.le.refl, forall_prefix_append ?_ ?_⟩
    · intro p hp
      rw [List.count_cons_self, List.count_cons_of_ne (by decide)]
      exact Nat.le_succ_of_le (h.closed_le p hp)
    · intro q hq
      have hone : q.count ')' ≤ 1 := hq.count_le ')'
      rw [List.count_cons_self, List.count_cons_of_ne (by decide), List.count_append,
        List.count_append, h.count_eq]
      omega
  count_eq := by
    rw [List.cons_append, List.count_cons_self, List.count_cons_of_ne (by decide),
      List.count_append, List.count_append, h.count_eq]
    rfl

theorem balanced_of_blank (h : Blank cs) : Balanced cs :=
  balanced_of_free (fun ho => absurd (h _ ho) (by decide)) fun hc => absurd (h _ hc) (by decide)

theorem balanced_singleton (ho : '(' ≠ c) (hc : ')' ≠ c) : Balanced [c] :=
  balanced_of_free (fun h => ho (List.mem_singleton.mp h)) fun h => hc (List.mem_singleton.mp h)

theorem balanced_cons (ho : '(' ≠ c) (hc : ')' ≠ c) (h : Balanced cs) : Balanced (c :: cs) :=
  (balanced_singleton ho hc).append h

theorem NestsWithin.of_prefix {n : Nat} {as : List Char} (h : NestsWithin n cs) (has : as <+: cs) :
    NestsWithin n as := fun p hp => h p (hp.trans has)

theorem NestsWithin.mono {m n : Nat} (h : NestsWithin m cs) (hle : m ≤ n) : NestsWithin n cs :=
  fun p hp => Nat.le_trans (h p hp) (Nat.add_le_add_right hle _)

/-- What opens no parenthesis may follow. -/
theorem NestsWithin.append_of_free {n : Nat} {as bs : List Char} (h : NestsWithin n as)
    (hbs : '(' ∉ bs) : NestsWithin n (as ++ bs) := by
  refine forall_prefix_append h fun q hq => ?_
  have has := h as List.prefix_rfl
  rw [List.count_append, List.count_append, List.count_eq_zero.mpr fun hmem => hbs (hq.subset hmem)]
  omega

/-- Behind a balanced text, the nesting starts afresh. -/
theorem nestsWithin_append_iff {n : Nat} {as bs : List Char} (has : Balanced as) :
    NestsWithin n (as ++ bs) ↔ NestsWithin n as ∧ NestsWithin n bs := by
  have hcount := has.count_eq
  constructor
  · intro h
    refine ⟨h.of_prefix (List.prefix_append as bs), fun q hq => ?_⟩
    have hnest := h (as ++ q) ((List.prefix_append_right_inj as).mpr hq)
    rw [List.count_append, List.count_append] at hnest
    omega
  · rintro ⟨hnest, hrest⟩
    refine forall_prefix_append hnest fun q hq => ?_
    have hq := hrest q hq
    rw [List.count_append, List.count_append]
    omega

theorem nestsWithin_cons_iff {n : Nat} (ho : '(' ≠ c) (hc : ')' ≠ c) :
    NestsWithin n (c :: cs) ↔ NestsWithin n cs := by
  rw [← List.singleton_append, nestsWithin_append_iff (balanced_singleton ho hc)]
  exact and_iff_right (nestsWithin_of_free (fun h => ho (List.mem_singleton.mp h)) n)

/-- A pair of parentheses is one level of nesting more. -/
theorem nestsWithin_group_iff {n : Nat} (h : Balanced cs) :
    NestsWithin n ('(' :: cs ++ [')']) ↔ 0 < n ∧ NestsWithin (n - 1) cs := by
  have hcount := h.count_eq
  have hcons (p : List Char) : ('(' :: p).count '(' = p.count '(' + 1 ∧
      ('(' :: p).count ')' = p.count ')' :=
    ⟨List.count_cons_self, List.count_cons_of_ne (by decide)⟩
  constructor
  · intro hnest
    have hfirst : 1 ≤ n + 0 := hnest ['('] (List.prefix_append ['('] (cs ++ [')']))
    refine ⟨hfirst, fun p hp => ?_⟩
    have hmore := hnest ('(' :: p)
      (List.cons_prefix_cons.mpr ⟨rfl, hp.trans (List.prefix_append cs [')'])⟩)
    rw [(hcons p).1, (hcons p).2] at hmore
    omega
  · rintro ⟨hn, hnest⟩
    rw [List.cons_append, NestsWithin, forall_prefix_cons]
    refine ⟨Nat.zero_le _, forall_prefix_append ?_ ?_⟩
    · intro p hp
      have hp := hnest p hp
      rw [(hcons p).1, (hcons p).2]
      omega
    · intro q hq
      have hnone : q.count '(' ≤ 0 := hq.count_le '('
      rw [(hcons _).1, (hcons _).2, List.count_append, List.count_append]
      omega

/-! ## Balanced texts taken apart -/

/-- A text that closes more parentheses than it opens has a `)` that closes one too many for the first
time. -/
theorem exists_first_return (hp : ∀ p, p <+: cs → p.count ')' ≤ d + 1 + p.count '(')
    (hcount : cs.count ')' = d + 1 + cs.count '(') :
    ∃ as bs, cs = as ++ ')' :: bs ∧ (∀ p, p <+: as → p.count ')' ≤ d + p.count '(') ∧
      as.count ')' = d + as.count '(' ∧ Balanced bs := by
  induction cs generalizing d with
  | nil =>
    rw [List.count_nil, List.count_nil] at hcount
    omega
  | cons c cs ih =>
    have htail := (forall_prefix_cons.mp hp).2
    simp only [List.count_cons] at htail hcount
    by_cases hfirst : (if c == ')' then 1 else 0) ≤ d
    · -- `c` is not the one, and behind it `d` has changed by what `c` opens or closes
      obtain ⟨as, bs, rfl, has, hcounts, hbs⟩ :=
        @ih (d + (if c == '(' then 1 else 0) - (if c == ')' then 1 else 0))
          (fun p h => by have := htail p h; omega) (by omega)
      refine ⟨c :: as, bs, rfl, forall_prefix_cons.mpr ⟨Nat.zero_le _, fun p h => ?_⟩, ?_, hbs⟩
      · have := has p h
        simp only [List.count_cons]
        omega
      · simp only [List.count_cons]
        omega
    · obtain rfl : c = ')' := Decidable.byContradiction fun hne =>
        hfirst (by rw [if_neg (by rwa [beq_iff_eq])]; exact Nat.zero_le d)
      obtain rfl : d = 0 := by
        rw [beq_self_eq_true, if_pos rfl] at hfirst
        omega
      refine ⟨[], cs, rfl, forall_prefix_nil.mpr (Nat.zero_le _), rfl, ⟨fun p h => ?_, ?_⟩⟩
      · have hone : p.count ')' + 1 ≤ 0 + 1 + (p.count '(' + 0) := htail p h
        omega
      · change cs.count ')' + 1 = 0 + 1 + (cs.count '(' + 0) at hcount
        omega

/-- The first parenthesis of a balanced text is closed around a balanced text. -/
theorem Balanced.exists_group (h : Balanced ('(' :: cs)) :
    ∃ as bs, cs = as ++ ')' :: bs ∧ Balanced as ∧ Balanced bs := by
  have hp := (forall_prefix_cons.mp h.closed_le).2
  have hcount := h.count_eq
  simp only [List.count_cons_self, List.count_cons_of_ne (show '(' ≠ ')' by decide)] at hp hcount
  obtain ⟨as, bs, hcs, has, hcounts, hbs⟩ :=
    @exists_first_return 0 cs (fun p h => by have := hp p h; omega) (by omega)
  simp only [Nat.zero_add] at has hcounts
  exact ⟨as, bs, hcs, ⟨has, hcounts.symm⟩, hbs⟩

/-! ## The texts of the grammar are balanced -/

namespace Grammar

theorem Literal.balanced {d : Decimal} (h : Literal cs d) : Balanced cs :=
  balanced_of_free (h.not_mem rfl (by decide)) (h.not_mem rfl (by decide))

theorem Opening.balanced (h : Opening cs) : Balanced cs := by
  cases h with
  | blank ha => exact balanced_of_blank ha
  | plus ha hb =>
    exact (balanced_of_blank ha).append
      (balanced_cons (by decide) (by decide) (balanced_of_blank hb))

theorem balanced_sign (op : Op) {bs : List Char} (h : Balanced bs) : Balanced (op.sign :: bs) := by
  cases op <;> exact balanced_cons (by decide) (by decide) h

theorem Layered.balanced {level : Level} {e : Expr Decimal} (h : Layered level cs e) :
    Balanced cs := by
  induction h with
  | literal h => exact h.balanced
  | group _ ih => exact ih.group
  | unsigned _ ih | factor _ ih | term _ ih => exact ih
  | minus hb _ ih =>
    exact (balanced_cons (by decide) (by decide) (balanced_of_blank hb)).append ih
  | product _ _ ha hb _ ihl ihr | sum _ _ ha hb _ ihl ihr =>
    exact ((ihl.append (balanced_of_blank ha)).append
      (balanced_sign _ (balanced_of_blank hb))).append ihr
  | text ho _ hb ih => exact (ho.balanced.append ih).append (balanced_of_blank hb)

end Grammar

end Reckoner
