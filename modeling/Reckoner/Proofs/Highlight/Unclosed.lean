/-
# Reckoner.Proofs.Highlight.Unclosed — the parenthesis that an unbalanced expression is highlighted at.

`LeftOpen cs i` says with no stack in sight that the `(` at position `i` is never closed: the parentheses
that are opened from there on and those that are closed never become equally many. Where a text has more
`(` than `)` there is such a parenthesis, and the highlight stands at the last one.

The scan keeps the byte offsets of the open parentheses on a stack and passes over a `)` that has nothing
to close. `Scanned` is its invariant: it says what the text consists of when the scan has come to a stack. Behind each
parenthesis on the stack stands a balanced text up to the next one, and in front of the first of them every
`(` has been closed. How many `)` were passed over there is of no matter, and the stack does not tell. This
is why the scan need not find anything in a text with as many `)` as `(`: it may have an open parenthesis
all the same, made up for by a `)` that closes nothing.
-/
import Mathlib.Data.List.Induction
import Mathlib.Order.Bounds.Basic
import Reckoner.Proofs.Parentheses
import Reckoner.Proofs.Repair.Rules
import Reckoner.Highlight

namespace Reckoner

/-- **`LeftOpen cs i`** — at position `i` stands a `(` from which on the excess of opened over closed
parentheses never comes back to zero. -/
structure LeftOpen (cs : List Char) (i : Nat) : Prop where
  isOpen : cs[i]? = some '('
  excess_ne : ∀ p, p <+: cs.drop i → p ≠ [] → excess p ≠ 0

variable {cs front inner p q : List Char} {stack : List Nat} {i : Nat}

/-! ## Parentheses that are never closed -/

theorem excess_open_cons (cs : List Char) : excess ('(' :: cs) = 1 + excess cs := excess_cons '(' cs

theorem neg_one_le_excess_singleton (c : Char) : -1 ≤ excess [c] := by
  have hclose : [c].count ')' ≤ 1 := List.count_le_length
  unfold excess
  omega

/-- What changes by one at a time and never is zero stays above zero. -/
theorem LeftOpen.excess_pos (h : LeftOpen cs i) (hp : p <+: cs.drop i) (hne : p ≠ []) :
    0 < excess p := by
  -- from the last character backwards, down to the `(` itself
  induction p using List.reverseRecOn with
  | nil => exact absurd rfl hne
  | append_singleton p c ih =>
    have hnonzero := h.excess_ne _ hp hne
    have hfront := (List.prefix_append p [c]).trans hp
    rcases p with _ | ⟨d, p⟩
    · have hhead : (cs.drop i).head? = some c := by
        obtain ⟨rest, hrest⟩ := hp
        rw [← hrest]
        rfl
      rw [List.head?_drop, h.isOpen] at hhead
      obtain rfl := Option.some.inj hhead
      decide
    · have hpos := ih hfront (List.cons_ne_nil d p)
      have hlast := neg_one_le_excess_singleton c
      rw [excess_append] at hnonzero ⊢
      omega

theorem LeftOpen.excess_drop_pos (h : LeftOpen cs i) : 0 < excess (cs.drop i) := by
  refine h.excess_pos List.prefix_rfl fun hnil => ?_
  have hhead : (cs.drop i).head? = some '(' := List.head?_drop.trans h.isOpen
  rw [hnil] at hhead
  cases hhead

/-- A balanced text never closes a parenthesis in front of it. -/
theorem leftOpen_of_balanced (h : Balanced inner) : LeftOpen (front ++ '(' :: inner) front.length where
  isOpen := by simp
  excess_ne := by
    intro p hp hne
    rw [List.drop_left] at hp
    rcases List.prefix_cons_iff.mp hp with rfl | ⟨q, rfl, hq⟩
    · exact absurd rfl hne
    · have hclosed := h.closed_le q hq
      rw [excess_open_cons]
      unfold excess
      omega

theorem Balanced.excess_suffix_le (h : Balanced cs) (hq : q <:+ cs) : excess q ≤ 0 := by
  obtain ⟨p, rfl⟩ := hq
  have hclosed := h.closed_le p (List.prefix_append p q)
  have hcount := h.count_eq
  rw [List.count_append, List.count_append] at hcount
  unfold excess
  omega

/-! ## The scan -/

/-- **`Scanned stack cs`** — what `cs` consists of when its open parentheses are at the offsets on the
stack. -/
inductive Scanned : List Nat → List Char → Prop
  | closed {cs : List Char} : (∀ q, q <:+ cs → excess q ≤ 0) → Scanned [] cs
  | pushed {stack : List Nat} {front inner : List Char} : Scanned stack front → Balanced inner →
      Scanned (byteLength front :: stack) (front ++ '(' :: inner)

/-- A balanced text behind it leaves the stack as it is. -/
theorem Scanned.append_balanced (h : Scanned stack cs) (hp : Balanced p) :
    Scanned stack (cs ++ p) := by
  cases h with
  | closed hclosed =>
    refine .closed fun q hq => ?_
    rcases List.suffix_or_suffix_of_suffix hq (List.suffix_append cs p) with hin | ⟨t, rfl⟩
    · exact hp.excess_suffix_le hin
    · have ht : t <:+ cs := ((List.suffix_append_inj_of_length_eq rfl).mp hq).1
      have hback := hp.excess_suffix_le List.suffix_rfl
      have hfront := hclosed t ht
      rw [excess_append]
      omega
  | pushed hstack hinner =>
    rw [List.append_assoc, List.cons_append]
    exact .pushed hstack (hinner.append hp)

theorem Scanned.close (h : Scanned stack cs) : Scanned stack.tail (cs ++ [')']) := by
  cases h with
  | closed hclosed =>
    -- nothing is open, so the `)` is passed over
    refine .closed fun q hq => ?_
    rcases List.suffix_concat_iff.mp hq with rfl | ⟨t, rfl, ht⟩
    · decide
    · have hfront := hclosed t ht
      have hlast : excess [')'] = -1 := by decide
      rw [excess_append]
      omega
  | @pushed stack front inner hstack hinner =>
    -- the group that ends here belongs to what stands behind the parenthesis below
    have hgroup := hstack.append_balanced hinner.group
    rw [List.append_assoc]
    exact hgroup

theorem Scanned.step (h : Scanned stack cs) (c : Char) :
    Scanned (if c = '(' then byteLength cs :: stack else if c = ')' then stack.tail else stack)
      (cs ++ [c]) := by
  split
  · rename_i hopen
    rw [hopen]
    exact .pushed h (balanced_of_blank blank_nil)
  split
  · rename_i hclose
    rw [hclose]
    exact h.close
  · rename_i hopen hclose
    exact h.append_balanced (balanced_singleton (Ne.symm hopen) (Ne.symm hclose))

theorem Scanned.openFrom (h : Scanned stack front) (cs : List Char) :
    Scanned (openFrom (byteLength front) stack cs) (front ++ cs) := by
  induction cs generalizing front stack with
  | nil => rwa [List.append_nil]
  | cons c cs ih =>
    have hrest := ih (h.step c)
    rw [byteLength_append, List.append_assoc] at hrest
    exact hrest

theorem scanned_openFrom (cs : List Char) : Scanned (openFrom 0 [] cs) cs := by
  have hempty : Scanned [] [] := .closed fun q hq => by
    rw [List.suffix_nil.mp hq]
    decide
  exact hempty.openFrom cs

/-! ## What the scan finds -/

/-- On top of the stack is the offset of the last parenthesis that is never closed. -/
theorem Scanned.exists_isGreatest {offset : Nat} (h : Scanned (offset :: stack) cs) :
    ∃ i, IsGreatest {j | LeftOpen cs j} i ∧ offset = byteLength (cs.take i) := by
  cases h with
  | @pushed _ front inner _ hinner =>
    refine ⟨front.length, ⟨leftOpen_of_balanced hinner, fun j hj => ?_⟩, by rw [List.take_left]⟩
    by_contra hlt
    -- what follows a later position is the end of a balanced text
    have hsuffix : (front ++ '(' :: inner).drop j <:+ inner := by
      have hlength : (front ++ ['(']).length ≤ j := by
        rw [List.length_append, List.length_singleton]
        omega
      rw [List.append_cons, List.drop_append, List.drop_of_length_le hlength, List.nil_append]
      exact List.drop_suffix _ _
    have hle := hinner.excess_suffix_le hsuffix
    have hpos := hj.excess_drop_pos
    omega

theorem count_close_lt_iff (cs : List Char) : cs.count ')' < cs.count '(' ↔ 0 < excess cs := by
  unfold excess
  omega

theorem exists_lastUnclosed? (h : cs.count ')' < cs.count '(') :
    ∃ i, IsGreatest {j | LeftOpen cs j} i ∧ lastUnclosed? cs = some (byteLength (cs.take i)) := by
  have hscan := scanned_openFrom cs
  rw [lastUnclosed?, if_pos h]
  cases hstack : openFrom 0 [] cs with
  | nil =>
    rw [hstack] at hscan
    cases hscan with
    | closed hclosed =>
      have hle := hclosed cs List.suffix_rfl
      rw [count_close_lt_iff] at h
      omega
  | cons offset stack =>
    rw [hstack] at hscan
    obtain ⟨i, hgreatest, rfl⟩ := hscan.exists_isGreatest
    exact ⟨i, hgreatest, rfl⟩

theorem lastUnclosed?_eq_none (h : cs.count '(' ≤ cs.count ')') : lastUnclosed? cs = none :=
  if_neg (Nat.not_lt.mpr h)

theorem LeftOpen.eq_append (h : LeftOpen cs i) : cs = cs.take i ++ ['('] ++ cs.drop (i + 1) := by
  obtain ⟨hlt, hopen⟩ := List.getElem?_eq_some_iff.mp h.isOpen
  rw [← hopen, List.append_assoc, List.singleton_append, ← List.drop_eq_getElem_cons hlt,
    List.take_append_drop]

/-! ## The highlight -/

namespace Highlight

variable {expression message : String}

/-- A text can be cut at the two ends of a part of it. -/
theorem split?_append (before focus after : List Char) :
    split? (before ++ focus ++ after) ⟨byteLength before, byteLength focus⟩ =
      some ⟨.ofList before, .ofList focus, .ofList after⟩ := by
  simp only [split?, List.append_assoc, cutAt?_append, Option.bind_some, Option.map_some]

theorem split?_of_leftOpen (h : LeftOpen cs i) :
    split? cs ⟨byteLength (cs.take i), 1⟩ =
      some ⟨.ofList (cs.take i), "(", .ofList (cs.drop (i + 1))⟩ := by
  have hsplit := split?_append (cs.take i) ['('] (cs.drop (i + 1))
  rwa [← h.eq_append] at hsplit

/-- The parenthesis that the search finds is one that is never closed. -/
theorem exists_leftOpen_of_unclosed? {span : Span} (h : unclosed? cs = some span) :
    ∃ i, LeftOpen cs i ∧ split? cs span =
      some ⟨.ofList (cs.take i), "(", .ofList (cs.drop (i + 1))⟩ := by
  obtain ⟨offset, hoffset, rfl⟩ := Option.map_eq_some_iff.mp h
  have hmore : cs.count ')' < cs.count '(' := by
    by_contra hnot
    rw [lastUnclosed?_eq_none (Nat.not_lt.mp hnot)] at hoffset
    cases hoffset
  obtain ⟨i, hgreatest, hfound⟩ := exists_lastUnclosed? hmore
  obtain rfl := Option.some.inj (hfound.symm.trans hoffset)
  exact ⟨i, hgreatest.1, split?_of_leftOpen hgreatest.1⟩

theorem unclosed?_eq_none_iff : unclosed? cs = none ↔ cs.count '(' ≤ cs.count ')' := by
  rw [unclosed?, Option.map_eq_none_iff]
  constructor
  · intro hnone
    by_contra hmore
    obtain ⟨i, -, hfound⟩ := exists_lastUnclosed? (Nat.not_le.mp hmore)
    rw [hnone] at hfound
    cases hfound
  · exact lastUnclosed?_eq_none

/-- Which searches are made is decided by the subjects that the wording speaks of. -/
theorem span?_eq_of_subjects {u z v : Bool} (expression : String)
    (hunbalanced : occursIn "Unbalanced parentheses".toList message.toList = u)
    (hzero : occursIn "Division by zero".toList message.toList = z)
    (hinvalid : occursIn "Invalid expression".toList message.toList = v) :
    span? expression message =
      ((if u then unclosed? expression.toList else none) <|>
        (if z then zeroDivisor? expression.toList else none) <|>
        (if v then emptyGroup? expression.toList else none)) := by
  simp only [span?, hunbalanced, hzero, hinvalid]

/-- For unbalanced parentheses nothing else is looked for. -/
theorem span?_unbalancedParentheses (expression : String) :
    span? expression Failure.unbalancedParentheses.message = unclosed? expression.toList := by
  rw [span?_eq_of_subjects (u := true) (z := false) (v := false) expression (by decide) (by decide)
    (by decide)]
  cases unclosed? expression.toList <;> rfl

theorem span?_of_unclosed? {span : Span}
    (hmessage : Failure.unbalancedParentheses.message.toList <:+: message.toList)
    (h : unclosed? expression.toList = some span) : span? expression message = some span := by
  have hspeaks : occursIn "Unbalanced parentheses".toList message.toList = true :=
    occursIn_iff.mpr hmessage
  simp only [span?, hspeaks, h]
  rfl

/-- **`locate_unclosed`** — where more parentheses are opened than closed, one of them is never closed, the
scan finds the offset of the last one of this kind, and it is highlighted under every wording that speaks of
unbalanced parentheses. Otherwise the scan finds nothing. -/
theorem locate_unclosed (expression : String) :
    (expression.toList.count ')' < expression.toList.count '(' →
      ∃ i, IsGreatest {j | LeftOpen expression.toList j} i ∧
        lastUnclosed? expression.toList = some (byteLength (expression.toList.take i)) ∧
        ∀ message : String,
          Failure.unbalancedParentheses.message.toList <:+: message.toList →
          locate expression message =
            some ⟨.ofList (expression.toList.take i), "(",
              .ofList (expression.toList.drop (i + 1))⟩) ∧
      (expression.toList.count '(' ≤ expression.toList.count ')' →
        lastUnclosed? expression.toList = none ∧
          locate expression Failure.unbalancedParentheses.message = none) := by
  constructor
  · intro h
    obtain ⟨i, hgreatest, hfound⟩ := exists_lastUnclosed? h
    refine ⟨i, hgreatest, hfound, fun message hmessage => ?_⟩
    have hspan : unclosed? expression.toList = some ⟨byteLength (expression.toList.take i), 1⟩ := by
      rw [unclosed?, hfound, Option.map_some]
    rw [locate, span?_of_unclosed? hmessage hspan, Option.bind_some]
    exact split?_of_leftOpen hgreatest.1
  · intro h
    have hnone := lastUnclosed?_eq_none h
    refine ⟨hnone, ?_⟩
    rw [locate, span?_unbalancedParentheses, unclosed?, hnone]
    rfl

/-- The last parenthesis of `)×(((1)` is closed and the one in front of it is not; it has three characters in
front of it and four bytes. In `(1))(` the last one is never closed, but a `)` that closes nothing makes up
for it. -/
theorem locate_unclosed_of_stray_close :
    (")×(((1)".toList.count ')' < ")×(((1)".toList.count '(' ∧
      IsGreatest {j | LeftOpen ")×(((1)".toList j} 3 ∧ lastUnclosed? ")×(((1)".toList = some 4 ∧
      locate ")×(((1)" Failure.unbalancedParentheses.message = some ⟨")×(", "(", "(1)"⟩) ∧
    ("(1))(".toList.count '(' ≤ "(1))(".toList.count ')' ∧ LeftOpen "(1))(".toList 4 ∧
      lastUnclosed? "(1))(".toList = none ∧
      locate "(1))(" Failure.unbalancedParentheses.message = none) := by
  have hmore : ")×(((1)".toList.count ')' < ")×(((1)".toList.count '(' := by decide
  have hsame : "(1))(".toList.count '(' ≤ "(1))(".toList.count ')' := by decide
  obtain ⟨i, hgreatest, hfound, hlocate⟩ := (locate_unclosed ")×(((1)").1 hmore
  have hfour : lastUnclosed? ")×(((1)".toList = some 4 := by decide
  have hlocated := hlocate _ List.infix_rfl
  have hparts : locate ")×(((1)" Failure.unbalancedParentheses.message = some ⟨")×(", "(", "(1)"⟩ := by
    decide +kernel
  have hfront : String.ofList (")×(((1)".toList.take i) = ")×(" :=
    congrArg before (Option.some.inj (hlocated.symm.trans hparts))
  have hthree : min i 7 = 3 := by
    rw [← String.toList_inj, String.toList_ofList] at hfront
    exact List.length_take.symm.trans (congrArg List.length hfront)
  obtain rfl : i = 3 := by omega
  have hopen : LeftOpen ("(1))".toList ++ '(' :: []) 4 :=
    leftOpen_of_balanced (balanced_of_blank blank_nil)
  exact ⟨⟨hmore, hgreatest, hfour, hparts⟩, hsame, hopen, (locate_unclosed "(1))(").2 hsame⟩

end Highlight

end Reckoner
