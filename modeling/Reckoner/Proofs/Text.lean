/-
# Reckoner.Proofs.Text — trimmed texts, and patterns that occur in a text.

What the functions of `Reckoner.Text` compute, said with the relations of lists: trimming takes white
space off both ends (`exists_eq_append_trim`), a pattern occurs where it is an infix (`occursIn_iff`),
and the occurrence that a text is cut at is the first admissible one
(`admissible_eq_false_of_cutFirst`, `cutFirst_eq_none_iff`).
-/
import Mathlib.Data.List.Basic
import Mathlib.Data.List.TakeWhile
import Reckoner.Text.Blank
import Reckoner.Text.Search

namespace Reckoner

/-- **`White cs`** — nothing but white space. -/
def White (cs : List Char) : Prop := ∀ c ∈ cs, isWhite c = true

theorem white_nil : White [] := fun _ h => by cases h

theorem not_mem_of_white {cs : List Char} {c : Char} (h : White cs) (hc : isWhite c = false) :
    c ∉ cs := by
  intro hmem
  have hw := h c hmem
  rw [hc] at hw
  cases hw

/-! ## Trimming -/

theorem white_takeWhile (cs : List Char) : White (cs.takeWhile isWhite) := by
  intro c hc
  exact List.all_eq_true.mp List.all_takeWhile c hc

/-- A text is its trimmed text with white space around it. -/
theorem exists_eq_append_trim (cs : List Char) :
    ∃ front back, White front ∧ White back ∧ cs = front ++ trim cs ++ back := by
  let tail := cs.dropWhile isWhite
  have hcs : cs = cs.takeWhile isWhite ++ tail := List.takeWhile_append_dropWhile.symm
  have htail : tail = trim cs ++ (tail.reverse.takeWhile isWhite).reverse := by
    show tail = (tail.reverse.dropWhile isWhite).reverse ++ (tail.reverse.takeWhile isWhite).reverse
    rw [← List.reverse_append, List.takeWhile_append_dropWhile, List.reverse_reverse]
  refine ⟨cs.takeWhile isWhite, (tail.reverse.takeWhile isWhite).reverse, white_takeWhile cs, ?_, ?_⟩
  · intro c hc
    exact white_takeWhile _ c (List.mem_reverse.mp hc)
  · rw [List.append_assoc, ← htail]
    exact hcs

theorem dropWhile_concat {c : Char} (hc : isWhite c = false) (front : List Char) :
    (front ++ [c]).dropWhile isWhite = front.dropWhile isWhite ++ [c] := by
  rw [List.dropWhile_append]
  split
  · rename_i hempty
    rw [List.isEmpty_iff.mp hempty, List.dropWhile_cons_of_neg (by rw [hc]; decide), List.nil_append]
  · rfl

theorem trim_concat {c : Char} (hc : isWhite c = false) (front : List Char) :
    trim (front ++ [c]) = front.dropWhile isWhite ++ [c] := by
  rw [trim, dropWhile_concat hc, trimEnd, List.reverse_append, List.reverse_singleton,
    List.singleton_append, List.dropWhile_cons_of_neg (by rw [hc]; decide), List.reverse_cons,
    List.reverse_reverse]

/-- White space around a text is trimmed off with what the text itself has at its ends. -/
theorem trim_append_of_white {front back : List Char} (hfront : White front) (hback : White back)
    (cs : List Char) : trim (front ++ cs ++ back) = trim cs := by
  have hreverse : ∀ c ∈ back.reverse, isWhite c = true := fun c hc => hback c (List.mem_reverse.mp hc)
  rw [trim, trim, List.append_assoc, List.dropWhile_append_of_pos hfront, List.dropWhile_append]
  split
  · rename_i hempty
    rw [List.isEmpty_iff.mp hempty, List.dropWhile_eq_nil_iff.mpr hback]
  · rw [trimEnd, trimEnd, List.reverse_append, List.dropWhile_append_of_pos hreverse]

theorem count_dropWhile_white {c : Char} (hc : isWhite c = false) (cs : List Char) :
    (cs.dropWhile isWhite).count c = cs.count c := by
  have hsplit : cs.takeWhile isWhite ++ cs.dropWhile isWhite = cs := List.takeWhile_append_dropWhile
  have hnone := List.count_eq_zero_of_not_mem (not_mem_of_white (white_takeWhile cs) hc)
  have hcount := congrArg (List.count c) hsplit
  rwa [List.count_append, hnone, Nat.zero_add] at hcount

/-! ## Occurrences -/

/-- The parts and the pattern between them are the whole text, and the rest is admissible. -/
theorem append_of_cutFirst_eq_some {pattern : List Char} {admissible : List Char → Bool}
    {cs before rest : List Char} (h : cutFirst pattern admissible cs = some (before, rest)) :
    cs = before ++ pattern ++ rest ∧ admissible rest = true := by
  induction cs generalizing before with
  | nil =>
    simp only [cutFirst] at h
    split at h
    · rename_i hp
      simp only [Bool.and_eq_true, List.isEmpty_iff] at hp
      simp only [Option.some.injEq, Prod.mk.injEq] at h
      obtain ⟨rfl, rfl⟩ := h
      simp [hp]
    · simp at h
  | cons c cs ih =>
    simp only [cutFirst] at h
    split at h
    · rename_i rest' hm
      rw [Option.filter_eq_some_iff] at hm
      simp only [Option.some.injEq, Prod.mk.injEq] at h
      obtain ⟨rfl, rfl⟩ := h
      exact ⟨(List.isPrefixOf?_eq_some_iff_append_eq.mp hm.1).symm, hm.2⟩
    · obtain ⟨⟨b, r⟩, hb, he⟩ := Option.map_eq_some_iff.1 h
      simp only [Prod.mk.injEq] at he
      obtain ⟨rfl, rfl⟩ := he
      have := ih hb
      exact ⟨by rw [this.1]; simp, this.2⟩

/-- The pattern stands at the front, or it occurs behind the first character. -/
theorem occursIn_cons {pattern cs : List Char} {c : Char} :
    occursIn pattern (c :: cs) = true ↔ pattern <+: c :: cs ∨ occursIn pattern cs = true := by
  have htrue (rest : Option (List Char)) : rest.filter (fun _ => true) = rest := by
    cases rest <;> rfl
  simp only [occursIn, cutFirst, htrue]
  constructor
  · intro h
    cases hp : pattern.isPrefixOf? (c :: cs) with
    | some rest => exact .inl ⟨rest, List.isPrefixOf?_eq_some_iff_append_eq.mp hp⟩
    | none =>
      rw [hp] at h
      rw [Option.isSome_map] at h
      exact .inr h
  · rintro (⟨rest, hrest⟩ | h)
    · rw [List.isPrefixOf?_eq_some_iff_append_eq.mpr hrest]
      rfl
    · cases pattern.isPrefixOf? (c :: cs) with
      | some rest => rfl
      | none =>
        show ((cutFirst pattern (fun _ => true) cs).map _).isSome = true
        rw [Option.isSome_map]
        exact h

theorem occursIn_iff {pattern cs : List Char} : occursIn pattern cs = true ↔ pattern <:+: cs := by
  induction cs with
  | nil =>
    rw [List.infix_nil]
    cases pattern with
    | nil => exact ⟨fun _ => rfl, fun _ => rfl⟩
    | cons p pattern =>
      constructor
      · intro h
        cases h
      · intro h
        cases h
  | cons c cs ih => rw [occursIn_cons, ih, List.infix_cons_iff]

/-! ## The first occurrence -/

section

variable {pattern cs before rest front back : List Char} {admissible : List Char → Bool}

theorem filter_isPrefixOf?_eq_some_iff :
    (pattern.isPrefixOf? cs).filter admissible = some rest ↔
      cs = pattern ++ rest ∧ admissible rest = true := by
  rw [Option.filter_eq_some_iff, List.isPrefixOf?_eq_some_iff_append_eq, eq_comm]

theorem admissible_eq_false_of_filter_eq_none
    (h : (pattern.isPrefixOf? cs).filter admissible = none) (hcs : cs = pattern ++ rest) :
    admissible rest = false := by
  rw [← Bool.not_eq_true]
  intro hrest
  rw [filter_isPrefixOf?_eq_some_iff.mpr ⟨hcs, hrest⟩] at h
  cases h

/-- No occurrence that begins earlier than the one that is cut out is admissible. -/
theorem admissible_eq_false_of_cutFirst (h : cutFirst pattern admissible cs = some (before, rest))
    (hcs : cs = front ++ pattern ++ back) (hlt : front.length < before.length) :
    admissible back = false := by
  induction cs generalizing before front with
  | nil =>
    obtain ⟨hnil, -⟩ := append_of_cutFirst_eq_some h
    have hlength := congrArg List.length hnil
    simp only [List.length_append, List.length_nil] at hlength
    omega
  | cons c cs ih =>
    rw [cutFirst] at h
    split at h
    · obtain ⟨rfl, -⟩ := Prod.mk.inj (Option.some.inj h)
      exact absurd hlt (Nat.not_lt_zero _)
    · rename_i hnone
      obtain ⟨⟨before', rest'⟩, hcut, hparts⟩ := Option.map_eq_some_iff.mp h
      obtain ⟨rfl, rfl⟩ := Prod.mk.inj hparts
      cases front with
      | nil => exact admissible_eq_false_of_filter_eq_none hnone hcs
      | cons d front =>
        obtain ⟨-, hcs⟩ := List.cons.inj hcs
        exact ih hcut hcs (Nat.lt_of_succ_lt_succ hlt)

/-- Nothing is cut out just if no occurrence is admissible. -/
theorem cutFirst_eq_none_iff :
    cutFirst pattern admissible cs = none ↔
      ∀ front back, cs = front ++ pattern ++ back → admissible back = false := by
  constructor
  · intro h front back hcs
    induction cs generalizing front with
    | nil =>
      obtain ⟨hfront, rfl⟩ := List.append_eq_nil_iff.mp hcs.symm
      obtain ⟨-, rfl⟩ := List.append_eq_nil_iff.mp hfront
      simpa [cutFirst] using h
    | cons c cs ih =>
      rw [cutFirst] at h
      split at h
      · cases h
      · rename_i hnone
        cases front with
        | nil => exact admissible_eq_false_of_filter_eq_none hnone hcs
        | cons d front =>
          obtain ⟨-, hcs⟩ := List.cons.inj hcs
          exact ih (Option.map_eq_none_iff.mp h) front hcs
  · intro h
    cases hcut : cutFirst pattern admissible cs with
    | none => rfl
    | some parts =>
      obtain ⟨hcs, hrest⟩ := append_of_cutFirst_eq_some hcut
      rw [h _ _ hcs] at hrest
      cases hrest

end

end Reckoner
