/-
# Reckoner.Proofs.Spacing — blanks make no difference to an expression that can be read.

Blanks may be taken out of a text that is read, all of them, and put in wherever they do not part the
characters of a numeral, and the text is read as the same expression.

For taking out, the grammar is the better guide: blanks stand only where it allows them, at the ends of a
group, behind a sign and around an operator, and there it allows none at all as well. So a derivation of the
text is one of the shorter text (`layered_withoutBlanks`). No two numerals come to touch, because the grammar
has an operator between them.

For putting in, the machine is: a blank leaves a reading as it is, but for a numeral, which it ends. The
character that comes next then leads to the same reading as before, unless the numeral would have gone on
with it (`run_blank_concat`). So the two runs meet again behind every character of the text.
-/
import Reckoner.Proofs.Fault
import Reckoner.Proofs.Percent

namespace Reckoner

/-- **`withoutBlanks cs`** — the text less its blanks. -/
def withoutBlanks (cs : List Char) : List Char := cs.filter fun c => c ∉ blanks

/-- **`spread gap cs`** — the text with `gap i` in front of the character at position `i`, and the last gap
at its end. -/
def spread (gap : Nat → List Char) : List Char → List Char
  | [] => gap 0
  | c :: cs => gap 0 ++ c :: spread (fun i => gap (i + 1)) cs

/-- **`Spacing cs gap`** — all gaps are blank, and between two digits or points that stand side by side in
the text there is none. -/
structure Spacing (cs : List Char) (gap : Nat → List Char) : Prop where
  blank : ∀ i, Blank (gap i)
  unbroken : ∀ i x y, cs[i]? = some x → cs[i + 1]? = some y → inNumeral x = true →
    inNumeral y = true → gap (i + 1) = []

variable {cs b : List Char} {c : Char} {gap : Nat → List Char}

theorem Spacing.tail (h : Spacing (c :: cs) gap) : Spacing cs fun i => gap (i + 1) where
  blank i := h.blank (i + 1)
  unbroken i x y hx hy := h.unbroken (i + 1) x y (by simpa using hx) (by simpa using hy)

/-! ## Blanks and parentheses -/

theorem withoutBlanks_append (as bs : List Char) :
    withoutBlanks (as ++ bs) = withoutBlanks as ++ withoutBlanks bs := List.filter_append ..

theorem withoutBlanks_cons (hc : isBlank c = false) (cs : List Char) :
    withoutBlanks (c :: cs) = c :: withoutBlanks cs :=
  List.filter_cons_of_pos (decide_eq_true (isBlank_eq_false_iff.mp hc))

theorem withoutBlanks_of_blank (hb : Blank b) : withoutBlanks b = [] :=
  List.filter_eq_nil_iff.mpr fun c hc => by simp [hb c hc]

theorem withoutBlanks_spread (hgap : ∀ i, Blank (gap i)) (cs : List Char) :
    withoutBlanks (spread gap cs) = withoutBlanks cs := by
  induction cs generalizing gap with
  | nil => exact withoutBlanks_of_blank (hgap 0)
  | cons c cs ih =>
    have hrest := ih fun i => hgap (i + 1)
    rw [spread, withoutBlanks_append, withoutBlanks_of_blank (hgap 0), List.nil_append]
    unfold withoutBlanks at hrest ⊢
    rw [List.filter_cons, List.filter_cons, hrest]

/-- Characters that are no parentheses do not nest. -/
theorem nestsWithin_filter_iff {keep : Char → Bool} {n : Nat} (hopen : keep '(' = true)
    (hclose : keep ')' = true) : NestsWithin n (cs.filter keep) ↔ NestsWithin n cs := by
  constructor
  · intro h p hp
    have hkept := h _ (List.IsPrefix.filter keep hp)
    rwa [List.count_filter hopen, List.count_filter hclose] at hkept
  · intro h p hp
    obtain ⟨q, hq, rfl⟩ := List.prefix_filter_iff.mp hp
    rw [List.count_filter hopen, List.count_filter hclose]
    exact h q hq

theorem nestsWithin_withoutBlanks_iff {n : Nat} :
    NestsWithin n (withoutBlanks cs) ↔ NestsWithin n cs := nestsWithin_filter_iff rfl rfl

/-! ## Taking blanks out -/

namespace Grammar

theorem Literal.withoutBlanks_eq {d : Decimal} (h : Literal cs d) : withoutBlanks cs = cs := by
  refine List.filter_eq_self.mpr fun c hc => ?_
  rcases h.digit_or_point c hc with hdigit | rfl
  · exact decide_eq_true (isBlank_eq_false_iff.mp (isBlank_eq_false_of_isDigit hdigit))
  · rfl

theorem Opening.withoutBlanks (h : Opening cs) : Opening (withoutBlanks cs) := by
  cases h with
  | blank ha =>
    rw [withoutBlanks_of_blank ha]
    exact .blank blank_nil
  | plus ha hb =>
    rw [withoutBlanks_append, withoutBlanks_cons rfl, withoutBlanks_of_blank ha,
      withoutBlanks_of_blank hb]
    exact .plus blank_nil blank_nil

/-- An operator loses the blanks around it. -/
theorem withoutBlanks_join {a ds : List Char} (op : Op) (ha : Blank a) (hb : Blank b) :
    withoutBlanks (cs ++ a ++ op.sign :: b ++ ds) =
      withoutBlanks cs ++ [] ++ op.sign :: [] ++ withoutBlanks ds := by
  have hsign : isBlank op.sign = false := by cases op <;> rfl
  rw [withoutBlanks_append, withoutBlanks_append, withoutBlanks_append, withoutBlanks_cons hsign,
    withoutBlanks_of_blank ha, withoutBlanks_of_blank hb]

/-- Less its blanks, a text is written for the same expression. -/
theorem layered_withoutBlanks {level : Level} {e : Expr Decimal} (h : Layered level cs e) :
    Layered level (withoutBlanks cs) e := by
  induction h with
  | literal h =>
    rw [h.withoutBlanks_eq]
    exact .literal h
  | group _ ih =>
    rw [withoutBlanks_append, withoutBlanks_cons rfl]
    exact .group ih
  | unsigned _ ih => exact .unsigned ih
  | minus hb _ ih =>
    rw [withoutBlanks_append, withoutBlanks_cons rfl, withoutBlanks_of_blank hb]
    exact .minus blank_nil ih
  | factor _ ih => exact .factor ih
  | product hop _ ha hb _ ihl ihr =>
    rw [withoutBlanks_join _ ha hb]
    exact .product hop ihl blank_nil blank_nil ihr
  | term _ ih => exact .term ih
  | sum hop _ ha hb _ ihl ihr =>
    rw [withoutBlanks_join _ ha hb]
    exact .sum hop ihl blank_nil blank_nil ihr
  | text ho _ hb ih =>
    rw [withoutBlanks_append, withoutBlanks_append, withoutBlanks_of_blank hb]
    exact .text ho.withoutBlanks ih blank_nil

end Grammar

/-! ## Putting blanks in -/

namespace Expr

namespace Reading

variable {r next last : Reading} {e : Expr Decimal}

/-- **`r.isInside`** — the machine stands inside a numeral. -/
def isInside : Reading → Bool
  | inside .. => true
  | _ => false

/-- The machine comes to stand inside a numeral by the characters of numerals only. -/
theorem Move.inNumeral_of_isInside (h : Move r c next) (hnext : next.isInside = true) :
    inNumeral c = true := by
  cases h with
  | digit hdigit _ => simp [inNumeral, hdigit]
  | point => rfl
  | extend hchar _ =>
    rcases hchar with hdigit | rfl
    · simp [inNumeral, hdigit]
    · rfl
  | wait _ | sign _ | «open» | rest _ _ | close _ _ | operate _ _ => cases hnext

theorem run_after_blank (hb : Blank b) (e : Expr Decimal) (context : Context) :
    (after e context).run b = some (after e context) := by
  induction b with
  | nil => rfl
  | cons c b ih =>
    obtain ⟨hc, hb⟩ := blank_cons.mp hb
    rw [run_cons (show (after e context).step c = _ from stepAfter_blank hc), ih hb]

/-- Blanks in front of a character change nothing, unless they part a numeral. -/
theorem run_blank_concat (h : r.step c = some next) (hb : Blank b)
    (hfree : r.isInside = true → inNumeral c = true → b = []) : r.run (b ++ [c]) = some next := by
  cases r with
  | before slot context => rw [run_append (run_before_blank hb slot context), run_singleton, h]
  | after e context => rw [run_append (run_after_blank hb e context), run_singleton, h]
  | inside n negated context =>
    rcases b with _ | ⟨d, b⟩
    · rw [List.nil_append, run_singleton, h]
    · obtain ⟨hd, hb⟩ := blank_cons.mp hb
      have hc : inNumeral c = false := by
        rw [Bool.eq_false_iff]
        exact fun hc => List.cons_ne_nil d b (hfree rfl hc)
      simp only [inNumeral, Bool.or_eq_false_iff, beq_eq_false_iff_ne] at hc
      -- the numeral ends in front of `c` anyway, so it is complete, and the first blank ends it
      rw [step, extend_eq_none hc.1 hc.2] at h
      obtain ⟨v, hv, hafter⟩ := Option.bind_eq_some_iff.mp h
      have hholds : Holds (inside n negated context) _ context := .inside negated context hv
      have hblank := hholds.step (isDigit_eq_false_of_isBlank hd) (ne_point_of_isBlank hd)
      rw [stepAfter_blank hd] at hblank
      rw [List.cons_append, run_cons hblank, run_append (run_after_blank hb _ _), run_singleton]
      exact hafter

theorem exists_holds_of_result? (h : r.result? = some e) :
    ∃ operand p, Holds r operand ⟨p, []⟩ ∧ p.close operand = e := by
  rcases r with ⟨slot, context⟩ | ⟨n, negated, p, _ | ⟨outer, enclosing⟩⟩ |
    ⟨operand, p, _ | ⟨outer, enclosing⟩⟩
  · cases h
  · obtain ⟨d, hd, rfl⟩ := Option.map_eq_some_iff.mp h
    exact ⟨_, p, .inside negated _ hd, rfl⟩
  · cases h
  · obtain rfl := Option.some.inj h
    exact ⟨operand, p, .after operand _, rfl⟩
  · cases h

/-- Blanks may stand at the end. -/
theorem exists_run_blank_of_result? (h : r.result? = some e) (hb : Blank b) :
    ∃ final, r.run b = some final ∧ final.result? = some e := by
  obtain ⟨operand, p, hholds, rfl⟩ := exists_holds_of_result? h
  obtain ⟨final, hrun, hfinal⟩ := hholds.run_blank hb
  exact ⟨final, hrun, hfinal.result?_eq⟩

/-- A text that is spread out is run over with the same result. What the machine has read so far matters
only if it stands inside a numeral. -/
theorem exists_run_spread (hrun : r.run cs = some last) (hresult : last.result? = some e)
    (hspacing : Spacing cs gap)
    (hfirst : ∀ c, cs.head? = some c → r.isInside = true → inNumeral c = true → gap 0 = []) :
    ∃ final, r.run (spread gap cs) = some final ∧ final.result? = some e := by
  induction cs generalizing r gap with
  | nil =>
    obtain rfl := Option.some.inj hrun
    exact exists_run_blank_of_result? hresult (hspacing.blank 0)
  | cons c cs ih =>
    obtain ⟨next, hstep, hnext⟩ := Option.bind_eq_some_iff.mp hrun
    have hgap := run_blank_concat hstep (hspacing.blank 0) (hfirst c rfl)
    have hsecond : ∀ d, cs.head? = some d → next.isInside = true → inNumeral d = true →
        gap 1 = [] := by
      intro d hd hinside hnumeral
      have hc := (move_of_step hstep).inNumeral_of_isInside hinside
      rw [List.head?_eq_getElem?] at hd
      exact hspacing.unbroken 0 c d rfl hd hc hnumeral
    obtain ⟨final, hspread, hfinal⟩ := ih hnext hspacing.tail hsecond
    refine ⟨final, ?_, hfinal⟩
    rw [spread, List.append_cons, run_append hgap, hspread]

end Reading

/-- Spread out, a text is written for the same expression. -/
theorem layered_spread {e : Expr Decimal} (h : Grammar.Layered .text cs e)
    (hspacing : Spacing cs gap) : Grammar.Layered .text (spread gap cs) e := by
  obtain ⟨last, hrun, hresult⟩ := Reading.finish_eq_ok_iff.mp (read_eq_ok_iff.mpr h)
  have hspread := Reading.exists_run_spread hrun hresult hspacing fun _ _ hinside _ => by cases hinside
  exact read_eq_ok_iff.mp (Reading.finish_eq_ok_iff.mpr hspread)

/-- **`parse_respaced`** — a text that is parsed can be stripped of all its blanks, and blanks can be put in
at any of its places that does not lie within a numeral; it is parsed as the same expression. -/
theorem parse_respaced {text : String} {t : Expr Binary64} (h : parse text = .ok t) :
    parse (.ofList (withoutBlanks text.toList)) = .ok t ∧
      ∀ gap, Spacing text.toList gap → parse (.ofList (spread gap text.toList)) = .ok t := by
  obtain ⟨e, hlayered, hnests, hmap⟩ := parse_eq_ok_iff_layered.mp h
  have hbare := nestsWithin_withoutBlanks_iff.mpr hnests
  constructor
  · have hparse := parseDecimal_eq_ok_iff.mpr ⟨Grammar.layered_withoutBlanks hlayered, hbare⟩
    exact parse_ofList_eq_ok_iff.mpr ⟨e, hparse, hmap⟩
  · intro gap hspacing
    rw [← withoutBlanks_spread hspacing.blank, nestsWithin_withoutBlanks_iff] at hbare
    have hparse := parseDecimal_eq_ok_iff.mpr ⟨layered_spread hlayered hspacing, hbare⟩
    exact parse_ofList_eq_ok_iff.mpr ⟨e, hparse, hmap⟩

/-- A blank goes from in front of the minus sign, and others come behind it, behind the parenthesis and at
the end. -/
theorem parse_respaced_of_difference :
    ∃ t, parse "1 -2.5*(3)" = .ok t ∧ parse "1-2.5*(3)" = .ok t ∧
      parse "1 -\r\n2.5*(\t3) " = .ok t := by
  let e : Expr Decimal :=
    .binary .sub (.literal ⟨1, 0⟩) (.binary .mul (.literal ⟨25, 1⟩) (.literal ⟨3, 0⟩))
  have he : parseDecimal "1 -2.5*(3)".toList = .ok e := rfl
  have ht := parse_eq_ok_iff.mpr ⟨e, he, rfl⟩
  let gap (i : Nat) : List Char :=
    if i = 3 then ['\r', '\n'] else if i = 8 then ['\t'] else if i = 10 then [' '] else []
  have hspacing : Spacing "1 -2.5*(3)".toList gap := by
    constructor
    · intro i
      simp only [gap]
      split_ifs <;> simp [Blank, blanks]
    · intro i x y hx hy hxn hyn
      simp only [gap]
      split_ifs with hminus hopen hend
      · -- in front of the gap stands the minus sign
        obtain rfl : i = 2 := by omega
        cases hx
        cases hxn
      · obtain rfl : i = 7 := by omega
        cases hx
        cases hxn
      · obtain rfl : i = 9 := by omega
        cases hy
      · rfl
  obtain ⟨hbare, hspread⟩ := parse_respaced ht
  exact ⟨_, ht, hbare, hspread gap hspacing⟩

end Expr

end Reckoner
