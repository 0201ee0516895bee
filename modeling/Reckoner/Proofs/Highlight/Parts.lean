/-
# Reckoner.Proofs.Highlight.Parts — a highlighted expression and its three parts.

A highlight is found by one of three searches, and the wording of the failure only says which of them are
made: a search that finds nothing leaves the turn to the next, also where the wording names the subject
of several. What a search finds is counted in bytes. Whichever finds something, neither end is inside a
character (`exists_split?_of_span?`), and the three parts put together are the expression
(`locate_reassembles`).

For `÷0` and `()` the place is the first one that there is, where a `÷0` that a point follows does not
count. For `(` it is the last one that is never closed. There is no highlight just if every search that
the wording asks for finds nothing (`locate_eq_none_iff`).
-/
import Reckoner.Proofs.Highlight.Unclosed
import Reckoner.Proofs.Highlight.ZeroDivisor

namespace Reckoner

variable {cs front back : List Char} {i : Nat}

/-! ## Parts of a text -/

theorem eq_append_iff {s t u v : String} :
    s = t ++ u ++ v ↔ s.toList = t.toList ++ u.toList ++ v.toList := by
  rw [← String.toList_inj, String.toList_append, String.toList_append]

theorem byteLength_toList (s : String) : byteLength s.toList = s.utf8ByteSize := by
  rw [byteLength_eq_utf8ByteSize, String.ofList_toList]

/-- A position in front of which a text stands is at the offset of its bytes. -/
theorem byteIdx_of_splits {s t u : String} {p : s.Pos} (h : p.Splits t u) :
    p.offset.byteIdx = byteLength t.toList := by
  rw [h.offset_eq_rawEndPos, String.byteIdx_rawEndPos, byteLength_toList]

/-- Where two positions are at the offsets of the ends of a part, the text is cut there. -/
theorem exists_splits {s t u v : String} (h : s = t ++ u ++ v) :
    ∃ start stop : s.Pos, start.Splits t (u ++ v) ∧ stop.Splits (t ++ u) v ∧
      start.offset.byteIdx = byteLength t.toList ∧
      stop.offset.byteIdx = byteLength t.toList + byteLength u.toList := by
  have hstart : s = t ++ (u ++ v) := by rw [h, String.append_assoc]
  have hfirst := String.Pos.splits_ofEqAppend hstart
  have hsecond := String.Pos.splits_ofEqAppend h
  refine ⟨_, _, hfirst, hsecond, byteIdx_of_splits hfirst, ?_⟩
  rw [byteIdx_of_splits hsecond, String.toList_append, byteLength_append]

namespace Highlight

variable {expression message : String} {highlight : Highlight}

/-! ## What each search finds -/

/-- A text that is split is its three parts, cut at the two ends of the span. -/
theorem eq_append_of_split? {span : Span} (h : split? cs span = some highlight) :
    cs = highlight.before.toList ++ highlight.focus.toList ++ highlight.after.toList ∧
      byteLength highlight.before.toList = span.start ∧
      byteLength highlight.focus.toList = span.length := by
  obtain ⟨⟨before, rest⟩, hstart, h⟩ := Option.bind_eq_some_iff.mp h
  obtain ⟨⟨focus, after⟩, hstop, rfl⟩ := Option.map_eq_some_iff.mp h
  obtain ⟨rfl, hbefore⟩ := eq_append_of_cutAt? hstart
  obtain ⟨rfl, hfocus⟩ := eq_append_of_cutAt? hstop
  simp only [String.toList_ofList, List.append_assoc]
  exact ⟨trivial, hbefore, hfocus⟩

theorem focus_of_unclosed? (h : (unclosed? cs).bind (split? cs) = some highlight) :
    highlight.focus = "(" := by
  obtain ⟨span, hspan, hsplit⟩ := Option.bind_eq_some_iff.mp h
  obtain ⟨i, -, hparts⟩ := exists_leftOpen_of_unclosed? hspan
  obtain rfl := Option.some.inj (hparts.symm.trans hsplit)
  rfl

/-- A point stands behind each `÷0` that has been passed over. -/
theorem head?_of_zeroDivisor? (h : (zeroDivisor? cs).bind (split? cs) = some highlight)
    (hcs : cs = front ++ ['÷', '0'] ++ back) (hlt : front.length < highlight.before.length) :
    back.head? = some '.' := by
  obtain ⟨-, -, -, hpassed⟩ := of_firstSpan? h
  exact bne_eq_false_iff_eq.mp (hpassed front back hcs hlt)

theorem focus_of_emptyGroup? (h : (emptyGroup? cs).bind (split? cs) = some highlight) :
    highlight.focus = "()" := (of_firstSpan? h).1

/-- No `()` has been passed over. -/
theorem length_le_of_emptyGroup? (h : (emptyGroup? cs).bind (split? cs) = some highlight)
    (hcs : cs = front ++ ['(', ')'] ++ back) : highlight.before.length ≤ front.length := by
  obtain ⟨-, -, -, hpassed⟩ := of_firstSpan? h
  by_contra hlt
  exact Bool.false_ne_true (hpassed front back hcs (Nat.not_le.mp hlt)).symm

theorem zeroDivisor?_eq_none_iff :
    zeroDivisor? cs = none ↔
      ∀ front back, cs = front ++ ['÷', '0'] ++ back → back.head? = some '.' := by
  rw [zeroDivisor?, firstSpan?, Option.map_eq_none_iff, cutFirst_eq_none_iff]
  simp only [bne_eq_false_iff_eq]

theorem emptyGroup?_eq_none_iff : emptyGroup? cs = none ↔ ¬ ['(', ')'] <:+: cs := by
  rw [emptyGroup?, firstSpan?, Option.map_eq_none_iff, ← Option.not_isSome_iff_eq_none,
    ← occursIn_iff, occursIn]

/-! ## The searches one after the other -/

theorem span?_cases {span : Span} (h : span? expression message = some span) :
    unclosed? expression.toList = some span ∨ zeroDivisor? expression.toList = some span ∨
      emptyGroup? expression.toList = some span := by
  simp only [span?, Option.orElse_eq_some, Option.ite_none_right_eq_some] at h
  rcases h with ⟨-, h⟩ | ⟨-, ⟨-, h⟩ | ⟨-, -, h⟩⟩
  · exact .inl h
  · exact .inr (.inl h)
  · exact .inr (.inr h)

theorem exists_split?_of_firstSpan? {pattern : List Char} {admissible : List Char → Bool} {span : Span}
    (h : firstSpan? pattern admissible cs = some span) : ∃ highlight, split? cs span = some highlight := by
  obtain ⟨⟨before, after⟩, hcut, rfl⟩ := Option.map_eq_some_iff.mp h
  exact ⟨_, split?_of_cutFirst hcut⟩

/-- Neither end of what a search finds is inside a character. -/
theorem exists_split?_of_span? {span : Span} (h : span? expression message = some span) :
    ∃ highlight, split? expression.toList span = some highlight := by
  rcases span?_cases h with hopen | hzero | hgroup
  · obtain ⟨i, -, hparts⟩ := exists_leftOpen_of_unclosed? hopen
    exact ⟨_, hparts⟩
  · exact exists_split?_of_firstSpan? hzero
  · exact exists_split?_of_firstSpan? hgroup

theorem locate_eq_none_iff_span? :
    locate expression message = none ↔ span? expression message = none := by
  rw [locate, Option.bind_eq_none_iff]
  constructor
  · intro h
    cases hspan : span? expression message with
    | none => rfl
    | some span =>
      obtain ⟨highlight, hsplit⟩ := exists_split?_of_span? hspan
      rw [h span hspan] at hsplit
      cases hsplit
  · intro h span hspan
    rw [h] at hspan
    cases hspan

theorem locate_cases (h : locate expression message = some highlight) :
    (unclosed? expression.toList).bind (split? expression.toList) = some highlight ∨
      (zeroDivisor? expression.toList).bind (split? expression.toList) = some highlight ∨
      (emptyGroup? expression.toList).bind (split? expression.toList) = some highlight := by
  obtain ⟨span, hspan, hsplit⟩ := Option.bind_eq_some_iff.mp h
  simp only [Option.bind_eq_some_iff]
  exact (span?_cases hspan).imp (⟨span, ·, hsplit⟩) (Or.imp (⟨span, ·, hsplit⟩) (⟨span, ·, hsplit⟩))

/-- There is no highlight just if none of the searches that the wording asks for finds anything. -/
theorem locate_eq_none_iff :
    locate expression message = none ↔
      ("Unbalanced parentheses".toList <:+: message.toList →
        expression.toList.count '(' ≤ expression.toList.count ')') ∧
      ("Division by zero".toList <:+: message.toList → ∀ front back,
        expression.toList = front ++ ['÷', '0'] ++ back → back.head? = some '.') ∧
      ("Invalid expression".toList <:+: message.toList →
        ¬ ['(', ')'] <:+: expression.toList) := by
  rw [locate_eq_none_iff_span?]
  simp only [span?, Option.orElse_eq_none, ite_eq_right_iff, occursIn_iff, unclosed?_eq_none_iff,
    zeroDivisor?_eq_none_iff, emptyGroup?_eq_none_iff]

/-- The parts of a highlight are the expression, whichever search has found it. -/
theorem eq_append_of_locate (h : locate expression message = some highlight) :
    expression = highlight.before ++ highlight.focus ++ highlight.after := by
  obtain ⟨span, -, hsplit⟩ := Option.bind_eq_some_iff.mp h
  exact eq_append_iff.mpr (eq_append_of_split? hsplit).1

/-- Both ends of the span that has been found are positions of the expression, which is cut there. -/
theorem exists_positions_of_locate (h : locate expression message = some highlight) :
    ∃ (span : Span) (start stop : expression.Pos), span? expression message = some span ∧
      start.offset.byteIdx = span.start ∧ stop.offset.byteIdx = span.start + span.length ∧
      start.Splits highlight.before (highlight.focus ++ highlight.after) ∧
      stop.Splits (highlight.before ++ highlight.focus) highlight.after := by
  obtain ⟨span, hspan, hsplit⟩ := Option.bind_eq_some_iff.mp h
  obtain ⟨hparts, hstart, hlength⟩ := eq_append_of_split? hsplit
  obtain ⟨start, stop, hfirst, hsecond, hoffset, hend⟩ := exists_splits (eq_append_iff.mpr hparts)
  rw [hstart] at hoffset
  rw [hstart, hlength] at hend
  exact ⟨span, start, stop, hspan, hoffset, hend, hfirst, hsecond⟩

/-- **`locate_reassembles`** — the parts of a highlight put together are the expression, which is cut at
two of its positions; they are at the ends of the span that the search has found. What is highlighted is `(`, `÷0` or `()`. No `()` begins before one that is
highlighted. No point follows a `÷0` that is highlighted, and one follows each `÷0` that begins before it.
There is no highlight just if none of the searches that the wording asks for finds anything. -/
theorem locate_reassembles (expression message : String) :
    (∀ highlight, locate expression message = some highlight →
      highlight.before ++ highlight.focus ++ highlight.after = expression ∧
      (∃ (span : Span) (start stop : expression.Pos), span? expression message = some span ∧
        start.offset.byteIdx = span.start ∧ stop.offset.byteIdx = span.start + span.length ∧
        start.Splits highlight.before (highlight.focus ++ highlight.after) ∧
        stop.Splits (highlight.before ++ highlight.focus) highlight.after) ∧
      (highlight.focus = "(" ∨ highlight.focus = "÷0" ∨ highlight.focus = "()") ∧
      (highlight.focus = "()" → ∀ front back : String, expression = front ++ "()" ++ back →
        highlight.before.length ≤ front.length) ∧
      (highlight.focus = "÷0" → highlight.after.toList.head? ≠ some '.' ∧
        ∀ front back : String, expression = front ++ "÷0" ++ back →
          front.length < highlight.before.length → back.toList.head? = some '.')) ∧
    (locate expression message = none ↔
      ("Unbalanced parentheses".toList <:+: message.toList →
        expression.toList.count '(' ≤ expression.toList.count ')') ∧
      ("Division by zero".toList <:+: message.toList → ∀ front back,
        expression.toList = front ++ ['÷', '0'] ++ back → back.head? = some '.') ∧
      ("Invalid expression".toList <:+: message.toList →
        ¬ ['(', ')'] <:+: expression.toList)) := by
  refine ⟨fun highlight h => ?_, locate_eq_none_iff⟩
  have happend := eq_append_of_locate h
  refine ⟨happend.symm, exists_positions_of_locate h, ?_⟩
  rcases locate_cases h with hopen | hzero | hgroup
  · rw [focus_of_unclosed? hopen]
    exact ⟨.inl rfl, fun h => absurd h (by decide), fun h => absurd h (by decide)⟩
  · obtain ⟨hfocus, -, hpoint⟩ := of_zeroDivisor? hzero
    rw [hfocus]
    refine ⟨.inr (.inl rfl), fun h => absurd h (by decide), fun _ => ⟨hpoint, ?_⟩⟩
    intro front back hparts hlt
    rw [← String.length_toList] at hlt
    exact head?_of_zeroDivisor? hzero (eq_append_iff.mp hparts) hlt
  · rw [focus_of_emptyGroup? hgroup]
    refine ⟨.inr (.inr rfl), fun _ => ?_, fun h => absurd h (by decide)⟩
    intro front back hparts
    rw [← String.length_toList (s := front)]
    exact length_le_of_emptyGroup? hgroup (eq_append_iff.mp hparts)

/-- In `(÷0.5)×()÷0` no parenthesis is left open, so a wording that speaks of both highlights the second
`÷0`. In `1÷0.5+()×()` that search finds nothing either, and the first `()` is highlighted. -/
theorem locate_reassembles_of_two_subjects :
    (∃ highlight, locate "(÷0.5)×()÷0" "Unbalanced parentheses, Division by zero" = some highlight ∧
      highlight.before ++ highlight.focus ++ highlight.after = "(÷0.5)×()÷0" ∧
      highlight.focus = "÷0" ∧ highlight.after.toList.head? ≠ some '.') ∧
    ∃ highlight, locate "1÷0.5+()×()" "Division by zero, Invalid expression" = some highlight ∧
      highlight.before ++ highlight.focus ++ highlight.after = "1÷0.5+()×()" ∧
      highlight.focus = "()" ∧ highlight.before.length ≤ "1÷0.5+()×".length := by
  have hzero : locate "(÷0.5)×()÷0" "Unbalanced parentheses, Division by zero" =
      some ⟨"(÷0.5)×()", "÷0", ""⟩ := by decide +kernel
  have hgroup : locate "1÷0.5+()×()" "Division by zero, Invalid expression" =
      some ⟨"1÷0.5+", "()", "×()"⟩ := by decide +kernel
  obtain ⟨happend, -, -, -, hpoint⟩ := (locate_reassembles _ _).1 _ hzero
  obtain ⟨happend', -, -, hfirst, -⟩ := (locate_reassembles _ _).1 _ hgroup
  exact ⟨⟨_, hzero, happend, rfl, (hpoint rfl).1⟩,
    ⟨_, hgroup, happend', rfl, hfirst rfl "1÷0.5+()×" "" (by decide)⟩⟩

end Highlight

end Reckoner
