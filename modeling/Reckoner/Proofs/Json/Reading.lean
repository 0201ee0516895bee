/-
# Reckoner.Proofs.Json.Reading — what the JSON reader accepts, and what it makes of it.

One character leads to the state that the rest of the text completes, and to no other
(`completes_cons_iff`). At the end of the text, a state that needs nothing more has its value at hand
(`completes_nil_iff`). So a run over the whole text finds a value just if the grammar has one for the
text, and it is that value (`read_eq_some_iff`). Two values are never written alike (`Text.unique`).

No induction over the grammar is needed: the induction is on the text.
-/
import Reckoner.Proofs.Json.Completion
import Mathlib.Tactic.SplitIfs

namespace Reckoner.Json

variable {frames : List Frame} {v w : Json} {c : Char} {cs ds : List Char}

/-! ## The first character of a value -/

/-- **`Starts frames c cs w`** — `cs` completes a value that starts with `c`, and the text behind it. -/
def Starts (frames : List Frame) (c : Char) (cs : List Char) (w : Json) : Prop :=
  ∃ ds v rest, Value (c :: ds) v ∧ cs = ds ++ rest ∧ Closes frames v rest w

theorem not_value_nil : ¬Value [] v := by
  intro h
  generalize hds : [] = ds at h
  cases h with
  | number hnum => exact not_number_nil (hds ▸ hnum)
  | _ => cases hds

theorem not_startsValue_nil : ¬StartsValue frames [] w := by
  rintro ⟨ds, v, rest, hv, h, -⟩
  obtain ⟨rfl, -⟩ := List.append_eq_nil_iff.mp h.symm
  exact not_value_nil hv

theorem startsValue_cons_iff : StartsValue frames (c :: cs) w ↔ Starts frames c cs w := by
  constructor
  · rintro ⟨ds, v, rest, hv, h, hrest⟩
    cases ds with
    | nil => exact absurd hv not_value_nil
    | cons d ds =>
      obtain ⟨rfl, rfl⟩ := List.cons.inj h
      exact ⟨ds, v, rest, hv, rfl, hrest⟩
  · rintro ⟨ds, v, rest, hv, rfl, hrest⟩
    exact ⟨c :: ds, v, rest, hv, rfl, hrest⟩

theorem starts_object_iff : Starts frames '{' cs w ↔ (Scan.firstName frames).Completes cs w := by
  rw [Scan.Completes, afterBlanks_or, startsName_iff]
  constructor
  · rintro ⟨ds, v, rest, hv, rfl, hrest⟩
    cases hv with
    | emptyObject hb => exact .inl ⟨_, _, hb, List.append_assoc .., rest, rfl, hrest⟩
    | object hms => exact .inr ⟨_, _, rest, hms, List.append_assoc .., hrest⟩
    | number hnum => exact absurd hnum.head (by decide)
  · rintro (⟨b, _, hb, rfl, rest, rfl, hrest⟩ | ⟨ds, ms, rest, hms, rfl, hrest⟩)
    · exact ⟨_, _, rest, .emptyObject hb, List.append_cons .., hrest⟩
    · exact ⟨_, _, rest, .object hms, List.append_cons .., hrest⟩

theorem starts_array_iff : Starts frames '[' cs w ↔ (Scan.firstItem frames).Completes cs w := by
  rw [Scan.Completes, afterBlanks_or, startsValue_item_iff]
  constructor
  · rintro ⟨ds, v, rest, hv, rfl, hrest⟩
    cases hv with
    | emptyArray hb => exact .inl ⟨_, _, hb, List.append_assoc .., rest, rfl, hrest⟩
    | array hvs => exact .inr ⟨_, _, rest, hvs, List.append_assoc .., hrest⟩
    | number hnum => exact absurd hnum.head (by decide)
  · rintro (⟨b, _, hb, rfl, rest, rfl, hrest⟩ | ⟨ds, vs, rest, hvs, rfl, hrest⟩)
    · exact ⟨_, _, rest, .emptyArray hb, List.append_cons .., hrest⟩
    · exact ⟨_, _, rest, .array hvs, List.append_cons .., hrest⟩

theorem starts_string_iff :
    Starts frames '"' cs w ↔ (Scan.string .value [] .plain frames).Completes cs w := by
  constructor
  · rintro ⟨ds, v, rest, hv, rfl, hrest⟩
    cases hv with
    | string hps => exact ⟨_, _, rest, hps, List.append_assoc .., hrest⟩
    | number hnum => exact absurd hnum.head (by decide)
  · rintro ⟨ds, ps, rest, hps, rfl, hrest⟩
    exact ⟨_, _, rest, .string hps, List.append_cons .., hrest⟩

/-- A word is the value of the text `c :: ds`, the one that starts with `c`. -/
theorem starts_word_iff (hds : ds ≠ []) (hword : ∀ es u, Value (c :: es) u ↔ es = ds ∧ u = v) :
    Starts frames c cs w ↔ (Scan.word v ds frames).Completes cs w := by
  constructor
  · rintro ⟨es, u, rest, hu, rfl, hrest⟩
    obtain ⟨rfl, rfl⟩ := (hword es u).mp hu
    exact ⟨fun h => hds (List.append_eq_nil_iff.mp h).1, rest, rfl, hrest⟩
  · rintro ⟨-, rest, rfl, hrest⟩
    exact ⟨ds, v, rest, (hword ds v).mpr ⟨rfl, rfl⟩, rfl, hrest⟩

theorem value_true_iff (u : Json) :
    Value ('t' :: ds) u ↔ ds = ['r', 'u', 'e'] ∧ u = .boolean true := by
  constructor
  · intro h
    cases h with
    | yes => exact ⟨rfl, rfl⟩
    | number hnum => exact absurd hnum.head (by decide)
  · rintro ⟨rfl, rfl⟩
    exact .yes

theorem value_false_iff (u : Json) :
    Value ('f' :: ds) u ↔ ds = ['a', 'l', 's', 'e'] ∧ u = .boolean false := by
  constructor
  · intro h
    cases h with
    | no => exact ⟨rfl, rfl⟩
    | number hnum => exact absurd hnum.head (by decide)
  · rintro ⟨rfl, rfl⟩
    exact .no

theorem value_null_iff (u : Json) : Value ('n' :: ds) u ↔ ds = ['u', 'l', 'l'] ∧ u = .null := by
  constructor
  · intro h
    cases h with
    | null => exact ⟨rfl, rfl⟩
    | number hnum => exact absurd hnum.head (by decide)
  · rintro ⟨rfl, rfl⟩
    exact .null

/-- With any other first character a value is a number. -/
theorem value_number_iff (hc : c ∉ ['{', '[', '"', 't', 'f', 'n']) :
    Value (c :: ds) v ↔ Number (c :: ds) ∧ v = .number (c :: ds) := by
  constructor
  · intro h
    cases h with
    | number hnum => exact ⟨hnum, rfl⟩
    | _ => exact absurd (by decide) hc
  · rintro ⟨hnum, rfl⟩
    exact .number hnum

theorem starts_minus_iff :
    Starts frames '-' cs w ↔ (Scan.number .sign ['-'] frames).Completes cs w := by
  constructor
  · rintro ⟨ds, v, rest, hv, rfl, hrest⟩
    obtain ⟨hnum, rfl⟩ := (value_number_iff (by decide)).mp hv
    rcases number_cons_iff.mp hnum with ⟨-, hds⟩ | ⟨h, -⟩
    · exact ⟨ds, rest, hds, rfl, hrest⟩
    · exact absurd rfl h
  · rintro ⟨ds, rest, hds, rfl, hrest⟩
    exact ⟨ds, _, rest, .number (number_cons_iff.mpr (.inl ⟨rfl, hds⟩)), rfl, hrest⟩

theorem starts_digit_iff (hc : c ∉ ['{', '[', '"', 't', 'f', 'n']) (hminus : c ≠ '-') :
    Starts frames c cs w ↔
      ∃ part, Part.sign.next? c = some part ∧ (Scan.number part [c] frames).Completes cs w := by
  constructor
  · rintro ⟨ds, v, rest, hv, rfl, hrest⟩
    obtain ⟨hnum, rfl⟩ := (value_number_iff hc).mp hv
    rcases number_cons_iff.mp hnum with ⟨h, -⟩ | ⟨-, hsign⟩
    · exact absurd h hminus
    · obtain ⟨part, hpart, hds⟩ := Part.rest_cons_iff.mp hsign
      exact ⟨part, hpart, ds, rest, hds, rfl, hrest⟩
  · rintro ⟨part, hpart, ds, rest, hds, rfl, hrest⟩
    have hsign := Part.rest_cons_iff.mpr ⟨part, hpart, hds⟩
    exact ⟨ds, _, rest, .number (number_cons_iff.mpr (.inr ⟨hminus, hsign⟩)), rfl, hrest⟩

/-- The first character of a value leads to the state that the rest completes. -/
theorem starts_iff :
    Starts frames c cs w ↔ ∃ next, Scan.startValue frames c = some next ∧ next.Completes cs w := by
  unfold Scan.startValue
  split_ifs with hobject harray hstring htrue hfalse hnull hminus
  · rw [exists_some_iff, hobject, starts_object_iff]
  · rw [exists_some_iff, harray, starts_array_iff]
  · rw [exists_some_iff, hstring, starts_string_iff]
  · rw [exists_some_iff, htrue, starts_word_iff (by decide) fun _ => value_true_iff]
  · rw [exists_some_iff, hfalse, starts_word_iff (by decide) fun _ => value_false_iff]
  · rw [exists_some_iff, hnull, starts_word_iff (by decide) fun _ => value_null_iff]
  · rw [exists_some_iff, hminus, starts_minus_iff]
  · have hc : c ∉ ['{', '[', '"', 't', 'f', 'n'] := by simp [*]
    rw [starts_digit_iff hc hminus, exists_map_iff]

theorem startsValue_iff :
    StartsValue frames (c :: cs) w ↔
      ∃ next, Scan.startValue frames c = some next ∧ next.Completes cs w :=
  startsValue_cons_iff.trans starts_iff

theorem inked_startsValue : Inked (StartsValue frames · w) := by
  intro c cs h
  obtain ⟨next, hnext, -⟩ := startsValue_iff.mp h
  cases hblank : isBlank c with
  | false => rfl
  | true =>
    rcases eq_of_isBlank hblank with rfl | rfl | rfl | rfl <;> cases hnext

/-! ## Names and colons -/

variable {members : List Member} {name : List Piece}

theorem not_startsName_nil : ¬StartsName members frames [] w := by
  rintro ⟨ns, name, rest, -, h, -⟩
  cases h

theorem startsName_cons_iff :
    StartsName members frames (c :: cs) w ↔
      c = '"' ∧ (Scan.string (.name members) [] .plain frames).Completes cs w := by
  constructor
  · rintro ⟨ns, name, rest, hname, h, hrest⟩
    obtain ⟨rfl, rfl⟩ := List.cons.inj h
    exact ⟨rfl, ns, name, rest, hname, rfl, hrest⟩
  · rintro ⟨rfl, ns, name, rest, hname, rfl, hrest⟩
    exact ⟨ns, name, rest, hname, rfl, hrest⟩

theorem exists_cons_eq_iff {d : Char} {Q : List Char → Prop} :
    (∃ rest, c :: cs = d :: rest ∧ Q rest) ↔ c = d ∧ Q cs := by
  constructor
  · rintro ⟨rest, h, hrest⟩
    obtain ⟨rfl, rfl⟩ := List.cons.inj h
    exact ⟨rfl, hrest⟩
  · rintro ⟨rfl, hrest⟩
    exact ⟨cs, rfl, hrest⟩

theorem startsColon_cons_iff :
    StartsColon members name frames (c :: cs) w ↔
      c = ':' ∧ (Scan.value (.member members name :: frames)).Completes cs w :=
  exists_cons_eq_iff

theorem inked_startsName : Inked (StartsName members frames · w) := by
  intro c cs h
  obtain ⟨rfl, -⟩ := startsName_cons_iff.mp h
  rfl

theorem inked_startsColon : Inked (StartsColon members name frames · w) := by
  intro c cs h
  obtain ⟨rfl, -⟩ := startsColon_cons_iff.mp h
  rfl

/-! ## After a value -/

/-- A state that skips blanks completes what is behind them. -/
theorem afterBlanks_step_iff {Q : List Char → Prop} {scan : Scan} {x : Option Scan} (hQ : Inked Q)
    (hscan : AfterBlanks Q cs ↔ scan.Completes cs w)
    (hx : isBlank c = false → (Q (c :: cs) ↔ ∃ next, x = some next ∧ next.Completes cs w)) :
    AfterBlanks Q (c :: cs) ↔
      ∃ next, (if isBlank c then some scan else x) = some next ∧ next.Completes cs w := by
  split_ifs with hc
  · rw [exists_some_iff, afterBlanks_of_blank hQ hc, hscan]
  · rw [Bool.not_eq_true] at hc
    rw [afterBlanks_of_not_blank hc, hx hc]

section

variable {α : Type} {P : List Char → α → Prop} {close : Char} {K : List α → List Char → Prop}

theorem tail_step_iff {more done : Scan} (hclose : close ≠ ',')
    (hmore : more.Completes cs w ↔
      ∃ ds xs rest, Separated P ds xs ∧ cs = ds ++ close :: rest ∧ K xs rest)
    (hdone : done.Completes cs w ↔ K [] cs) :
    (∃ xs rest, Tail P close (c :: cs) xs rest ∧ K xs rest) ↔
      ∃ next, (if c = ',' then some more else if c = close then some done else none) = some next ∧
        next.Completes cs w := by
  rw [exists_ite_iff, exists_ite_iff, hmore, hdone]
  constructor
  · rintro ⟨xs, rest, htail, hK⟩
    cases htail with
    | close => exact .inr ⟨hclose, .inl ⟨rfl, hK⟩⟩
    | more hxs => exact .inl ⟨rfl, _, xs, rest, hxs, rfl, hK⟩
  · rintro (⟨rfl, ds, xs, rest, hxs, rfl, hK⟩ | ⟨-, ⟨rfl, hK⟩ | ⟨-, next, hnext, -⟩⟩)
    · exact ⟨xs, rest, .more hxs, hK⟩
    · exact ⟨[], cs, .close, hK⟩
    · cases hnext

end

/-- The first character behind a value leads to the state that the rest completes. -/
theorem closes_cons_iff :
    Closes frames v (c :: cs) w ↔
      ∃ next, Scan.stepAfter v frames c = some next ∧ next.Completes cs w := by
  rcases frames with _ | ⟨⟨items⟩ | ⟨members, name⟩, frames⟩
  · refine afterBlanks_step_iff ?_ Iff.rfl fun _ => ?_
    · rintro _ _ ⟨h, -⟩
      cases h
    · simp only [reduceCtorEq, false_and, exists_false]
  · refine afterBlanks_step_iff ?_ Iff.rfl fun _ => tail_step_iff (by decide) ?_ ?_
    · rintro _ _ ⟨_, _, h, -⟩
      cases h <;> rfl
    · rw [Scan.Completes, startsValue_item_iff, List.reverse_cons]
      simp only [List.append_assoc, List.singleton_append]
    · rw [Scan.Completes, List.reverse_cons]
  · refine afterBlanks_step_iff ?_ Iff.rfl fun _ => tail_step_iff (by decide) ?_ ?_
    · rintro _ _ ⟨_, _, h, -⟩
      cases h <;> rfl
    · rw [Scan.Completes, startsName_iff, List.reverse_cons]
      simp only [List.append_assoc, List.singleton_append]
    · rw [Scan.Completes, List.reverse_cons]

theorem closes_nil_iff : Closes frames v [] w ↔ frames = [] ∧ v = w := by
  rcases frames with _ | ⟨⟨items⟩ | ⟨members, name⟩, frames⟩ <;> rw [Closes, afterBlanks_nil_iff]
  · rw [and_iff_right rfl, and_iff_right rfl]
  -- a frame is closed by a character
  all_goals
    refine iff_of_false ?_ (fun h => List.cons_ne_nil _ _ h.1)
    rintro ⟨_, _, h, -⟩
    cases h

theorem mem_of_closes (h : Closes frames v (c :: cs) w) :
    c ∈ [' ', '\t', '\r', '\n', ',', ']', '}'] := by
  cases hblank : isBlank c with
  | true =>
    rcases eq_of_isBlank hblank with rfl | rfl | rfl | rfl <;> decide
  | false =>
    rcases frames with _ | ⟨⟨items⟩ | ⟨members, name⟩, frames⟩ <;>
      rw [Closes, afterBlanks_of_not_blank hblank] at h
    · cases h.1
    · obtain ⟨_, _, htail, -⟩ := h
      cases htail <;> decide
    · obtain ⟨_, _, htail, -⟩ := h
      cases htail <;> decide

/-- A number ends where something stands that closes a value: no such character goes on with it. -/
theorem next?_eq_none_of_closes (part : Part) (h : Closes frames v (c :: cs) w) :
    part.next? c = none := by
  have hc := mem_of_closes h
  simp only [List.mem_cons, List.not_mem_nil, or_false] at hc
  rcases hc with rfl | rfl | rfl | rfl | rfl | rfl | rfl <;> cases part <;> rfl

/-! ## In a string -/

section

variable {role : Role} {piece : Piece} {pieces ps : List Piece} {spot : Spot}

/-- The string ends, or a character of it is next. -/
theorem completes_string_cons_iff :
    (Scan.string role pieces spot frames).Completes (c :: cs) w ↔
      (c = '"' ∧ ∃ ps, spot.Rest [] ps ∧ role.Follows (pieces.reverse ++ ps) frames cs w) ∨
        ∃ ds ps rest, spot.Rest (c :: ds) ps ∧ cs = ds ++ '"' :: rest ∧
          role.Follows (pieces.reverse ++ ps) frames rest w := by
  constructor
  · rintro ⟨ds, ps, rest, hps, h, hrest⟩
    cases ds with
    | nil =>
      obtain ⟨rfl, rfl⟩ := List.cons.inj h
      exact .inl ⟨rfl, ps, hps, hrest⟩
    | cons d ds =>
      obtain ⟨rfl, rfl⟩ := List.cons.inj h
      exact .inr ⟨ds, ps, rest, hps, rfl, hrest⟩
  · rintro (⟨rfl, ps, hps, hrest⟩ | ⟨ds, ps, rest, hps, rfl, hrest⟩)
    · exact ⟨[], ps, cs, hps, rfl, hrest⟩
    · exact ⟨c :: ds, ps, rest, hps, rfl, hrest⟩

/-- A piece has been read. -/
theorem completes_piece_iff :
    (Scan.string role (piece :: pieces) .plain frames).Completes cs w ↔
      ∃ ds ps rest, Leads piece ds ps ∧ cs = ds ++ '"' :: rest ∧
        role.Follows (pieces.reverse ++ ps) frames rest w := by
  constructor
  · rintro ⟨ds, ps, rest, hps, rfl, hrest⟩
    rw [List.reverse_cons, ← List.append_cons] at hrest
    exact ⟨ds, piece :: ps, rest, ⟨ps, hps, rfl⟩, rfl, hrest⟩
  · rintro ⟨ds, _, rest, ⟨ps, hps, rfl⟩, rfl, hrest⟩
    rw [List.append_cons, ← List.reverse_cons] at hrest
    exact ⟨ds, ps, rest, hps, rfl, hrest⟩

/-- What the character stands for is settled before the rest of the string. -/
theorem exists_meaning_iff {α : Type} {x : Option α} {P : α → List Char → List Piece → Prop}
    {R : List Char → List Piece → List Char → Prop} :
    (∃ ds ps rest, (∃ d, x = some d ∧ P d ds ps) ∧ R ds ps rest) ↔
      ∃ d, x = some d ∧ ∃ ds ps rest, P d ds ps ∧ R ds ps rest := by
  constructor
  · rintro ⟨ds, ps, rest, ⟨d, hd, hps⟩, hrest⟩
    exact ⟨d, hd, ds, ps, rest, hps, hrest⟩
  · rintro ⟨d, hd, ds, ps, rest, hps, hrest⟩
    exact ⟨ds, ps, rest, ⟨d, hd, hps⟩, hrest⟩

theorem stepString_plain_iff :
    (Scan.string role pieces .plain frames).Completes (c :: cs) w ↔
      ∃ next, Scan.stepString role pieces .plain frames c = some next ∧ next.Completes cs w := by
  rw [completes_string_cons_iff]
  by_cases hquote : c = '"'
  · subst hquote
    simp only [Spot.rest_plain_nil_iff, Spot.not_rest_plain_quote, exists_eq_left, List.append_nil,
      true_and, false_and, exists_false, or_false]
    cases role with
    | value => exact (exists_some_iff (a := Scan.after (.string pieces.reverse) frames)
        (Q := (·.Completes cs w))).symm
    | name members => exact (exists_some_iff (a := Scan.colon members pieces.reverse frames)
        (Q := (·.Completes cs w))).symm
  · simp only [hquote, false_and, false_or, Scan.stepString, if_false]
    by_cases hslash : c = '\\'
    · subst hslash
      rw [if_pos rfl, exists_some_iff]
      rfl
    · simp only [hslash, if_false, Spot.rest_plain_cons_iff hquote hslash]
      split_ifs with hcontrol
      · simp only [Nat.not_le_of_lt hcontrol, false_and, exists_false]
      · rw [exists_some_iff, completes_piece_iff]
        simp only [Nat.le_of_not_lt hcontrol, true_and]

theorem stepString_escape_iff :
    (Scan.string role pieces .escape frames).Completes (c :: cs) w ↔
      ∃ next, Scan.stepString role pieces .escape frames c = some next ∧ next.Completes cs w := by
  rw [completes_string_cons_iff]
  simp only [Spot.not_rest_escape_nil, false_and, exists_false, and_false, false_or, Scan.stepString]
  by_cases hunit : c = 'u'
  · subst hunit
    simp only [if_true, Spot.rest_escape_unit_iff]
    rw [exists_some_iff]
    rfl
  · simp only [hunit, if_false, Spot.rest_escape_cons_iff hunit]
    rw [exists_map_iff, exists_meaning_iff]
    simp only [completes_piece_iff]

theorem stepString_digits_iff {count code : Nat} :
    (Scan.string role pieces (.digits count code) frames).Completes (c :: cs) w ↔
      ∃ next, Scan.stepString role pieces (.digits count code) frames c = some next ∧
        next.Completes cs w := by
  rw [completes_string_cons_iff]
  simp only [Spot.not_rest_digits_nil, false_and, exists_false, and_false, false_or, Scan.stepString]
  rw [exists_map_iff]
  by_cases hcount : count = 3
  · subst hcount
    simp only [Spot.rest_digits_last_iff, if_true, completes_piece_iff]
    exact exists_meaning_iff
  · simp only [Spot.rest_digits_cons_iff hcount, hcount, if_false]
    exact exists_meaning_iff

theorem completes_string_iff :
    (Scan.string role pieces spot frames).Completes (c :: cs) w ↔
      ∃ next, (Scan.string role pieces spot frames).step c = some next ∧ next.Completes cs w := by
  cases spot with
  | plain => exact stepString_plain_iff
  | escape => exact stepString_escape_iff
  | digits count code => exact stepString_digits_iff

end

/-! ## One character -/

variable {scan : Scan}

theorem completes_number_iff {part : Part} {spelling : List Char} :
    (Scan.number part spelling frames).Completes (c :: cs) w ↔
      ∃ next, (Scan.number part spelling frames).step c = some next ∧ next.Completes cs w := by
  constructor
  · rintro ⟨ds, rest, hds, h, hrest⟩
    cases ds with
    | nil =>
      obtain rfl : c :: cs = rest := h
      rw [List.append_nil] at hrest
      simp only [Scan.step, next?_eq_none_of_closes part hrest, Part.rest_nil_iff.mp hds, if_true]
      exact closes_cons_iff.mp hrest
    | cons d ds =>
      obtain ⟨rfl, rfl⟩ := List.cons.inj h
      obtain ⟨part', hpart, hds⟩ := Part.rest_cons_iff.mp hds
      simp only [Scan.step, hpart]
      rw [exists_some_iff]
      rw [List.append_cons, ← List.reverse_cons] at hrest
      exact ⟨ds, rest, hds, rfl, hrest⟩
  · rintro ⟨next, hnext, hrest⟩
    rw [Scan.step] at hnext
    split at hnext
    · rename_i part' hpart
      obtain rfl := Option.some.inj hnext
      obtain ⟨ds, rest, hds, rfl, hrest⟩ := hrest
      rw [List.reverse_cons, ← List.append_cons] at hrest
      exact ⟨c :: ds, rest, Part.rest_cons_iff.mpr ⟨part', hpart, hds⟩, rfl, hrest⟩
    · split_ifs at hnext with hcomplete
      refine ⟨[], c :: cs, Part.rest_nil_iff.mpr hcomplete, rfl, ?_⟩
      rw [List.append_nil]
      exact closes_cons_iff.mpr ⟨next, hnext, hrest⟩

theorem completes_word_iff :
    (Scan.word v ds frames).Completes (c :: cs) w ↔
      ∃ next, (Scan.word v ds frames).step c = some next ∧ next.Completes cs w := by
  cases ds with
  | nil =>
    refine Iff.trans ?_ closes_cons_iff
    constructor
    · rintro ⟨-, rest, rfl, hrest⟩
      exact hrest
    · intro hrest
      exact ⟨List.cons_ne_nil c cs, c :: cs, rfl, hrest⟩
  | cons d ds =>
    rw [Scan.step, exists_ite_iff]
    cases ds with
    | nil =>
      constructor
      · rintro ⟨-, rest, h, hrest⟩
        obtain ⟨rfl, rfl⟩ := List.cons.inj h
        exact .inl ⟨rfl, hrest⟩
      · rintro (⟨rfl, hrest⟩ | ⟨-, _, h, -⟩)
        · exact ⟨List.cons_ne_nil c cs, cs, rfl, hrest⟩
        · cases h
    | cons e es =>
      constructor
      · rintro ⟨-, rest, h, hrest⟩
        obtain ⟨rfl, rfl⟩ := List.cons.inj h
        exact .inl ⟨rfl, List.cons_ne_nil _ _, rest, rfl, hrest⟩
      · rintro (⟨rfl, -, rest, rfl, hrest⟩ | ⟨-, _, h, -⟩)
        · exact ⟨List.cons_ne_nil _ _, rest, rfl, hrest⟩
        · cases h

/-- One character leads to the state that the rest completes. -/
theorem completes_cons_iff :
    scan.Completes (c :: cs) w ↔ ∃ next, scan.step c = some next ∧ next.Completes cs w := by
  cases scan with
  | value frames => exact afterBlanks_step_iff inked_startsValue Iff.rfl fun _ => startsValue_iff
  | firstItem frames =>
    refine afterBlanks_step_iff ?_ Iff.rfl fun _ => ?_
    · rintro d ds (h | h)
      · obtain ⟨rfl, -⟩ := exists_cons_eq_iff.mp h
        rfl
      · exact inked_startsValue d ds h
    · rw [startsValue_iff, exists_cons_eq_iff, exists_ite_iff]
      by_cases hclose : c = ']'
      · subst hclose
        -- No value starts with the closing bracket.
        have hnone : Scan.startValue (.item [] :: frames) ']' = none := rfl
        simp only [hnone, reduceCtorEq, false_and, exists_false, or_false, not_true]
        rfl
      · simp only [hclose, false_and, false_or, not_false_eq_true, true_and]
  | firstName frames =>
    refine afterBlanks_step_iff ?_ Iff.rfl fun _ => ?_
    · rintro d ds (h | h)
      · obtain ⟨rfl, -⟩ := exists_cons_eq_iff.mp h
        rfl
      · exact inked_startsName d ds h
    · rw [startsName_cons_iff, exists_cons_eq_iff, exists_ite_iff, exists_ite_iff]
      by_cases hclose : c = '}'
      · subst hclose
        simp only [reduceCtorEq, Char.reduceEq, false_and, exists_false, or_false, not_true]
        rfl
      · simp only [hclose, reduceCtorEq, false_and, exists_false, and_false, or_false, false_or,
          not_false_eq_true, true_and]
  | nextName members frames =>
    refine afterBlanks_step_iff inked_startsName Iff.rfl fun _ => ?_
    rw [startsName_cons_iff, exists_ite_iff]
    simp only [reduceCtorEq, false_and, exists_false, and_false, or_false]
  | colon members name frames =>
    refine afterBlanks_step_iff inked_startsColon Iff.rfl fun _ => ?_
    rw [startsColon_cons_iff, exists_ite_iff]
    simp only [reduceCtorEq, false_and, exists_false, and_false, or_false]
  | string role pieces spot frames => exact completes_string_iff
  | number part spelling frames => exact completes_number_iff
  | word v ds frames => exact completes_word_iff
  | after v frames => exact closes_cons_iff

/-- Where the text ends, the state has the value of it. -/
theorem completes_nil_iff : scan.Completes [] w ↔ scan.result? = some w := by
  have hnone : ∀ {p : Prop}, ¬p → (p ↔ none = some w) := fun hp => iff_of_false hp (by simp)
  cases scan with
  | value frames => exact afterBlanks_nil_iff.trans (hnone not_startsValue_nil)
  | firstItem frames =>
    refine afterBlanks_nil_iff.trans (hnone ?_)
    rintro (⟨rest, h, -⟩ | h)
    · cases h
    · exact not_startsValue_nil h
  | firstName frames =>
    refine afterBlanks_nil_iff.trans (hnone ?_)
    rintro (⟨rest, h, -⟩ | h)
    · cases h
    · exact not_startsName_nil h
  | nextName members frames => exact afterBlanks_nil_iff.trans (hnone not_startsName_nil)
  | colon members name frames =>
    refine afterBlanks_nil_iff.trans (hnone ?_)
    rintro ⟨rest, h, -⟩
    cases h
  | string role pieces spot frames =>
    refine hnone ?_
    rintro ⟨ds, ps, rest, -, h, -⟩
    cases (List.append_eq_nil_iff.mp h.symm).2
  | number part spelling frames =>
    constructor
    · rintro ⟨ds, rest, hds, h, hrest⟩
      obtain ⟨rfl, rfl⟩ := List.append_eq_nil_iff.mp h.symm
      obtain ⟨rfl, rfl⟩ := closes_nil_iff.mp hrest
      rw [List.append_nil]
      exact if_pos (Part.rest_nil_iff.mp hds)
    · intro h
      cases frames with
      | nil =>
        rw [Scan.result?] at h
        split_ifs at h with hcomplete
        refine ⟨[], [], Part.rest_nil_iff.mpr hcomplete, rfl, closes_nil_iff.mpr ⟨rfl, ?_⟩⟩
        rw [List.append_nil]
        exact Option.some.inj h
      | cons frame frames => cases h
  | word v ds frames => exact hnone fun h => h.1 rfl
  | after v frames =>
    rw [Scan.Completes, closes_nil_iff]
    cases frames with
    | nil => simp only [Scan.result?, true_and, Option.some.injEq]
    | cons frame frames => exact hnone fun h => List.cons_ne_nil _ _ h.1

/-- A run finds the value that the characters complete what has been read to. -/
theorem run_result_iff (scan : Scan) (cs : List Char) :
    (scan.run cs).bind Scan.result? = some w ↔ scan.Completes cs w := by
  induction cs generalizing scan with
  | nil => exact completes_nil_iff.symm
  | cons c cs ih =>
    rw [Scan.run, completes_cons_iff, Option.bind_assoc, Option.bind_eq_some_iff]
    exact exists_congr fun next => and_congr_right' (ih next)

/-- **The reader reads JSON.** It finds a value for a text just if the grammar has one for it, and it is
that value. -/
theorem read_eq_some_iff : read cs = some v ↔ Text cs v := by
  rw [read, run_result_iff, trails_text cs v]
  refine exists_led_iff.symm.trans ⟨?_, ?_⟩
  · rintro ⟨ds, u, _, hu, rfl, b, rest, hb, rfl, rfl, rfl⟩
    rw [List.append_nil]
    exact ⟨ds, b, hu, hb, rfl⟩
  · rintro ⟨ds, b, hv, hb, rfl⟩
    exact ⟨ds, v, b, hv, rfl, b, [], hb, (List.append_nil b).symm, rfl, rfl⟩

/-- A text is written for one value only. -/
theorem Text.unique (hv : Text cs v) (hw : Text cs w) : v = w :=
  Option.some.inj ((read_eq_some_iff.mpr hv).symm.trans (read_eq_some_iff.mpr hw))

end Reckoner.Json
