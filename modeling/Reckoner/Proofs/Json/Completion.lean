/-
# Reckoner.Proofs.Json.Completion — what completes a JSON text that has been read in part.

`scan.Completes cs w` says, in terms of the grammar, that the characters `cs` complete what the reader
has read so far to a text of the value `w`: the value in hand is read to its end, and then each of the
frames around it, the innermost first. What is open at some point of the text is all on the stack, so
`Closes` recurses on the stack and on nothing else.

The grammar has blanks on both sides of an element; the reader meets the blanks in front of it in one
state and those behind it in the next. `Trails` says that the two ways of cutting a sequence agree.
-/
import Reckoner.Proofs.Json.Contents
import Reckoner.Proofs.Json.Number

namespace Reckoner.Json

/-! ## Behind blanks -/

/-- **`AfterBlanks Q cs`** — blanks, and a rest with the property `Q`. -/
def AfterBlanks (Q : List Char → Prop) (cs : List Char) : Prop :=
  ∃ b rest, Blank b ∧ cs = b ++ rest ∧ Q rest

/-- **`Inked Q`** — what has the property does not start with a blank. -/
def Inked (Q : List Char → Prop) : Prop := ∀ c cs, Q (c :: cs) → isBlank c = false

section

variable {Q R : List Char → Prop} {c : Char} {cs : List Char}

theorem afterBlanks_nil_iff : AfterBlanks Q [] ↔ Q [] := by
  constructor
  · rintro ⟨b, rest, -, h, hQ⟩
    obtain ⟨rfl, rfl⟩ := List.append_eq_nil_iff.mp h.symm
    exact hQ
  · intro hQ
    exact ⟨[], [], blank_nil, rfl, hQ⟩

theorem afterBlanks_of_blank (hQ : Inked Q) (hc : isBlank c = true) :
    AfterBlanks Q (c :: cs) ↔ AfterBlanks Q cs := by
  constructor
  · rintro ⟨b, rest, hb, h, hrest⟩
    cases b with
    | nil =>
      obtain rfl : c :: cs = rest := h
      rw [hQ c cs hrest] at hc
      cases hc
    | cons d b =>
      obtain ⟨rfl, rfl⟩ := List.cons.inj h
      exact ⟨b, rest, (blank_cons.mp hb).2, rfl, hrest⟩
  · rintro ⟨b, rest, hb, rfl, hrest⟩
    exact ⟨c :: b, rest, blank_cons.mpr ⟨hc, hb⟩, rfl, hrest⟩

theorem afterBlanks_of_not_blank (hc : isBlank c = false) : AfterBlanks Q (c :: cs) ↔ Q (c :: cs) := by
  constructor
  · rintro ⟨b, rest, hb, h, hrest⟩
    cases b with
    | nil =>
      obtain rfl : c :: cs = rest := h
      exact hrest
    | cons d b =>
      obtain ⟨rfl, rfl⟩ := List.cons.inj h
      rw [(blank_cons.mp hb).1] at hc
      cases hc
  · intro hQ
    exact ⟨[], c :: cs, blank_nil, rfl, hQ⟩

theorem afterBlanks_or :
    AfterBlanks (fun cs => Q cs ∨ R cs) cs ↔ AfterBlanks Q cs ∨ AfterBlanks R cs := by
  simp only [AfterBlanks, and_or_left, exists_or]

end

/-! ## The rest of a sequence -/

section

variable {α : Type} {P Q : List Char → α → Prop} {close : Char} {cs : List Char}

/-- **`Tail P close cs xs rest`** — behind an element of a sequence, `cs` closes the sequence or goes on
with the elements `xs`, and `rest` stands behind it. -/
inductive Tail (P : List Char → α → Prop) (close : Char) : List Char → List α → List Char → Prop
  | close {rest : List Char} : Tail P close (close :: rest) [] rest
  | more {ds rest : List Char} {xs : List α} : Separated P ds xs →
      Tail P close (',' :: (ds ++ close :: rest)) xs rest

/-- **`Trails P Q`** — `P` is `Q` with blanks behind it. -/
def Trails (P Q : List Char → α → Prop) : Prop :=
  ∀ cs x, P cs x ↔ ∃ ds b, Q ds x ∧ Blank b ∧ cs = ds ++ b

/-- A sequence is its first element, and then blanks and its rest. -/
theorem exists_first_iff (hP : Trails P Q) {K : List α → List Char → Prop} :
    (∃ es x fs, Q es x ∧ cs = es ++ fs ∧
        AfterBlanks (fun cs => ∃ xs rest, Tail P close cs xs rest ∧ K (x :: xs) rest) fs) ↔
      ∃ ds xs rest, Separated P ds xs ∧ cs = ds ++ close :: rest ∧ K xs rest := by
  constructor
  · rintro ⟨es, x, _, hes, rfl, b, _, hb, rfl, xs, rest, htail, hK⟩
    have hx := (hP _ _).mpr ⟨es, b, hes, hb, rfl⟩
    cases htail with
    | close => exact ⟨_, [x], rest, .one hx, (List.append_assoc ..).symm, hK⟩
    | more hxs =>
      refine ⟨_, x :: xs, rest, .more hx hxs, ?_, hK⟩
      simp only [List.append_assoc, List.cons_append]
  · rintro ⟨ds, xs, rest, hds, rfl, hK⟩
    cases hds with
    | one hx =>
      obtain ⟨es, b, hes, hb, rfl⟩ := (hP _ _).mp hx
      exact ⟨es, _, _, hes, List.append_assoc .., b, _, hb, rfl, [], rest, .close, hK⟩
    | more hx hxs =>
      obtain ⟨es, b, hes, hb, rfl⟩ := (hP _ _).mp hx
      refine ⟨es, _, _, hes, ?_, b, _, hb, rfl, _, rest, .more hxs, hK⟩
      simp only [List.append_assoc, List.cons_append]

end

/-- **`Led cs v`** — a value with blanks in front of it. -/
def Led (cs : List Char) (v : Json) : Prop := AfterBlanks (Value · v) cs

/-- **`LedField cs m`** — a field with blanks in front of it. -/
def LedField (cs : List Char) (m : Member) : Prop :=
  AfterBlanks (fun cs => ∃ ns ds, Contents ns m.1 ∧ cs = '"' :: (ns ++ '"' :: ds) ∧
    AfterBlanks (fun cs => ∃ es, cs = ':' :: es ∧ Led es m.2) ds) cs

theorem trails_text : Trails Text Led := by
  intro cs v
  constructor
  · rintro ⟨ha, hv, hb⟩
    exact ⟨_, _, ⟨_, _, ha, rfl, hv⟩, hb, rfl⟩
  · rintro ⟨_, b, ⟨a, ds, ha, rfl, hv⟩, hb, rfl⟩
    exact .mk ha hv hb

theorem trails_field : Trails (Field Value) LedField := by
  rintro cs ⟨name, v⟩
  constructor
  · rintro ⟨ha, hname, hb, hv⟩
    obtain ⟨es, e, hes, he, rfl⟩ := (trails_text _ _).mp hv
    refine ⟨_, e, ⟨_, _, ha, rfl, _, _, hname, rfl, _, _, hb, rfl, es, rfl, hes⟩, he, ?_⟩
    simp only [List.append_assoc, List.cons_append]
  · rintro ⟨_, e, ⟨a, _, ha, rfl, ns, _, hname, rfl, b, _, hb, rfl, es, rfl, hes⟩, he, rfl⟩
    have hfield := Field.mk ha hname hb ((trails_text _ _).mpr ⟨es, e, hes, he, rfl⟩)
    simp only [List.append_assoc, List.cons_append] at hfield ⊢
    exact hfield

theorem exists_led_iff {K : Json → List Char → Prop} {cs : List Char} :
    (∃ es v fs, Led es v ∧ cs = es ++ fs ∧ K v fs) ↔
      AfterBlanks (fun cs => ∃ ds v rest, Value ds v ∧ cs = ds ++ rest ∧ K v rest) cs := by
  constructor
  · rintro ⟨_, v, fs, ⟨b, ds, hb, rfl, hv⟩, rfl, hK⟩
    exact ⟨b, _, hb, List.append_assoc .., ds, v, fs, hv, rfl, hK⟩
  · rintro ⟨b, _, hb, rfl, ds, v, rest, hv, rfl, hK⟩
    exact ⟨_, v, rest, ⟨b, ds, hb, rfl, hv⟩, (List.append_assoc ..).symm, hK⟩

theorem exists_ledField_iff {K : Member → List Char → Prop} {cs : List Char} :
    (∃ es m fs, LedField es m ∧ cs = es ++ fs ∧ K m fs) ↔
      AfterBlanks (fun cs => ∃ ns name ds, Contents ns name ∧ cs = '"' :: (ns ++ '"' :: ds) ∧
        AfterBlanks (fun cs => ∃ es, cs = ':' :: es ∧
          ∃ gs v fs, Led gs v ∧ es = gs ++ fs ∧ K (name, v) fs) ds) cs := by
  constructor
  · rintro ⟨_, ⟨name, v⟩, fs, ⟨a, _, ha, rfl, ns, _, hname, rfl, b, _, hb, rfl, gs, rfl, hv⟩, rfl, hK⟩
    refine ⟨a, _, ha, List.append_assoc .., ns, name, b ++ ':' :: (gs ++ fs), hname, ?_,
      b, _, hb, rfl, _, rfl, gs, v, fs, hv, rfl, hK⟩
    simp only [List.append_assoc, List.cons_append]
  · rintro ⟨a, _, ha, rfl, ns, name, _, hname, rfl, b, _, hb, rfl, _, rfl, gs, v, fs, hv, rfl, hK⟩
    refine ⟨a ++ '"' :: (ns ++ '"' :: (b ++ ':' :: gs)), (name, v), fs,
      ⟨a, _, ha, rfl, ns, _, hname, rfl, b, _, hb, rfl, gs, rfl, hv⟩, ?_, hK⟩
    simp only [List.append_assoc, List.cons_append]

/-! ## What completes a text -/

/-- **`Closes frames v cs w`** — behind the value `v` in the frames, `cs` completes a text of `w`. -/
def Closes : List Frame → Json → List Char → Json → Prop
  | [], v, cs, w => AfterBlanks (fun cs => cs = [] ∧ v = w) cs
  | .item items :: frames, v, cs, w =>
    AfterBlanks (fun cs => ∃ vs rest, Tail Text ']' cs vs rest ∧
      Closes frames (.array (items.reverse ++ v :: vs)) rest w) cs
  | .member members name :: frames, v, cs, w =>
    AfterBlanks (fun cs => ∃ ms rest, Tail (Field Value) '}' cs ms rest ∧
      Closes frames (.object (members.reverse ++ (name, v) :: ms)) rest w) cs

/-- **`StartsValue frames cs w`** — a value in the frames, and what completes the text behind it. -/
def StartsValue (frames : List Frame) (cs : List Char) (w : Json) : Prop :=
  ∃ ds v rest, Value ds v ∧ cs = ds ++ rest ∧ Closes frames v rest w

/-- **`StartsColon members name frames cs w`** — a colon behind the name of a member, and what completes
the text behind it. -/
def StartsColon (members : List Member) (name : List Piece) (frames : List Frame) (cs : List Char)
    (w : Json) : Prop :=
  ∃ rest, cs = ':' :: rest ∧
    AfterBlanks (StartsValue (.member members name :: frames) · w) rest

/-- **`StartsName members frames cs w`** — the name of a member, and what completes the text behind it. -/
def StartsName (members : List Member) (frames : List Frame) (cs : List Char) (w : Json) : Prop :=
  ∃ ns name rest, Contents ns name ∧ cs = '"' :: (ns ++ '"' :: rest) ∧
    AfterBlanks (StartsColon members name frames · w) rest

/-- **`role.Follows ps frames cs w`** — `cs` completes the text behind a string with the pieces `ps`. -/
def Role.Follows : Role → List Piece → List Frame → List Char → Json → Prop
  | value, ps, frames, cs, w => Closes frames (.string ps) cs w
  | name members, ps, frames, cs, w => AfterBlanks (StartsColon members ps frames · w) cs

namespace Scan

/-- **`scan.Completes cs w`** — `cs` completes what has been read to a text of `w`. -/
def Completes : Scan → List Char → Json → Prop
  | value frames, cs, w => AfterBlanks (StartsValue frames · w) cs
  | firstItem frames, cs, w =>
    AfterBlanks (fun cs => (∃ rest, cs = ']' :: rest ∧ Closes frames (.array []) rest w) ∨
      StartsValue (.item [] :: frames) cs w) cs
  | firstName frames, cs, w =>
    AfterBlanks (fun cs => (∃ rest, cs = '}' :: rest ∧ Closes frames (.object []) rest w) ∨
      StartsName [] frames cs w) cs
  | nextName members frames, cs, w => AfterBlanks (StartsName members frames · w) cs
  | colon members name frames, cs, w => AfterBlanks (StartsColon members name frames · w) cs
  | string role pieces spot frames, cs, w => ∃ ds ps rest, spot.Rest ds ps ∧
      cs = ds ++ '"' :: rest ∧ role.Follows (pieces.reverse ++ ps) frames rest w
  | number part spelling frames, cs, w => ∃ ds rest, part.Rest ds ∧ cs = ds ++ rest ∧
      Closes frames (.number (spelling.reverse ++ ds)) rest w
  -- A word of which nothing is to come is no state of a run, and the reader never ends a text there.
  | word result ds frames, cs, w => cs ≠ [] ∧ ∃ rest, cs = ds ++ rest ∧ Closes frames result rest w
  | after v frames, cs, w => Closes frames v cs w

end Scan

section

variable {frames : List Frame} {items : List Json} {members : List Member} {name : List Piece}
  {v w : Json} {c : Char} {cs : List Char}

/-- The elements of an array, one of which is in hand. -/
theorem startsValue_item_iff :
    AfterBlanks (StartsValue (.item items :: frames) · w) cs ↔
      ∃ ds vs rest, Separated Text ds vs ∧ cs = ds ++ ']' :: rest ∧
        Closes frames (.array (items.reverse ++ vs)) rest w := by
  rw [← exists_first_iff trails_text (K := fun vs rest =>
    Closes frames (.array (items.reverse ++ vs)) rest w), exists_led_iff]
  rfl

/-- The fields of an object, one of which is in hand. -/
theorem startsName_iff :
    AfterBlanks (StartsName members frames · w) cs ↔
      ∃ ds ms rest, Separated (Field Value) ds ms ∧ cs = ds ++ '}' :: rest ∧
        Closes frames (.object (members.reverse ++ ms)) rest w := by
  rw [← exists_first_iff trails_field (K := fun ms rest =>
    Closes frames (.object (members.reverse ++ ms)) rest w), exists_ledField_iff]
  simp only [exists_led_iff]
  rfl

end

end Reckoner.Json
