/-
# Reckoner.Proofs.Json.Denotes — the texts that JSON strings stand for.

A character of a text is written as itself or as its units of UTF-16, each in an escape: one unit for
most characters, a surrogate pair for those beyond the first 65536. `Denotes` says this from the side of
the text, so that half of a pair is written for nothing, and nothing is said of how the halves are put
together.

`text?` finds the text just if there is one, as long as each escape has a number of 16 bits
(`text?_eq_some_iff`). Four hexadecimal digits have no other, so in a JSON text this is always so.
Conversely, every text can be written with its units alone (`exists_contents_denotes`).
-/
import Reckoner.Proofs.Json.Grammar
import Mathlib.Tactic.SplitIfs

namespace Reckoner.Json

attribute [local instance] corePow

/-- **`units c`** — the units of UTF-16 that a character has. -/
def units (c : Char) : List Nat :=
  if c.toNat < 0x10000 then [c.toNat]
  else [0xD800 + (c.toNat - 0x10000) / 0x400, 0xDC00 + (c.toNat - 0x10000) % 0x400]

/-- **`Denotes ps cs`** — the string with the pieces `ps` stands for the text `cs`. -/
inductive Denotes : List Piece → List Char → Prop
  | nil : Denotes [] []
  | character {ps : List Piece} {cs : List Char} (c : Char) : Denotes ps cs →
      Denotes (.character c :: ps) (c :: cs)
  | units {ps : List Piece} {cs : List Char} (c : Char) : Denotes ps cs →
      Denotes ((units c).map .unit ++ ps) (c :: cs)

/-- **`Short ps`** — each escape of a unit has a number of 16 bits. -/
def Short (ps : List Piece) : Prop := ∀ code, .unit code ∈ ps → code < 0x10000

variable {ps : List Piece} {cs hs : List Char} {c : Char} {code n : Nat}

/-! ## Units -/

theorem isTrailing_iff : isTrailing n = true ↔ 0xDC00 ≤ n ∧ n ≤ 0xDFFF := by
  rw [isTrailing, Bool.and_eq_true, decide_eq_true_iff, decide_eq_true_iff]

theorem isLeading_iff : isLeading n = true ↔ 0xD800 ≤ n ∧ n ≤ 0xDBFF := by
  rw [isLeading, Bool.and_eq_true, decide_eq_true_iff, decide_eq_true_iff]

theorem toNat_valid (c : Char) : c.toNat < 0xD800 ∨ (0xDFFF < c.toNat ∧ c.toNat < 0x110000) :=
  c.valid

theorem toNat_ofNat (h : n.isValidChar) : (Char.ofNat n).toNat = n := by
  rw [Char.ofNat, dif_pos h]
  rfl

theorem units_of_lt (h : c.toNat < 0x10000) : units c = [c.toNat] := if_pos h

theorem units_of_ge (h : 0x10000 ≤ c.toNat) :
    units c = [0xD800 + (c.toNat - 0x10000) / 0x400, 0xDC00 + (c.toNat - 0x10000) % 0x400] :=
  if_neg (Nat.not_lt.mpr h)

/-- A unit that is no half of a pair is the character of that number. -/
theorem units_ofNat (htrailing : isTrailing code ≠ true) (hleading : isLeading code ≠ true)
    (h : code < 0x10000) : units (.ofNat code) = [code] := by
  rw [ne_eq, isTrailing_iff] at htrailing
  rw [ne_eq, isLeading_iff] at hleading
  have hvalid : code.isValidChar := by
    show code < 0xD800 ∨ (0xDFFF < code ∧ code < 0x110000)
    omega
  have hcode := toNat_ofNat hvalid
  rw [units_of_lt (by rwa [hcode]), hcode]

theorem units_pair (hleading : isLeading code = true) (htrailing : isTrailing n = true) :
    units (pair code n) = [code, n] := by
  rw [isTrailing_iff] at htrailing
  rw [isLeading_iff] at hleading
  have hvalid : (0x10000 + (code - 0xD800) * 0x400 + (n - 0xDC00)).isValidChar := by
    show _ < 0xD800 ∨ (0xDFFF < _ ∧ _ < 0x110000)
    omega
  have hpair : (pair code n).toNat = 0x10000 + (code - 0xD800) * 0x400 + (n - 0xDC00) :=
    toNat_ofNat hvalid
  have hfirst : 0xD800 + ((pair code n).toNat - 0x10000) / 0x400 = code := by omega
  have hsecond : 0xDC00 + ((pair code n).toNat - 0x10000) % 0x400 = n := by omega
  rw [units_of_ge (by omega), hfirst, hsecond]

/-- The first half of a pair is leading, and the second trailing. -/
theorem exists_pair (h : 0x10000 ≤ c.toNat) :
    ∃ leading trailing, units c = [leading, trailing] ∧ isLeading leading = true ∧
      isTrailing trailing = true ∧ pair leading trailing = c := by
  have hvalid := toNat_valid c
  refine ⟨_, _, units_of_ge h, isLeading_iff.mpr (by omega), isTrailing_iff.mpr (by omega), ?_⟩
  have hsum : 0x10000 + (0xD800 + (c.toNat - 0x10000) / 0x400 - 0xD800) * 0x400 +
      (0xDC00 + (c.toNat - 0x10000) % 0x400 - 0xDC00) = c.toNat := by omega
  rw [pair, hsum, Char.ofNat_toNat]

/-! ## Decoding -/

theorem isTrailing_of_isLeading (h : isLeading code = true) : isTrailing code ≠ true := by
  rw [isLeading_iff] at h
  rw [ne_eq, isTrailing_iff]
  omega

theorem text?_unit (htrailing : isTrailing code ≠ true) (hleading : isLeading code ≠ true) :
    text? (.unit code :: ps) = (text? ps).map (.ofNat code :: ·) := by
  rw [text?.eq_def]
  dsimp only
  rw [if_neg htrailing, if_neg hleading]

theorem text?_pair (hleading : isLeading code = true) (htrailing : isTrailing n = true) :
    text? (.unit code :: .unit n :: ps) = (text? ps).map (pair code n :: ·) := by
  rw [text?.eq_def]
  dsimp only
  rw [if_neg (isTrailing_of_isLeading hleading), if_pos hleading, if_pos htrailing]

theorem text?_trailing (htrailing : isTrailing code = true) : text? (.unit code :: ps) = none := by
  rw [text?.eq_def]
  dsimp only
  rw [if_pos htrailing]

/-- The first half of a pair is nothing without the second. -/
theorem text?_leading (hleading : isLeading code = true)
    (hps : ∀ n rest, ps = .unit n :: rest → isTrailing n ≠ true) : text? (.unit code :: ps) = none := by
  rw [text?.eq_def]
  dsimp only
  rw [if_neg (isTrailing_of_isLeading hleading), if_pos hleading]
  split
  · rw [if_neg (hps _ _ rfl)]
  · rfl

theorem text?_units (c : Char) (ps : List Piece) :
    text? ((units c).map .unit ++ ps) = (text? ps).map (c :: ·) := by
  rcases Nat.lt_or_ge c.toNat 0x10000 with h | h
  · have hvalid := toNat_valid c
    have htrailing : isTrailing c.toNat ≠ true := by
      rw [ne_eq, isTrailing_iff]
      omega
    have hleading : isLeading c.toNat ≠ true := by
      rw [ne_eq, isLeading_iff]
      omega
    rw [units_of_lt h, List.map_singleton, List.singleton_append, text?_unit htrailing hleading,
      Char.ofNat_toNat]
  · obtain ⟨leading, trailing, hunits, hleading, htrailing, hpair⟩ := exists_pair h
    rw [hunits, List.map_cons, List.map_singleton, List.cons_append, List.singleton_append,
      text?_pair hleading htrailing, hpair]

theorem text?_of_denotes (h : Denotes ps cs) : text? ps = some cs := by
  induction h with
  | nil => rfl
  | character c _ ih => rw [text?, ih, Option.map_some]
  | units c _ ih => rw [text?_units, ih, Option.map_some]

theorem Short.tail {p : Piece} (h : Short (p :: ps)) : Short ps :=
  fun code hcode => h code (List.mem_cons_of_mem p hcode)

theorem denotes_of_text? (hps : Short ps) (h : text? ps = some cs) : Denotes ps cs := by
  -- One case for each branch of the decoder: half of a pair has no text, in the third, fifth and sixth.
  induction ps using text?.induct generalizing cs with
  | case1 =>
    obtain rfl := Option.some.inj h
    exact .nil
  | case2 c rest ih =>
    obtain ⟨ds, hds, rfl⟩ := Option.map_eq_some_iff.mp h
    exact .character c (ih hps.tail hds)
  | case3 code rest htrailing =>
    rw [text?_trailing htrailing] at h
    cases h
  | case4 code hcode hleading trailing rest htrailing ih =>
    rw [text?_pair hleading htrailing] at h
    obtain ⟨ds, hds, rfl⟩ := Option.map_eq_some_iff.mp h
    have hdenotes := Denotes.units (pair code trailing) (ih hps.tail.tail hds)
    rwa [units_pair hleading htrailing] at hdenotes
  | case5 code hcode hleading trailing rest htrailing =>
    rw [text?_leading hleading] at h
    · cases h
    · rintro n _ hps
      obtain ⟨hunit, -⟩ := List.cons.inj hps
      obtain rfl := Piece.unit.inj hunit
      exact htrailing
  | case6 code rest hcode hleading hrest =>
    rw [text?_leading hleading fun n rest' hps => (hrest n rest' hps).elim] at h
    cases h
  | case7 code rest hcode hleading ih =>
    rw [text?_unit hcode hleading] at h
    obtain ⟨ds, hds, rfl⟩ := Option.map_eq_some_iff.mp h
    have hdenotes := Denotes.units (.ofNat code) (ih hps.tail hds)
    rwa [units_ofNat hcode hleading (hps code List.mem_cons_self)] at hdenotes

/-- **A string is decoded just if it stands for a text,** and to that text. -/
theorem text?_eq_some_iff (hps : Short ps) : text? ps = some cs ↔ Denotes ps cs :=
  ⟨denotes_of_text? hps, text?_of_denotes⟩

theorem Denotes.unique {ds : List Char} (h : Denotes ps cs) (h' : Denotes ps ds) : cs = ds :=
  Option.some.inj ((text?_of_denotes h).symm.trans (text?_of_denotes h'))

/-! ## The units of a text -/

theorem units_lt (h : n ∈ units c) : n < 0x10000 := by
  have hvalid := toNat_valid c
  rcases Nat.lt_or_ge c.toNat 0x10000 with hlt | hge
  · rw [units_of_lt hlt, List.mem_singleton] at h
    omega
  · rw [units_of_ge hge] at h
    simp only [List.mem_cons, List.not_mem_nil, or_false] at h
    omega

theorem Denotes.short (h : Denotes ps cs) : Short ps := by
  intro code hcode
  induction h with
  | nil => cases hcode
  | character c _ ih =>
    cases hcode with
    | tail _ hcode => exact ih hcode
  | units c _ ih =>
    rcases List.mem_append.mp hcode with hcode | hcode
    · obtain ⟨n, hn, heq⟩ := List.mem_map.mp hcode
      obtain rfl := Piece.unit.inj heq
      exact units_lt hn
    · exact ih hcode

/-- **`isShort piece`** — no escape of a unit, or one with a number of 16 bits. -/
def isShort : Piece → Bool
  | .character _ => true
  | .unit code => code < 0x10000

theorem all_isShort_iff : ps.all isShort = true ↔ Short ps := by
  rw [List.all_eq_true]
  constructor
  · intro h code hcode
    exact of_decide_eq_true (h _ hcode)
  · intro h p hp
    cases p with
    | character c => rfl
    | unit code => exact decide_eq_true (h code hp)

theorem denotes_iff : ps.all isShort = true ∧ text? ps = some cs ↔ Denotes ps cs := by
  rw [all_isShort_iff]
  exact ⟨fun h => denotes_of_text? h.1 h.2, fun h => ⟨h.short, text?_of_denotes h⟩⟩

instance (ps : List Piece) (cs : List Char) : Decidable (Denotes ps cs) :=
  decidable_of_iff _ denotes_iff

theorem hexDigit?_digitChar : ∀ d < 16, hexDigit? (Nat.digitChar d) = some d := by decide

theorem exists_hexValue? (h : n < 0x10000) : ∃ hs, hs.length = 4 ∧ hexValue? 0 hs = some n := by
  refine ⟨[n / 4096, n / 256 % 16, n / 16 % 16, n % 16].map Nat.digitChar, rfl, ?_⟩
  simp only [List.map_cons, List.map_nil, hexValue?]
  rw [hexDigit?_digitChar _ (by omega), hexDigit?_digitChar _ (by omega),
    hexDigit?_digitChar _ (by omega), hexDigit?_digitChar _ (by omega)]
  simp only [Option.bind_some, Option.some.injEq]
  omega

theorem Contents.exists_append_units {us : List Nat} (hus : ∀ u ∈ us, u < 0x10000)
    (h : Contents cs ps) : ∃ ds, Contents ds (us.map .unit ++ ps) := by
  induction us with
  | nil => exact ⟨cs, h⟩
  | cons u us ih =>
    obtain ⟨hu, hus⟩ := List.forall_mem_cons.mp hus
    obtain ⟨hs, hlength, hvalue⟩ := exists_hexValue? hu
    obtain ⟨ds, hds⟩ := ih hus
    exact ⟨_, .unit hlength hvalue hds⟩

/-- Every text is what some string stands for, one with nothing but escapes of units. -/
theorem exists_contents_denotes (cs : List Char) : ∃ ds ps, Contents ds ps ∧ Denotes ps cs := by
  induction cs with
  | nil => exact ⟨[], [], .nil, .nil⟩
  | cons c cs ih =>
    obtain ⟨ds, ps, hcontents, hdenotes⟩ := ih
    obtain ⟨es, hes⟩ := hcontents.exists_append_units fun _ hu => units_lt (c := c) hu
    exact ⟨es, _, hes, hdenotes.units c⟩

/-! ## The strings of a text -/

theorem hexDigit?_lt (h : hexDigit? c = some n) : n < 16 := by
  unfold hexDigit? at h
  split_ifs at h with hdigit hlower hupper
  · obtain rfl := Option.some.inj h
    obtain ⟨-, hle⟩ := isDigit_iff_toNat.mp hdigit
    show c.toNat - 48 < 16
    omega
  · obtain rfl := Option.some.inj h
    have hle : c.toNat ≤ 102 := hlower.2
    show c.toNat - 97 + 10 < 16
    omega
  · obtain rfl := Option.some.inj h
    have hle : c.toNat ≤ 70 := hupper.2
    show c.toNat - 65 + 10 < 16
    omega

theorem hexValue?_lt (h : hexValue? code hs = some n) : n < (code + 1) * 16 ^ hs.length := by
  induction hs generalizing code with
  | nil =>
    obtain rfl := Option.some.inj h
    rw [List.length_nil, Nat.pow_zero, Nat.mul_one]
    exact Nat.lt_succ_self _
  | cons c hs ih =>
    obtain ⟨d, hd, h⟩ := Option.bind_eq_some_iff.mp h
    have hlt := hexDigit?_lt hd
    calc n < (16 * code + d + 1) * 16 ^ hs.length := ih h
      _ ≤ ((code + 1) * 16) * 16 ^ hs.length := Nat.mul_le_mul_right _ (by omega)
      _ = (code + 1) * 16 ^ (c :: hs).length := by
        rw [Nat.mul_assoc, List.length_cons, Nat.pow_succ']

theorem Contents.short (h : Contents cs ps) : Short ps := by
  intro code hcode
  induction h with
  | nil => cases hcode
  | character _ _ _ _ ih =>
    cases hcode with
    | tail _ hcode => exact ih hcode
  | escape _ _ ih =>
    cases hcode with
    | tail _ hcode => exact ih hcode
  | unit hlength hvalue _ ih =>
    cases hcode with
    | head =>
      have hlt := hexValue?_lt hvalue
      rwa [hlength] at hlt
    | tail _ hcode => exact ih hcode

/-- **`Occurs ps v`** — the string with the pieces `ps` stands somewhere in the value, if only as a
name. -/
inductive Occurs (ps : List Piece) : Json → Prop
  | string : Occurs ps (.string ps)
  | item {vs : List Json} {v : Json} : v ∈ vs → Occurs ps v → Occurs ps (.array vs)
  | name {ms : List Member} {v : Json} : (ps, v) ∈ ms → Occurs ps (.object ms)
  | member {ms : List Member} {name : List Piece} {v : Json} : (name, v) ∈ ms → Occurs ps v →
      Occurs ps (.object ms)

theorem Separated.exists_of_mem {α : Type} {P : List Char → α → Prop} {xs : List α} {x : α}
    (h : Separated P cs xs) (hx : x ∈ xs) : ∃ ds, P ds x := by
  induction h with
  | one hy =>
    obtain rfl := List.mem_singleton.mp hx
    exact ⟨_, hy⟩
  | more hy _ ih =>
    rcases List.mem_cons.mp hx with rfl | hx
    · exact ⟨_, hy⟩
    · exact ih hx

theorem Value.exists_of_mem_array {vs : List Json} {v : Json} (h : Value cs (.array vs))
    (hv : v ∈ vs) : ∃ ds, Value ds v := by
  cases h with
  | emptyArray => cases hv
  | array hvs =>
    obtain ⟨_, ⟨-, hvalue, -⟩⟩ := hvs.exists_of_mem hv
    exact ⟨_, hvalue⟩

theorem Value.exists_of_mem_object {ms : List Member} {name : List Piece} {v : Json}
    (h : Value cs (.object ms)) (hm : (name, v) ∈ ms) :
    (∃ ns, Contents ns name) ∧ ∃ ds, Value ds v := by
  cases h with
  | emptyObject => cases hm
  | object hms =>
    obtain ⟨_, ⟨-, hname, -, ⟨-, hvalue, -⟩⟩⟩ := hms.exists_of_mem hm
    exact ⟨⟨_, hname⟩, _, hvalue⟩

/-- Every string of a JSON value is short. -/
theorem Value.short {v : Json} (h : Value cs v) (hps : Occurs ps v) : Short ps := by
  induction hps generalizing cs with
  | string =>
    cases h with
    | string hcontents => exact hcontents.short
  | item hv _ ih =>
    obtain ⟨ds, hvalue⟩ := h.exists_of_mem_array hv
    exact ih hvalue
  | name hm =>
    obtain ⟨⟨ns, hname⟩, -⟩ := h.exists_of_mem_object hm
    exact hname.short
  | member hm _ ih =>
    obtain ⟨-, ds, hvalue⟩ := h.exists_of_mem_object hm
    exact ih hvalue

theorem Text.short {v : Json} (h : Text cs v) (hps : Occurs ps v) : Short ps := by
  obtain ⟨-, hvalue, -⟩ := h
  exact hvalue.short hps

end Reckoner.Json
