/-
# Reckoner.Proofs.Json.Contents — what stands between the quotes of a string, read from left to right.

`spot.Rest cs ps` says what the characters `cs` up to the closing quote are read as from the spot on, in
terms of the grammar. As for the parts of a number, one character leads to the spot that the rest belongs
to: there is one lemma for each kind of spot, and in the middle of an escape the characters read so far
are in the number that the spot carries.
-/
import Reckoner.Proofs.Json.Grammar

namespace Reckoner.Json

/-- **`spot.Rest cs ps`** — from the spot on, `cs` is what stands up to the closing quote, and `ps`
are the pieces of it. -/
def Spot.Rest : Spot → List Char → List Piece → Prop
  | plain, cs, ps => Contents cs ps
  | escape, cs, ps => Contents ('\\' :: cs) ps
  | digits count code, cs, ps => ∃ hs ds code' ps', hs ≠ [] ∧ count + hs.length = 4 ∧
      hexValue? code hs = some code' ∧ Contents ds ps' ∧ cs = hs ++ ds ∧ ps = .unit code' :: ps'

/-- **`Leads piece cs ps`** — `ps` are that piece and the pieces that `cs` is written for. -/
def Leads (piece : Piece) (cs : List Char) (ps : List Piece) : Prop :=
  ∃ ps', Contents cs ps' ∧ ps = piece :: ps'

namespace Spot

variable {c : Char} {cs : List Char} {ps : List Piece} {count code : Nat}

/-! ## Between pieces -/

theorem rest_plain_nil_iff : plain.Rest [] ps ↔ ps = [] := by
  constructor
  · intro h
    cases h with
    | nil => rfl
  · rintro rfl
    exact .nil

/-- A quote ends the string, so that none stands in it. -/
theorem not_rest_plain_quote : ¬plain.Rest ('"' :: cs) ps := by
  intro h
  cases h with
  | character hquote _ _ _ => exact hquote rfl

theorem rest_plain_cons_iff (hquote : c ≠ '"') (hslash : c ≠ '\\') :
    plain.Rest (c :: cs) ps ↔ 0x20 ≤ c.toNat ∧ Leads (.character c) cs ps := by
  constructor
  · intro h
    cases h with
    | character _ _ hc hcs => exact ⟨hc, _, hcs, rfl⟩
    | escape => exact absurd rfl hslash
    | unit => exact absurd rfl hslash
  · rintro ⟨hc, ps', hcs, rfl⟩
    exact .character hquote hslash hc hcs

/-! ## Behind a backslash -/

theorem not_rest_escape_nil : ¬escape.Rest [] ps := by
  intro h
  cases h with
  | character _ hslash _ _ => exact hslash rfl

theorem rest_escape_unit_iff : escape.Rest ('u' :: cs) ps ↔ (digits 0 0).Rest cs ps := by
  constructor
  · intro h
    cases h with
    | character _ hslash _ _ => exact absurd rfl hslash
    | escape hc _ => cases hc
    | @unit hs ds code ps' hlength hcode hds =>
      refine ⟨hs, ds, code, ps', ?_, by omega, hcode, hds, rfl, rfl⟩
      rintro rfl
      cases hlength
  · rintro ⟨hs, ds, code, ps', -, hlength, hcode, hds, rfl, rfl⟩
    exact .unit (by omega) hcode hds

theorem rest_escape_cons_iff (hunit : c ≠ 'u') :
    escape.Rest (c :: cs) ps ↔ ∃ d, escaped? c = some d ∧ Leads (.character d) cs ps := by
  constructor
  · intro h
    cases h with
    | character _ hslash _ _ => exact absurd rfl hslash
    | escape hc hcs => exact ⟨_, hc, _, hcs, rfl⟩
    | unit => exact absurd rfl hunit
  · rintro ⟨d, hc, ps', hcs, rfl⟩
    exact .escape hc hcs

/-! ## In an escape of a unit -/

theorem not_rest_digits_nil : ¬(digits count code).Rest [] ps := by
  rintro ⟨hs, ds, code', ps', hne, -, -, -, h, -⟩
  exact hne (List.append_eq_nil_iff.mp h.symm).1

/-- The fourth digit ends the escape. -/
theorem rest_digits_last_iff :
    (digits 3 code).Rest (c :: cs) ps ↔
      ∃ d, hexDigit? c = some d ∧ Leads (.unit (16 * code + d)) cs ps := by
  constructor
  · rintro ⟨hs, ds, code', ps', hne, hlength, hcode, hds, h, rfl⟩
    obtain ⟨d, rfl⟩ := List.length_eq_one_iff.mp (show hs.length = 1 by omega)
    obtain ⟨rfl, rfl⟩ := List.cons.inj h
    obtain ⟨n, hn, hcode⟩ := Option.bind_eq_some_iff.mp hcode
    obtain rfl := Option.some.inj hcode
    exact ⟨n, hn, ps', hds, rfl⟩
  · rintro ⟨n, hn, ps', hds, rfl⟩
    exact ⟨[c], cs, _, ps', List.cons_ne_nil c [], rfl, by rw [hexValue?, hn]; rfl, hds, rfl, rfl⟩

theorem rest_digits_cons_iff (hcount : count ≠ 3) :
    (digits count code).Rest (c :: cs) ps ↔
      ∃ d, hexDigit? c = some d ∧ (digits (count + 1) (16 * code + d)).Rest cs ps := by
  constructor
  · rintro ⟨hs, ds, code', ps', hne, hlength, hcode, hds, h, rfl⟩
    obtain ⟨d, hs, rfl⟩ := List.exists_cons_of_ne_nil hne
    obtain ⟨rfl, rfl⟩ := List.cons.inj h
    obtain ⟨n, hn, hcode⟩ := Option.bind_eq_some_iff.mp hcode
    rw [List.length_cons] at hlength
    refine ⟨n, hn, hs, ds, code', ps', ?_, by omega, hcode, hds, rfl, rfl⟩
    rintro rfl
    exact hcount (by simpa using hlength)
  · rintro ⟨n, hn, hs, ds, code', ps', -, hlength, hcode, hds, rfl, rfl⟩
    refine ⟨c :: hs, ds, code', ps', List.cons_ne_nil c hs, ?_, ?_, hds, rfl, rfl⟩
    · rw [List.length_cons]
      omega
    · rw [hexValue?, hn]
      exact hcode

end Spot

end Reckoner.Json
