/-
# Reckoner.Proofs.Substitution — an expression in parentheses in the place of a numeral.

Put in place of a numeral, a text in parentheses is read as if the numeral had been its value: the expression
of the whole is the one from before, with the expression of the text where the literal was. Neither the
operators and signs around the place nor those of the text leak through the parentheses.

Which literal is meant is told by the text. The numerals of a text are the literals of its expression, from
left to right (`forall₂_numbers`), so as many literals come before it as there are numerals in front of the
place. A numeral is the whole run of digits and points at its place: the `1` of `12` is none.

The proof is by induction on the derivation. The parts of a text are parted by characters of no numeral, so
the numeral lies within one of them, and the other parts stay as they are. In the end the numeral is a
primary, and so is the text in parentheses.
-/
import Reckoner.Proofs.Written
import Reckoner.Proofs.Repair.Numbers

namespace Reckoner

open Grammar

/-! ## The literals of an expression -/

namespace Expr

variable {α β : Type} {v : α} {k : Nat} {l r : Expr α} {op : Op}

/-- **`e.literals`** — the literals of an expression, from left to right. -/
def literals : Expr α → List α
  | literal v => [v]
  | neg e => e.literals
  | binary _ l r => l.literals ++ r.literals

/-- **`e.replace k new`** — the expression with `new` in place of its literal number `k`, counted from
zero. -/
def replace (e : Expr α) (k : Nat) (new : Expr α) : Expr α :=
  match e with
  | literal v => if k = 0 then new else literal v
  | neg e => neg (e.replace k new)
  | binary op l r =>
    if k < l.literals.length then binary op (l.replace k new) r
    else binary op l (r.replace (k - l.literals.length) new)

@[simp]
theorem literals_map (f : α → β) (e : Expr α) : (e.map f).literals = e.literals.map f := by
  induction e with
  | literal _ => rfl
  | neg _ ih => exact ih
  | binary _ _ _ ihl ihr => simp [map, literals, ihl, ihr]

theorem replace_map (f : α → β) (e : Expr α) (k : Nat) (new : Expr α) :
    (e.replace k new).map f = (e.map f).replace k (new.map f) := by
  induction e generalizing k with
  | literal _ => simp only [replace, map, apply_ite (map f)]
  | neg _ ih => simp only [replace, map, ih]
  | binary op l r ihl ihr =>
    simp only [replace, map, literals_map, List.length_map, apply_ite (map f), ihl, ihr]

theorem getElem?_literals_left (h : l.literals[k]? = some v) :
    (binary op l r).literals[k]? = some v := by
  obtain ⟨hk, -⟩ := List.getElem?_eq_some_iff.mp h
  rw [literals, List.getElem?_append_left hk, h]

theorem getElem?_literals_right (h : r.literals[k]? = some v) :
    (binary op l r).literals[l.literals.length + k]? = some v := by
  rw [literals, List.getElem?_append_right (Nat.le_add_right _ _), Nat.add_sub_cancel_left, h]

theorem replace_left (h : l.literals[k]? = some v) (new : Expr α) :
    (binary op l r).replace k new = binary op (l.replace k new) r :=
  if_pos (List.getElem?_eq_some_iff.mp h).1

theorem replace_right (k : Nat) (new : Expr α) :
    (binary op l r).replace (l.literals.length + k) new = binary op l (r.replace k new) := by
  rw [replace, if_neg (by omega), Nat.add_sub_cancel_left]

end Expr

/-! ## Numerals of a text -/

/-- **`Token front token rest d`** — in the text of these three parts, `token` is a whole numeral, written
for `d`: neither a digit nor a point stands right in front of it or right behind it. -/
structure Token (front token rest : List Char) (d : Decimal) : Prop where
  literal : Literal token d
  before : ∀ c, front.getLast? = some c → inNumeral c = false
  behind : ∀ c, rest.head? = some c → inNumeral c = false

/-- **`Apart cs`** — no digit and no point. -/
def Apart (cs : List Char) : Prop := ∀ c ∈ cs, inNumeral c = false

variable {cs ds front token rest inner mid o : List Char} {d : Decimal} {e s : Expr Decimal}

theorem apart_nil : Apart [] := fun _ h => by cases h

theorem apart_of_blank (h : Blank cs) : Apart cs := fun c hc => inNumeral_of_isBlank (h.isBlank c hc)

theorem apart_cons {c : Char} (hc : inNumeral c = false) (h : Apart cs) : Apart (c :: cs) :=
  List.forall_mem_cons.mpr ⟨hc, h⟩

theorem apart_append (h : Apart cs) (h' : Apart ds) : Apart (cs ++ ds) :=
  List.forall_mem_append.mpr ⟨h, h'⟩

theorem apart_sign (op : Op) {a b : List Char} (ha : Blank a) (hb : Blank b) :
    Apart (a ++ op.sign :: b) :=
  apart_append (apart_of_blank ha) (apart_cons (Layered.inNumeral_sign op) (apart_of_blank hb))

theorem apart_opening (h : Opening o) : Apart o := by
  cases h with
  | blank ha => exact apart_of_blank ha
  | plus ha hb => exact apart_append (apart_of_blank ha) (apart_cons rfl (apart_of_blank hb))

theorem Grammar.Literal.ne_nil (h : Literal cs d) : cs ≠ [] := by
  obtain ⟨c, hc, -⟩ := h.exists_not_white
  exact List.ne_nil_of_mem hc

/-- A numeral has no character in common with what is apart. -/
theorem Grammar.Literal.not_mem_apart (h : Literal cs d) (hds : Apart ds) {c : Char} (hc : c ∈ cs) :
    c ∉ ds := by
  intro hmem
  have hnumeral := h.forall_inNumeral c hc
  rw [hds c hmem] at hnumeral
  cases hnumeral

theorem Grammar.Literal.numbers_eq (h : Literal cs d) : numbers cs = [cs] := by
  have hsplit : cs.splitOnP (fun c => !inNumeral c) = [cs] :=
    List.splitOnP_eq_singleton fun c hc => by simp [h.forall_inNumeral c hc]
  simp [numbers, hsplit, h.ne_nil]

theorem numbers_join (hne : mid ≠ []) (hmid : Apart mid) (cs ds : List Char) :
    numbers (cs ++ mid ++ ds) = numbers cs ++ numbers ds := by
  obtain ⟨c, mid, rfl⟩ := List.exists_cons_of_ne_nil hne
  obtain ⟨hc, hmid⟩ := List.forall_mem_cons.mp hmid
  rw [List.append_assoc, List.cons_append, numbers_append_cons hc, numbers_append_left hmid]

/-- The numerals of a text are the literals of the expression that it is written for. -/
theorem Grammar.Layered.forall₂_numbers {level : Level} (h : Layered level cs e) :
    List.Forall₂ Literal (numbers cs) e.literals := by
  have hjoin {cs ds a b : List Char} {l r : Expr Decimal} (op : Op) (ha : Blank a) (hb : Blank b)
      (hl : List.Forall₂ Literal (numbers cs) l.literals)
      (hr : List.Forall₂ Literal (numbers ds) r.literals) :
      List.Forall₂ Literal (numbers (cs ++ a ++ op.sign :: b ++ ds))
        (Expr.binary op l r).literals := by
    rw [List.append_assoc cs, numbers_join (by simp) (apart_sign op ha hb)]
    exact List.rel_append hl hr
  induction h with
  | literal h =>
    rw [h.numbers_eq]
    exact .cons h .nil
  | group _ ih =>
    rwa [List.cons_append, numbers_cons_of_not rfl, numbers_append_right _ (by simp [inNumeral])]
  | unsigned _ ih | factor _ ih | term _ ih => exact ih
  | minus hb _ ih =>
    rwa [numbers_append_left (apart_cons rfl (apart_of_blank hb))]
  | product _ _ ha hb _ ihl ihr | sum _ _ ha hb _ ihl ihr => exact hjoin _ ha hb ihl ihr
  | text ho _ hb ih =>
    rwa [numbers_append_right _ (apart_of_blank hb), numbers_append_left (apart_opening ho)]

/-! ## Where a numeral lies -/

namespace Token

theorem of_append_left (h : Token (o ++ front) token rest d) : Token front token rest d where
  literal := h.literal
  before c hc := h.before c (by simp [List.getLast?_append, hc])
  behind := h.behind

theorem of_append_right (h : Token front token (rest ++ o) d) : Token front token rest d where
  literal := h.literal
  before := h.before
  behind c hc := h.behind c (by simp [hc])

/-- A numeral does not lie in what is apart in front of a text. -/
theorem exists_behind (h : Token front token rest d) (ho : Apart o)
    (hsplit : o ++ cs = front ++ token ++ rest) :
    ∃ front', front = o ++ front' ∧ cs = front' ++ token ++ rest := by
  obtain ⟨c, token', rfl⟩ := List.exists_cons_of_ne_nil h.literal.ne_nil
  rw [List.append_assoc] at hsplit
  rcases List.append_eq_append_iff.mp hsplit with ⟨front', rfl, rfl⟩ | ⟨_ | ⟨c', more⟩, rfl, hrest⟩
  · exact ⟨front', rfl, by rw [List.append_assoc]⟩
  · exact ⟨[], by simp, by simpa using hrest.symm⟩
  · obtain ⟨rfl, -⟩ := List.cons.inj hrest
    exact absurd (by simp) (h.literal.not_mem_apart ho List.mem_cons_self)

/-- Nor does it lie in what is apart behind a text. -/
theorem exists_before (h : Token front token rest d) (ho : Apart o)
    (hsplit : cs ++ o = front ++ token ++ rest) :
    ∃ rest', rest = rest' ++ o ∧ cs = front ++ token ++ rest' := by
  rcases List.append_eq_append_iff.mp hsplit with ⟨more, htoken, rfl⟩ | ⟨rest', rfl, rfl⟩
  · rcases List.eq_nil_or_concat more with rfl | ⟨more, c, rfl⟩
    · exact ⟨[], by simp, by simpa using htoken.symm⟩
    · -- the last character of the numeral would be apart
      obtain ⟨token', c', rfl⟩ := (List.eq_nil_or_concat token).resolve_left h.literal.ne_nil
      rw [List.concat_eq_append, List.concat_eq_append, ← List.append_assoc, ← List.append_assoc]
        at htoken
      obtain rfl := List.singleton_inj.mp (List.append_inj' htoken rfl).2
      exact absurd (by simp) (h.literal.not_mem_apart ho (c := c') (by simp))
  · exact ⟨rest', rfl, rfl⟩

/-- Where two texts are parted, a numeral lies in one of them. -/
theorem exists_in_parts (h : Token front token rest d) (hne : mid ≠ []) (hmid : Apart mid)
    (hsplit : cs ++ mid ++ ds = front ++ token ++ rest) :
    (∃ rest', rest = rest' ++ mid ++ ds ∧ cs = front ++ token ++ rest') ∨
      ∃ front', front = cs ++ mid ++ front' ∧ ds = front' ++ token ++ rest := by
  rw [List.append_assoc, List.append_assoc] at hsplit
  rcases List.append_eq_append_iff.mp hsplit with ⟨more, rfl, hrest⟩ | ⟨more, rfl, hrest⟩
  · rw [← List.append_assoc] at hrest
    obtain ⟨front', rfl, hds⟩ := h.of_append_left.exists_behind hmid hrest
    exact .inr ⟨front', by rw [List.append_assoc], hds⟩
  · rcases List.append_eq_append_iff.mp hrest with ⟨rest', rfl, rfl⟩ | ⟨_ | ⟨c, more'⟩, htoken, hmore⟩
    · exact .inl ⟨rest', by rw [List.append_assoc], by rw [List.append_assoc]⟩
    · rw [List.append_nil] at htoken
      exact .inl ⟨[], by simpa using hmore.symm, by rw [htoken, List.append_nil]⟩
    · -- the numeral would reach into what parts the texts
      obtain ⟨c', mid, rfl⟩ := List.exists_cons_of_ne_nil hne
      obtain ⟨rfl, -⟩ := List.cons.inj hmore
      have hc : c' ∈ token := by simp [htoken]
      exact absurd List.mem_cons_self (h.literal.not_mem_apart hmid hc)

/-- A numeral is all of a numeral that it is a part of. -/
theorem eq_nil_of_literal {d' : Decimal} (h : Token front token rest d)
    (hliteral : Literal (front ++ token ++ rest) d') : front = [] ∧ rest = [] := by
  constructor
  · rcases List.eq_nil_or_concat front with hnil | ⟨front', c, hfront⟩
    · exact hnil
    · have hc := h.before c (by simp [hfront])
      rw [hliteral.forall_inNumeral c (by simp [hfront])] at hc
      cases hc
  · rcases rest with _ | ⟨c, rest⟩
    · rfl
    · have hc := h.behind c rfl
      rw [hliteral.forall_inNumeral c (by simp)] at hc
      cases hc

end Token

/-! ## Putting a text in parentheses in the place of a numeral -/

/-- **`Replaceable inner s token d level cs e`** — wherever `token` is a whole numeral of `cs`, written for
`d`, it may be replaced by `inner` in parentheses, and the literal that it stands for by `s`. -/
def Replaceable (inner : List Char) (s : Expr Decimal) (token : List Char) (d : Decimal)
    (level : Level) (cs : List Char) (e : Expr Decimal) : Prop :=
  ∀ front rest, cs = front ++ token ++ rest → Token front token rest d →
    e.literals[(numbers front).length]? = some d ∧
      Layered level (front ++ ('(' :: inner ++ [')']) ++ rest) (e.replace (numbers front).length s)

namespace Replaceable

variable {level level' : Level} {l r : Expr Decimal}

theorem of_literal {d' : Decimal} (hs : Layered .text inner s) (h : Literal cs d') :
    Replaceable inner s token d .primary cs (.literal d') := by
  rintro front rest rfl htoken
  obtain ⟨rfl, rfl⟩ := htoken.eq_nil_of_literal h
  rw [List.nil_append, List.append_nil] at h ⊢
  rw [htoken.literal.unique h]
  exact ⟨rfl, .group hs⟩

/-- What stands around a part of a text and is apart from numerals stays around it. -/
theorem surround {o b : List Char} (wrap : Expr Decimal → Expr Decimal) (ho : Apart o) (hb : Apart b)
    (hliterals : ∀ e, (wrap e).literals = e.literals)
    (hreplace : ∀ e k, (wrap e).replace k s = wrap (e.replace k s))
    (hwrap : ∀ {cs e}, Layered level cs e → Layered level' (o ++ cs ++ b) (wrap e))
    (h : Replaceable inner s token d level cs e) :
    Replaceable inner s token d level' (o ++ cs ++ b) (wrap e) := by
  intro front rest hsplit htoken
  obtain ⟨rest', rfl, hfront⟩ := htoken.exists_before hb hsplit
  obtain ⟨front', rfl, hcs⟩ := htoken.of_append_right.exists_behind ho hfront
  obtain ⟨hliteral, hlayered⟩ := h front' rest' hcs htoken.of_append_left.of_append_right
  rw [numbers_append_left ho, hliterals, hreplace]
  refine ⟨hliteral, ?_⟩
  have hwhole := hwrap hlayered
  simp only [List.append_assoc] at hwhole ⊢
  exact hwhole

/-- Of two operands, the one without the numeral stays as it is. -/
theorem join {a b : List Char} {op : Op} {left right : Level} (ha : Blank a) (hb : Blank b)
    (hjoin : ∀ {cs ds l r}, Layered left cs l → Layered right ds r →
      Layered level (cs ++ a ++ op.sign :: b ++ ds) (.binary op l r))
    (hcs : Layered left cs l) (hds : Layered right ds r)
    (hl : Replaceable inner s token d left cs l) (hr : Replaceable inner s token d right ds r) :
    Replaceable inner s token d level (cs ++ a ++ op.sign :: b ++ ds) (.binary op l r) := by
  intro front rest hsplit htoken
  have hne : a ++ op.sign :: b ≠ [] := by simp
  have hapart := apart_sign op ha hb
  rw [List.append_assoc cs] at hsplit
  rcases htoken.exists_in_parts hne hapart hsplit with ⟨rest', rfl, hcs'⟩ | ⟨front', rfl, hds'⟩
  · rw [List.append_assoc] at htoken
    obtain ⟨hliteral, hlayered⟩ := hl front rest' hcs' htoken.of_append_right
    rw [Expr.replace_left hliteral]
    refine ⟨Expr.getElem?_literals_left hliteral, ?_⟩
    have hwhole := hjoin hlayered hds
    simp only [List.append_assoc, List.cons_append] at hwhole ⊢
    exact hwhole
  · obtain ⟨hliteral, hlayered⟩ := hr front' rest hds' htoken.of_append_left
    -- as many literals come before it in the left operand as there are numerals
    rw [numbers_join hne hapart, List.length_append, hcs.forall₂_numbers.length_eq,
      Expr.replace_right]
    refine ⟨Expr.getElem?_literals_right hliteral, ?_⟩
    have hwhole := hjoin hcs hlayered
    simp only [List.append_assoc, List.cons_append] at hwhole ⊢
    exact hwhole

theorem widen (hwiden : ∀ {cs e}, Layered level cs e → Layered level' cs e)
    (h : Replaceable inner s token d level cs e) : Replaceable inner s token d level' cs e := by
  intro front rest hsplit htoken
  obtain ⟨hliteral, hlayered⟩ := h front rest hsplit htoken
  exact ⟨hliteral, hwiden hlayered⟩

/-- Each constructor of the grammar keeps its numerals replaceable. -/
theorem of_layered (hs : Layered .text inner s) (h : Layered level cs e) :
    Replaceable inner s token d level cs e := by
  induction h with
  | literal h => exact of_literal hs h
  | group _ ih =>
    exact surround id (apart_cons rfl apart_nil) (apart_cons rfl apart_nil) (fun _ => rfl)
      (fun _ _ => rfl) .group ih
  | unsigned _ ih => exact ih.widen .unsigned
  | minus hb _ ih =>
    rw [← List.append_nil ('-' :: _ ++ _)]
    refine surround .neg (apart_cons rfl (apart_of_blank hb)) apart_nil (fun _ => rfl)
      (fun _ _ => rfl) (fun h => ?_) ih
    rw [List.append_nil]
    exact .minus hb h
  | factor _ ih => exact ih.widen .factor
  | product hop hl ha hb hr ihl ihr =>
    exact join ha hb (fun hl hr => .product hop hl ha hb hr) hl hr ihl ihr
  | term _ ih => exact ih.widen .term
  | sum hop hl ha hb hr ihl ihr =>
    exact join ha hb (fun hl hr => .sum hop hl ha hb hr) hl hr ihl ihr
  | text ho _ hb ih =>
    exact surround id (apart_opening ho) (apart_of_blank hb) (fun _ => rfl)
      (fun _ _ => rfl) (fun h => .text ho h hb) ih

end Replaceable

/-! ## Parsing a text with parentheses put in -/

namespace Expr

variable {text : String} {t : Expr Binary64}

theorem toList_group (a : String) : ("(" ++ a ++ ")").toList = '(' :: a.toList ++ [')'] := by
  simp [String.toList_append]

/-- The numerals of a text that is parsed are the literals, in the same order. -/
theorem forall₂_literals (h : parse text = .ok t) :
    List.Forall₂ (fun cs v => ∃ d, Literal cs d ∧ Binary64.ofDecimal d = v) (numbers text.toList)
      t.literals := by
  obtain ⟨e, hlayered, -, rfl⟩ := parse_eq_ok_iff_layered.mp h
  rw [literals_map, List.forall₂_map_right_iff]
  exact hlayered.forall₂_numbers.imp fun _ d hd => ⟨d, hd, rfl⟩

theorem parse_replaced {u x v a : String} {d : Decimal} {s : Expr Binary64}
    (htoken : Token u.toList x.toList v.toList d) (ht : parse (u ++ x ++ v) = .ok t)
    (hs : parse a = .ok s) (hnests : NestsWithin 256 (u ++ ("(" ++ a ++ ")") ++ v).toList) :
    t.literals[(numbers u.toList).length]? = some (.ofDecimal d) ∧
      parse (u ++ ("(" ++ a ++ ")") ++ v) = .ok (t.replace (numbers u.toList).length s) := by
  obtain ⟨e, he, -, rfl⟩ := parse_eq_ok_iff_layered.mp ht
  obtain ⟨inner, hinner, -, rfl⟩ := parse_eq_ok_iff_layered.mp hs
  rw [String.toList_append, String.toList_append] at he
  obtain ⟨hliteral, hlayered⟩ := Replaceable.of_layered hinner he _ _ rfl htoken
  constructor
  · rw [literals_map, List.getElem?_map, hliteral, Option.map_some]
  · refine parse_eq_ok_iff_layered.mpr ⟨_, ?_, hnests, replace_map _ _ _ _⟩
    rwa [String.toList_append, String.toList_append, toList_group]

/-- In parentheses, a text that is parsed is a primary. -/
theorem exists_primary {a : String} {s : Expr Binary64} (h : parse a = .ok s) :
    ∃ e, Layered .primary ("(" ++ a ++ ")").toList e ∧ e.map Binary64.ofDecimal = s := by
  obtain ⟨e, hlayered, -, hmap⟩ := parse_eq_ok_iff_layered.mp h
  rw [toList_group]
  exact ⟨e, .group hlayered, hmap⟩

/-- **`parse_substitution`** — the numerals of a text that is parsed are the literals of its expression, from
left to right, and in the place of each numeral there may stand a text in parentheses: what is parsed then is
the expression with that literal replaced. A text in parentheses is parsed as by itself, behind a minus sign
as its negation, and the sum of two as the sum of their expressions, whatever sign they start with. -/
theorem parse_substitution :
    (∀ text t, parse text = .ok t →
      List.Forall₂ (fun cs v => ∃ d, Literal cs d ∧ Binary64.ofDecimal d = v) (numbers text.toList)
        t.literals) ∧
    (∀ u x v a d t s, Token u.toList x.toList v.toList d → parse (u ++ x ++ v) = .ok t →
      parse a = .ok s → NestsWithin 256 (u ++ ("(" ++ a ++ ")") ++ v).toList →
      t.literals[(numbers u.toList).length]? = some (.ofDecimal d) ∧
        parse (u ++ ("(" ++ a ++ ")") ++ v) = .ok (t.replace (numbers u.toList).length s)) ∧
    ∀ a s, parse a = .ok s → NestsWithin 256 ("(" ++ a ++ ")").toList →
      parse ("(" ++ a ++ ")") = .ok s ∧ parse ("-" ++ ("(" ++ a ++ ")")) = .ok (neg s) ∧
        ∀ b s', parse b = .ok s' → NestsWithin 256 ("(" ++ b ++ ")").toList →
          parse (("(" ++ a ++ ")") ++ "+" ++ ("(" ++ b ++ ")")) = .ok (binary .add s s') := by
  refine ⟨fun _ _ => forall₂_literals, fun _ _ _ _ _ _ _ => parse_replaced, ?_⟩
  intro a s hs hnests
  obtain ⟨e, hprimary, rfl⟩ := exists_primary hs
  refine ⟨?_, ?_, ?_⟩
  · exact parse_eq_ok_iff_layered.mpr ⟨e, hprimary.of_primary .text, hnests, rfl⟩
  · have hneg := (Layered.minus blank_nil hprimary).sum_of_factor.text_of_sum
    have hnests' := (nestsWithin_cons_iff (c := '-') (by decide) (by decide)).mpr hnests
    refine parse_eq_ok_iff_layered.mpr ⟨.neg e, ?_, ?_, rfl⟩
    · rwa [String.toList_append]
    · rwa [String.toList_append]
  · intro b s' hs' hnests'
    obtain ⟨e', hprimary', rfl⟩ := exists_primary hs'
    have hsum := Layered.sum (show Op.add = .add ∨ Op.add = .sub from .inl rfl) (hprimary.of_primary .sum)
      blank_nil blank_nil (hprimary'.of_primary .term)
    have hjoin := nestsWithin_join .add hprimary.balanced hnests hnests'
    rw [List.append_nil, List.append_assoc] at hsum
    rw [Nat.max_self] at hjoin
    refine parse_eq_ok_iff_layered.mpr ⟨.binary .add e e', ?_, ?_, rfl⟩
    · rw [String.toList_append, String.toList_append, List.append_assoc]
      exact hsum.text_of_sum
    · rw [String.toList_append, String.toList_append, List.append_assoc]
      exact hjoin

/-- A difference behind a plus sign goes in the place of a factor behind a minus sign. -/
theorem parse_substitution_of_difference :
    let one := literal (.ofDecimal ⟨1, 0⟩)
    let difference := binary .sub one (literal (.ofDecimal ⟨4, 0⟩))
    let around (e : Expr Binary64) :=
      binary .sub (binary .mul (literal (.ofDecimal ⟨2, 0⟩)) (neg e)) one
    parse "+1-4" = .ok difference ∧
      parse "2*-3-1" = .ok (around (literal (.ofDecimal ⟨3, 0⟩))) ∧
      parse "2*-(+1-4)-1" = .ok (around difference) ∧
      parse "-(+1-4)" = .ok (neg difference) ∧
      parse "(+1-4)+(+1-4)" = .ok (binary .add difference difference) := by
  intro one difference around
  have hdifference : parse "+1-4" = .ok difference :=
    parse_eq_ok_iff.mpr ⟨.binary .sub (.literal ⟨1, 0⟩) (.literal ⟨4, 0⟩), rfl, rfl⟩
  have haround : parse "2*-3-1" = .ok (around (literal (.ofDecimal ⟨3, 0⟩))) :=
    parse_eq_ok_iff.mpr ⟨.binary .sub (.binary .mul (.literal ⟨2, 0⟩) (.neg (.literal ⟨3, 0⟩)))
      (.literal ⟨1, 0⟩), rfl, rfl⟩
  have htoken : Token "2*-".toList "3".toList "-1".toList ⟨3, 0⟩ := by
    refine ⟨.whole (List.cons_ne_nil _ _) (digits_singleton rfl), fun c hc => ?_, fun c hc => ?_⟩
    · obtain rfl := Option.some.inj hc
      rfl
    · obtain rfl := Option.some.inj hc
      rfl
  have hdeep : NestsWithin 256 "2*-(+1-4)-1".toList :=
    (nesting?_le_iff (show _ = some 1 from rfl) 256).mp (by decide)
  have hgroup : NestsWithin 256 "(+1-4)".toList :=
    (nesting?_le_iff (show _ = some 1 from rfl) 256).mp (by decide)
  obtain ⟨-, hreplaced, hparts⟩ := parse_substitution
  obtain ⟨-, hneg, hsum⟩ := hparts _ _ hdifference hgroup
  obtain ⟨-, hwhole⟩ := hreplaced _ _ _ _ _ _ _ htoken haround hdifference hdeep
  exact ⟨hdifference, haround, hwhole, hneg, hsum _ _ hdifference hgroup⟩

end Expr

end Reckoner
