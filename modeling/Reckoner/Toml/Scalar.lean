/-
# Reckoner.Toml.Scalar — the TOML values that are written as one bare word.

Numbers, truth values, dates and times are words without blanks, apart from the single space that may
stand between a date and a time; the reader of a document cuts such words out, and here they are
classified whole. An integer has to fit in 64 bits with a sign. A float may be as small as it likes and
may be any finite number; one that rounds to infinity is refused when it is positive, and is the
negative infinity when it is negative.

Dates are checked against the calendar and times against the clock, where a second may be the
sixtieth.
-/
import Reckoner.Number.Decimal
import Reckoner.Toml.Value

namespace Reckoner.Toml

attribute [local instance] corePow

/-! ## Integers -/

/-- **`digitOf? base c`** — the value of a digit, in either case, below the base. -/
def digitOf? (base : Nat) (c : Char) : Option Nat :=
  let n :=
    if c.isDigit then c.toNat - '0'.toNat
    else if 'a' ≤ c ∧ c ≤ 'z' then c.toNat - 'a'.toNat + 10
    else if 'A' ≤ c ∧ c ≤ 'Z' then c.toNat - 'A'.toNat + 10
    else base
  if n < base then some n else none

/-- **`digitsAfter base n cs`** — the number `n` continued by the digits `cs`, where an underscore may
stand between two digits. -/
def digitsAfter (base n : Nat) : List Char → Option Nat
  | [] => some n
  | '_' :: c :: cs => (digitOf? base c).bind fun d => digitsAfter base (base * n + d) cs
  | c :: cs => (digitOf? base c).bind fun d => digitsAfter base (base * n + d) cs

/-- **`digits? base cs`** — the number written with the digits `cs`, of which there is at least one. -/
def digits? (base : Nat) : List Char → Option Nat
  | [] => none
  | c :: cs => (digitOf? base c).bind fun d => digitsAfter base d cs

/-- **`whole? cs`** — a decimal number that does not start with a zero, or is one. -/
def whole? : List Char → Option Nat
  | ['0'] => some 0
  | '0' :: _ => none
  | cs => digits? 10 cs

/-- **`unsign cs`** — whether a minus sign stands in front, and what follows the sign, if any. -/
def unsign : List Char → Bool × List Char
  | '-' :: cs => (true, cs)
  | '+' :: cs => (false, cs)
  | cs => (false, cs)

/-- **`inRange? i`** — an integer that fits in 64 bits with a sign. -/
def inRange? (i : Int) : Option Int := if -2 ^ (63 : Nat) ≤ i ∧ i < 2 ^ (63 : Nat) then some i else none

/-- **`integer? cs`** — an integer: decimal with an optional sign, or in base 16, 8 or 2 without one. -/
def integer? (cs : List Char) : Option Int :=
  match cs with
  | '0' :: 'x' :: cs => (digits? 16 cs).bind fun n => inRange? n
  | '0' :: 'o' :: cs => (digits? 8 cs).bind fun n => inRange? n
  | '0' :: 'b' :: cs => (digits? 2 cs).bind fun n => inRange? n
  | cs =>
    let (negative, cs) := unsign cs
    (whole? cs).bind fun n => inRange? (if negative then -n else n)

/-! ## Floats -/

/-- **`exponent? cs`** — a decimal exponent with an optional sign; zeros may stand in front. -/
def exponent? (cs : List Char) : Option Int :=
  let (negative, cs) := unsign cs
  (digits? 10 cs).map fun n => if negative then -n else n

/-- **`isMark c`** — the letter in front of an exponent. -/
def isMark (c : Char) : Bool := c == 'e' || c == 'E'

/-- **`scientific? negative cs`** — an unsigned float with a fraction, an exponent, or both. -/
def scientific? (negative : Bool) (cs : List Char) : Option Binary64 := do
  let (mantissa, rest) := cs.span fun c => !isMark c
  let exponent ← match rest with
    | [] => some 0
    | _ :: cs => exponent? cs
  let (front, rest') := mantissa.span (· != '.')
  let whole ← whole? front
  match rest' with
  | [] => if rest.isEmpty then none else some (.ofScientific negative whole exponent)
  | _ :: fraction =>
    let _ ← digits? 10 fraction
    let places := (fraction.filter (· != '_')).length
    let digits ← digitsAfter 10 whole fraction
    return .ofScientific negative digits (exponent - places)

/-- **`float? cs`** — a float; `inf` and `nan` are floats too, with an optional sign. -/
def float? (cs : List Char) : Option Binary64 :=
  let (negative, cs) := unsign cs
  if cs = ['i', 'n', 'f'] then some (.infinite negative)
  else if cs = ['n', 'a', 'n'] then some .nan
  else (scientific? negative cs).filter (· != .infinite false)

/-! ## Dates and times -/

/-- **`field? low high cs`** — a number of two digits between two bounds. -/
def field? (low high : Nat) : List Char → Option Nat
  | [a, b] =>
    if a.isDigit && b.isDigit then
      let n := digitsValue [a, b]
      if low ≤ n ∧ n ≤ high then some n else none
    else none
  | _ => none

/-- **`daysIn year month`** — how many days a month has. -/
def daysIn (year month : Nat) : Nat :=
  if month = 2 then
    if year % 4 = 0 ∧ (year % 100 ≠ 0 ∨ year % 400 = 0) then 29 else 28
  else if month = 4 ∨ month = 6 ∨ month = 9 ∨ month = 11 then 30
  else 31

/-- **`isDate cs`** — a day of the calendar, as in `1979-05-27`. -/
def isDate : List Char → Bool
  | [y₁, y₂, y₃, y₄, '-', m₁, m₂, '-', d₁, d₂] =>
    if [y₁, y₂, y₃, y₄].all Char.isDigit then
      match field? 1 12 [m₁, m₂] with
      | some month => (field? 1 (daysIn (digitsValue [y₁, y₂, y₃, y₄]) month) [d₁, d₂]).isSome
      | none => false
    else false
  | _ => false

/-- **`afterTime? cs`** — what follows a time of day, as in `07:32:00.5`, with an optional fraction of
a second. -/
def afterTime? : List Char → Option (List Char)
  | h₁ :: h₂ :: ':' :: m₁ :: m₂ :: ':' :: s₁ :: s₂ :: rest => do
    let _ ← field? 0 23 [h₁, h₂]
    let _ ← field? 0 59 [m₁, m₂]
    let _ ← field? 0 60 [s₁, s₂]
    match rest with
    | '.' :: fraction =>
      let (digits, rest) := fraction.span Char.isDigit
      if digits.isEmpty then none else some rest
    | _ => some rest
  | _ => none

/-- **`isTime cs`** — a time of day. -/
def isTime (cs : List Char) : Bool := afterTime? cs == some []

/-- **`isOffset cs`** — no offset, `Z`, or a number of hours and minutes with a sign. -/
def isOffset : List Char → Bool
  | [] => true
  | ['Z'] => true
  | ['z'] => true
  | [sign, h₁, h₂, ':', m₁, m₂] =>
    (sign == '+' || sign == '-') && (field? 0 23 [h₁, h₂]).isSome && (field? 0 59 [m₁, m₂]).isSome
  | _ => false

/-- **`isMoment cs`** — a time of day with an optional offset, as it may follow a date. -/
def isMoment (cs : List Char) : Bool := (afterTime? cs).any isOffset

/-- **`isDatetime cs`** — a date, a time, or a date and a time joined by a letter `T` or a space. -/
def isDatetime (cs : List Char) : Bool :=
  isTime cs || isDate cs ||
    match cs.drop 10 with
    | delimiter :: moment =>
      isDate (cs.take 10) && (delimiter == 'T' || delimiter == 't' || delimiter == ' ') &&
        isMoment moment
    | [] => false

/-! ## Words -/

/-- **`isWordCharacter c`** — a character that a bare word is made of. -/
def isWordCharacter (c : Char) : Bool :=
  c.isAlphanum || c == '_' || c == '+' || c == '-' || c == '.' || c == ':'

/-- **`scalar? word`** — the value of a bare word. -/
def scalar? (word : List Char) : Option Value :=
  if word = ['t', 'r', 'u', 'e'] then some (.boolean true)
  else if word = ['f', 'a', 'l', 's', 'e'] then some (.boolean false)
  else if isDatetime word then some .datetime
  else
    match integer? word with
    | some i => some (.integer i)
    | none => (float? word).map .float

end Reckoner.Toml
