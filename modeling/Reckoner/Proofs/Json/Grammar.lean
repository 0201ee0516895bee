/-
# Reckoner.Proofs.Json.Grammar — the JSON texts, and the values that they are written for.

The grammar is over characters and says nothing of how a text is read. `Number` has the parts of a
number one behind the other, `Contents` has what stands between the quotes of a string piece by piece,
and `Value` nests: the elements of an array and the fields of an object are `Separated` by commas, with
blanks around each. A text is one value with blanks around it.

White space is what may stand between the tokens of an expression, too: `Blank`, not Unicode's.
-/
import Reckoner.Json.Reading
import Reckoner.Proofs.Grammar

namespace Reckoner.Json

/-! ## Numbers -/

/-- **`Whole cs`** — the integer part of a number: a zero, or digits that do not start with one. -/
inductive Whole : List Char → Prop
  | zero : Whole ['0']
  | digits {d : Char} {ds : List Char} : d ≠ '0' → d.isDigit = true → Digits ds → Whole (d :: ds)

/-- **`Fraction cs`** — a point and digits, or nothing. -/
inductive Fraction : List Char → Prop
  | none : Fraction []
  | some {ds : List Char} : ds ≠ [] → Digits ds → Fraction ('.' :: ds)

/-- **`ExponentSign cs`** — a sign, or nothing. -/
def ExponentSign (cs : List Char) : Prop := cs = [] ∨ cs = ['+'] ∨ cs = ['-']

/-- **`Exponent cs`** — a mark and an integer, which may have a sign of either kind, or nothing. -/
inductive Exponent : List Char → Prop
  | none : Exponent []
  | some {mark : Char} {sign ds : List Char} : mark = 'e' ∨ mark = 'E' → ExponentSign sign →
      ds ≠ [] → Digits ds → Exponent (mark :: (sign ++ ds))

/-- **`Number cs`** — the spelling of a number. -/
inductive Number : List Char → Prop
  | unsigned {w f e : List Char} : Whole w → Fraction f → Exponent e → Number (w ++ f ++ e)
  | minus {w f e : List Char} : Whole w → Fraction f → Exponent e → Number ('-' :: (w ++ f ++ e))

/-! ## Strings -/

/-- **`hexValue? code cs`** — the number whose hexadecimal digits are those of `code` and then `cs`. -/
def hexValue? (code : Nat) : List Char → Option Nat
  | [] => some code
  | c :: cs => (hexDigit? c).bind fun d => hexValue? (16 * code + d) cs

/-- **`Contents cs ps`** — `cs` are the characters between the quotes of a string with the pieces `ps`. -/
inductive Contents : List Char → List Piece → Prop
  | nil : Contents [] []
  | character {c : Char} {cs : List Char} {ps : List Piece} : c ≠ '"' → c ≠ '\\' → 0x20 ≤ c.toNat →
      Contents cs ps → Contents (c :: cs) (.character c :: ps)
  | escape {c d : Char} {cs : List Char} {ps : List Piece} : escaped? c = some d →
      Contents cs ps → Contents ('\\' :: c :: cs) (.character d :: ps)
  | unit {hs cs : List Char} {code : Nat} {ps : List Piece} : hs.length = 4 →
      hexValue? 0 hs = some code → Contents cs ps →
      Contents ('\\' :: 'u' :: (hs ++ cs)) (.unit code :: ps)

/-! ## Values -/

section

variable {α : Type}

/-- **`Padded P cs x`** — what is written for `x`, with blanks around it. -/
inductive Padded (P : List Char → α → Prop) : List Char → α → Prop
  | mk {a cs b : List Char} {x : α} : Blank a → P cs x → Blank b → Padded P (a ++ cs ++ b) x

/-- **`Separated P cs xs`** — what is written for each of `xs`, one at least, with commas between. -/
inductive Separated (P : List Char → α → Prop) : List Char → List α → Prop
  | one {cs : List Char} {x : α} : P cs x → Separated P cs [x]
  | more {cs ds : List Char} {x : α} {xs : List α} : P cs x → Separated P ds xs →
      Separated P (cs ++ ',' :: ds) (x :: xs)

end

/-- **`Field P cs m`** — the name and the value of a member, with a colon between them. -/
inductive Field (P : List Char → Json → Prop) : List Char → Member → Prop
  | mk {a ns b cs : List Char} {name : List Piece} {v : Json} : Blank a → Contents ns name →
      Blank b → Padded P cs v → Field P (a ++ '"' :: (ns ++ '"' :: (b ++ ':' :: cs))) (name, v)

/-- **`Value cs v`** — `cs` is written for the JSON value `v`. -/
inductive Value : List Char → Json → Prop
  | null : Value ['n', 'u', 'l', 'l'] .null
  | yes : Value ['t', 'r', 'u', 'e'] (.boolean true)
  | no : Value ['f', 'a', 'l', 's', 'e'] (.boolean false)
  | number {cs : List Char} : Number cs → Value cs (.number cs)
  | string {cs : List Char} {ps : List Piece} : Contents cs ps → Value ('"' :: (cs ++ ['"'])) (.string ps)
  | emptyArray {b : List Char} : Blank b → Value ('[' :: (b ++ [']'])) (.array [])
  | array {cs : List Char} {vs : List Json} : Separated (Padded Value) cs vs →
      Value ('[' :: (cs ++ [']'])) (.array vs)
  | emptyObject {b : List Char} : Blank b → Value ('{' :: (b ++ ['}'])) (.object [])
  | object {cs : List Char} {ms : List Member} : Separated (Field Value) cs ms →
      Value ('{' :: (cs ++ ['}'])) (.object ms)

/-- **`Text cs v`** — `cs` is a JSON text of the value `v`. -/
def Text : List Char → Json → Prop := Padded Value

end Reckoner.Json
