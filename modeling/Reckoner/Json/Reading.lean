/-
# Reckoner.Json.Reading — reading a JSON text, one character at a time.

The reader is a deterministic machine with a stack. Its state, `Scan`, says what the next character may
be and carries what has been read of the value in hand; the `Frame`s under it are the arrays and
objects that this value stands in, the innermost first. The stack lives in the data, so there is no
limit on nesting, and no character is looked at twice.

The grammar is strict: no comma in front of a closing bracket, no leading zeros, no control character
in a string, and nothing but white space around the one value of a text.
-/
import Reckoner.Json.Basic
import Reckoner.Text.Blank

namespace Reckoner.Json

/-- A member of an object. -/
abbrev Member := List Piece × Json

/-- **`Frame`** — an array or object around the value in hand, with what it holds already, the last
first. -/
inductive Frame
  | item (items : List Json)
  | member (members : List Member) (name : List Piece)

/-- **`Role`** — what a string is: a value, or the name of a member after the given ones. -/
inductive Role
  | value
  | name (members : List Member)

/-- **`Spot`** — where in a string the reader stands. -/
inductive Spot
  /-- Between pieces. -/
  | plain
  /-- After a backslash. -/
  | escape
  /-- After `count` of the four digits of an escape `\u`. -/
  | digits (count code : Nat)

/-- **`Part`** — which part of a number the reader stands in. -/
inductive Part
  | sign
  | zero
  | whole
  | point
  | fraction
  | mark
  | markSign
  | exponent
  deriving DecidableEq

/-- **`part.isComplete`** — a number may end here. -/
def Part.isComplete : Part → Bool
  | .zero | .whole | .fraction | .exponent => true
  | .sign | .point | .mark | .markSign => false

/-- **`part.next? c`** — the part that the character `c` of a number leads to. -/
def Part.next? (part : Part) (c : Char) : Option Part :=
  let isMark := c == 'e' || c == 'E'
  match part with
  | .sign => if c = '0' then some .zero else if c.isDigit then some .whole else none
  | .zero => if c = '.' then some .point else if isMark then some .mark else none
  | .whole =>
    if c.isDigit then some .whole
    else if c = '.' then some .point
    else if isMark then some .mark
    else none
  | .point => if c.isDigit then some .fraction else none
  | .fraction => if c.isDigit then some .fraction else if isMark then some .mark else none
  | .mark =>
    if c = '+' || c = '-' then some .markSign else if c.isDigit then some .exponent else none
  | .markSign | .exponent => if c.isDigit then some .exponent else none

/-- **`Scan`** — what the characters read so far amount to. -/
inductive Scan
  /-- A value must start. -/
  | value (frames : List Frame)
  /-- After `[`: a value may start, or the array ends. -/
  | firstItem (frames : List Frame)
  /-- After `{`: a name may start, or the object ends. -/
  | firstName (frames : List Frame)
  /-- After a comma in an object: a name must start. -/
  | nextName (members : List Member) (frames : List Frame)
  /-- After a name. -/
  | colon (members : List Member) (name : List Piece) (frames : List Frame)
  /-- In a string, its pieces so far with the last first. -/
  | string (role : Role) (pieces : List Piece) (spot : Spot) (frames : List Frame)
  /-- In a number, its characters so far with the last first. -/
  | number (part : Part) (spelling : List Char) (frames : List Frame)
  /-- In one of the three words, with the characters to come. -/
  | word (result : Json) (rest : List Char) (frames : List Frame)
  /-- After a value. -/
  | after (value : Json) (frames : List Frame)

/-- **`hexDigit? c`** — the value of a hexadecimal digit. -/
def hexDigit? (c : Char) : Option Nat :=
  if c.isDigit then some (c.toNat - '0'.toNat)
  else if 'a' ≤ c ∧ c ≤ 'f' then some (c.toNat - 'a'.toNat + 10)
  else if 'A' ≤ c ∧ c ≤ 'F' then some (c.toNat - 'A'.toNat + 10)
  else none

/-- **`escaped? c`** — the character that a backslash and `c` stand for. -/
def escaped? (c : Char) : Option Char :=
  if c = '"' ∨ c = '\\' ∨ c = '/' then some c
  else if c = 'b' then some '\x08'
  else if c = 'f' then some '\x0c'
  else if c = 'n' then some '\n'
  else if c = 'r' then some '\r'
  else if c = 't' then some '\t'
  else none

namespace Scan

/-- **`startValue frames c`** — the first character of a value. -/
def startValue (frames : List Frame) (c : Char) : Option Scan :=
  if c = '{' then some (firstName frames)
  else if c = '[' then some (firstItem frames)
  else if c = '"' then some (string .value [] .plain frames)
  else if c = 't' then some (word (.boolean true) ['r', 'u', 'e'] frames)
  else if c = 'f' then some (word (.boolean false) ['a', 'l', 's', 'e'] frames)
  else if c = 'n' then some (word .null ['u', 'l', 'l'] frames)
  else if c = '-' then some (number .sign [c] frames)
  else (Part.sign.next? c).map fun part => number part [c] frames

/-- **`stepAfter value frames c`** — the first character after a value. -/
def stepAfter (v : Json) (frames : List Frame) (c : Char) : Option Scan :=
  if isBlank c then some (after v frames)
  else
    match frames with
    | [] => none
    | .item items :: frames =>
      if c = ',' then some (value (.item (v :: items) :: frames))
      else if c = ']' then some (after (.array (v :: items).reverse) frames)
      else none
    | .member members name :: frames =>
      if c = ',' then some (nextName ((name, v) :: members) frames)
      else if c = '}' then some (after (.object ((name, v) :: members).reverse) frames)
      else none

/-- **`stepString role pieces spot frames c`** — one more character of a string. -/
def stepString (role : Role) (pieces : List Piece) (spot : Spot) (frames : List Frame) (c : Char) :
    Option Scan :=
  match spot with
  | .plain =>
    if c = '"' then
      match role with
      | .value => some (after (.string pieces.reverse) frames)
      | .name members => some (colon members pieces.reverse frames)
    else if c = '\\' then some (string role pieces .escape frames)
    else if c.toNat < 0x20 then none
    else some (string role (.character c :: pieces) .plain frames)
  | .escape =>
    if c = 'u' then some (string role pieces (.digits 0 0) frames)
    else (escaped? c).map fun d => string role (.character d :: pieces) .plain frames
  | .digits count code =>
    (hexDigit? c).map fun d =>
      if count = 3 then string role (.unit (16 * code + d) :: pieces) .plain frames
      else string role pieces (.digits (count + 1) (16 * code + d)) frames

/-- **`scan.step c`** — the state after one more character, none if no JSON text goes on with it. -/
def step (scan : Scan) (c : Char) : Option Scan :=
  match scan with
  | value frames => if isBlank c then some scan else startValue frames c
  | firstItem frames =>
    if isBlank c then some scan
    else if c = ']' then some (after (.array []) frames)
    else startValue (.item [] :: frames) c
  | firstName frames =>
    if isBlank c then some scan
    else if c = '}' then some (after (.object []) frames)
    else if c = '"' then some (string (.name []) [] .plain frames)
    else none
  | nextName members frames =>
    if isBlank c then some scan
    else if c = '"' then some (string (.name members) [] .plain frames)
    else none
  | colon members name frames =>
    if isBlank c then some scan
    else if c = ':' then some (value (.member members name :: frames))
    else none
  | string role pieces spot frames => stepString role pieces spot frames c
  | number part spelling frames =>
    match part.next? c with
    | some part' => some (number part' (c :: spelling) frames)
    | none =>
      if part.isComplete then stepAfter (.number spelling.reverse) frames c else none
  | word result rest frames =>
    match rest with
    | [] => stepAfter result frames c
    | d :: rest =>
      if c = d then some (if rest.isEmpty then after result frames else word result rest frames)
      else none
  | after v frames => stepAfter v frames c

/-- **`scan.result?`** — the value, if the text may end here. -/
def result? : Scan → Option Json
  | after v [] => some v
  | number part spelling [] => if part.isComplete then some (.number spelling.reverse) else none
  | _ => none

/-- **`scan.run cs`** — the state after the characters `cs`. -/
def run (scan : Scan) : List Char → Option Scan
  | [] => some scan
  | c :: cs => (scan.step c).bind fun next => next.run cs

end Scan

/-- **`read cs`** — the value of a JSON text. -/
def read (cs : List Char) : Option Json := ((Scan.value []).run cs).bind Scan.result?

end Reckoner.Json
