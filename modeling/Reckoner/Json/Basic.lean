/-
# Reckoner.Json.Basic — JSON values, with their strings as they are written.

The strings of a JSON text need not be texts: an escape `\u` names a unit of UTF-16, and half of a
surrogate pair may stand alone. A value is well-formed all the same, and only who needs the text of a
string has to refuse it. So a string is kept as its list of `Piece`s, and `Piece.text?` is the text
they make, if they make one.

Numbers are kept as they are spelled. Members keep their order and may repeat a name.
-/

namespace Reckoner.Json

/-- **`Piece`** — a part of a JSON string: a character, or one UTF-16 unit named by an escape. -/
inductive Piece
  | character (c : Char)
  | unit (code : Nat)
  deriving DecidableEq, Repr

/-- **`isLeading code`** — the first unit of a surrogate pair. -/
def isLeading (code : Nat) : Bool := 0xD800 ≤ code && code ≤ 0xDBFF

/-- **`isTrailing code`** — the second unit of a surrogate pair. -/
def isTrailing (code : Nat) : Bool := 0xDC00 ≤ code && code ≤ 0xDFFF

/-- **`pair leading trailing`** — the character of a surrogate pair. -/
def pair (leading trailing : Nat) : Char :=
  .ofNat (0x10000 + (leading - 0xD800) * 0x400 + (trailing - 0xDC00))

/-- **`text? pieces`** — the text that a string stands for; none when a half of a surrogate pair is not
right beside the other half, both written as escapes. -/
def text? : List Piece → Option (List Char)
  | [] => some []
  | .character c :: rest => (text? rest).map (c :: ·)
  | .unit code :: rest =>
    if isTrailing code then none
    else if isLeading code then
      match rest with
      | .unit trailing :: rest =>
        if isTrailing trailing then (text? rest).map (pair code trailing :: ·) else none
      | _ => none
    else (text? rest).map (.ofNat code :: ·)

end Reckoner.Json

namespace Reckoner

/-- **`Json`** — a JSON value. -/
inductive Json
  | null
  | boolean (value : Bool)
  | number (spelling : List Char)
  | string (pieces : List Json.Piece)
  | array (items : List Json)
  | object (members : List (List Json.Piece × Json))

end Reckoner
