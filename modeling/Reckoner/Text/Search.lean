/-
# Reckoner.Text.Search — the first occurrence of a pattern in a text.

`cutFirst` splits a text around the first occurrence of a pattern whose continuation is admissible.
What stands before it and after it is returned, so the three parts concatenate to the text by
construction, and no position is counted.
-/

namespace Reckoner

/-- **`cutFirst pattern admissible cs`** — the parts of `cs` before and after the first occurrence of
`pattern` that is followed by an admissible rest. -/
def cutFirst (pattern : List Char) (admissible : List Char → Bool) :
    List Char → Option (List Char × List Char)
  | [] => if pattern.isEmpty && admissible [] then some ([], []) else none
  | c :: cs =>
    match (pattern.isPrefixOf? (c :: cs)).filter admissible with
    | some rest => some ([], rest)
    | none => (cutFirst pattern admissible cs).map fun (before, rest) => (c :: before, rest)

/-- **`occursIn pattern cs`** — `pattern` stands somewhere in `cs`. -/
def occursIn (pattern cs : List Char) : Bool := (cutFirst pattern (fun _ => true) cs).isSome

end Reckoner
