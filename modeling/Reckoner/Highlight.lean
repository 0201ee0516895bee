/-
# Reckoner.Highlight — the part of an expression that a failure is about.

A highlight splits the displayed expression around that part. What is looked for depends on the wording
of the failure alone, and any wording may be asked about: one that speaks of unbalanced parentheses,
of a division by zero, and of an invalid expression is searched for in that order, and a search that
finds nothing leaves the turn to the next. This is a look-up and no general diagnosis: a computed zero
divisor, for instance, is not found.

A search finds a `Span`, counted in bytes, and the text is cut at its two ends. Nothing in the search says
that these are not inside a character, where a text cannot be cut. That they never are is a theorem
(`Reckoner.Proofs.Highlight.Parts`).
-/
import Reckoner.Text.Bytes
import Reckoner.Text.Search

namespace Reckoner

/-- **`Highlight`** — an expression split around a part of it. -/
structure Highlight where
  before : String
  focus : String
  after : String
  deriving DecidableEq, Repr

/-- **`Span`** — a part of a text, by the offset at which it starts and its length, both in bytes. -/
structure Span where
  start : Nat
  length : Nat
  deriving DecidableEq, Repr

/-- **`openFrom offset stack cs`** — the offsets of the parentheses that are open after `cs`, which starts
at `offset`, the innermost first. A `)` with nothing to close is passed over. -/
def openFrom (offset : Nat) (stack : List Nat) : List Char → List Nat
  | [] => stack
  | c :: cs =>
    openFrom (offset + c.utf8Size)
      (if c = '(' then offset :: stack else if c = ')' then stack.tail else stack) cs

/-- **`lastUnclosed? cs`** — the offset of the last parenthesis left open, looked for only in a text with
more `(` than `)`. -/
def lastUnclosed? (cs : List Char) : Option Nat :=
  if cs.count ')' < cs.count '(' then (openFrom 0 [] cs).head? else none

/-- **`firstSpan? pattern admissible cs`** — where the first occurrence of the pattern stands that is
followed by an admissible rest. -/
def firstSpan? (pattern : List Char) (admissible : List Char → Bool) (cs : List Char) : Option Span :=
  (cutFirst pattern admissible cs).map fun (before, _) => ⟨byteLength before, byteLength pattern⟩

namespace Highlight

/-- **`split? cs span`** — the text split around a span, none when a cut would be inside a character. -/
def split? (cs : List Char) (span : Span) : Option Highlight :=
  (cutAt? span.start cs).bind fun (before, rest) =>
    (cutAt? span.length rest).map fun (focus, after) =>
      ⟨.ofList before, .ofList focus, .ofList after⟩

/-- The last parenthesis left open. -/
def unclosed? (cs : List Char) : Option Span := (lastUnclosed? cs).map fun start => ⟨start, 1⟩

/-- The first division by a zero without a fraction: `÷0` that no point follows. -/
def zeroDivisor? (cs : List Char) : Option Span :=
  firstSpan? ['÷', '0'] (·.head? != some '.') cs

/-- The first empty pair of parentheses. -/
def emptyGroup? (cs : List Char) : Option Span := firstSpan? ['(', ')'] (fun _ => true) cs

/-- **`span? expression message`** — where that is which is to be highlighted in a displayed expression
that failed with the given wording. -/
def span? (expression message : String) : Option Span :=
  let cs := expression.toList
  let speaksOf (subject : String) := occursIn subject.toList message.toList
  (if speaksOf "Unbalanced parentheses" then unclosed? cs else none) <|>
  (if speaksOf "Division by zero" then zeroDivisor? cs else none) <|>
  (if speaksOf "Invalid expression" then emptyGroup? cs else none)

/-- **`locate expression message`** — the displayed expression split around what is to be highlighted. -/
def locate (expression message : String) : Option Highlight :=
  (span? expression message).bind (split? expression.toList)

end Highlight

end Reckoner
