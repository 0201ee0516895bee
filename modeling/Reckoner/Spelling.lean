/-
# Reckoner.Spelling — the operators as they are displayed, and as they are evaluated.

A user sees `×` and `÷` and may write `%`; the evaluator reads `*` and `/` only. `toEvaluator` respells
a displayed expression. A percent sign becomes a division by one hundred right where it stands, with no
regard to what is around it. `toDisplay` goes back, and a percent sign does not come back.
-/

namespace Reckoner

/-- **`evaluatorSpelling c`** — the characters that the evaluator reads for a displayed one. -/
def evaluatorSpelling (c : Char) : List Char :=
  if c = '×' then ['*']
  else if c = '÷' then ['/']
  else if c = '%' then ['/', '1', '0', '0']
  else [c]

/-- **`displaySpelling c`** — the character that is displayed for one of the evaluator's. -/
def displaySpelling (c : Char) : Char :=
  if c = '*' then '×' else if c = '/' then '÷' else c

/-- **`toEvaluator text`** — a displayed expression in the evaluator's spelling. -/
def toEvaluator (text : String) : String := .ofList (text.toList.flatMap evaluatorSpelling)

/-- **`toDisplay text`** — an expression of the evaluator's in the displayed spelling. -/
def toDisplay (text : String) : String := .ofList (text.toList.map displaySpelling)

end Reckoner
