/-
# Reckoner.Toml.Reading — reading a TOML document.

A `Reader` takes a part off the front of the characters that are left. Repetition is written with
`Reader.loop`: each round either goes on, having taken something, or ends, so there are never more
rounds than characters. Values nest through arrays and inline tables, to a fixed depth and no deeper.

The document is first read as sections of assignments, without a look at what the keys mean;
`Table.ofSections?` then decides whether they make a document.
-/
import Reckoner.Toml.Scalar

namespace Reckoner.Toml

/-- **`Reader α`** — takes an `α` off the front of the characters that are left, if it can. -/
abbrev Reader := StateT (List Char) Option

namespace Reader

/-- The next character, which is not taken. -/
def peek : Reader (Option Char) := do return (← get).head?

/-- **`accept cs`** — takes `cs` if that is next, and says whether it was. -/
def accept (cs : List Char) : Reader Bool := do
  match cs.isPrefixOf? (← get) with
  | some rest => set rest; return true
  | none => return false

/-- **`expect cs`** — takes `cs`, which has to be next. -/
def expect (cs : List Char) : Reader Unit := do
  unless ← accept cs do failure

/-- **`takeWhile p`** — takes the characters up to the first without `p`. -/
def takeWhile (p : Char → Bool) : Reader (List Char) := do
  let (taken, rest) := (← get).span p
  set rest
  return taken

/-- Takes one character. -/
def take : Reader Char := do
  match ← get with
  | [] => failure
  | c :: cs => set cs; return c

/-- **`rounds body n state`** — at most `n` rounds of a loop. -/
def rounds {σ τ : Type} (body : σ → Reader (σ ⊕ τ)) : Nat → σ → Reader τ
  | 0, _ => failure
  | n + 1, state => do
    match ← body state with
    | .inl next => rounds body n next
    | .inr result => return result

/-- **`loop body state`** — repeats `body` until it has a result. Every other round has to take a
character. -/
def loop {σ τ : Type} (body : σ → Reader (σ ⊕ τ)) (state : σ) : Reader τ := do
  rounds body ((← get).length + 1) state

end Reader

open Reader

/-! ## White space and comments -/

/-- **`isSpace c`** — a space or a tab. -/
def isSpace (c : Char) : Bool := c == ' ' || c == '\t'

/-- **`isText c`** — a character that may stand in a comment or, apart from delimiters, in a string: a
tab, or no control character. -/
def isText (c : Char) : Bool := c == '\t' || (0x20 ≤ c.toNat && c.toNat != 0x7F)

/-- Takes spaces and tabs. -/
def spaces : Reader Unit := do
  let _ ← takeWhile isSpace

/-- Takes the end of a line, if that is next, and says whether it was. -/
def newline : Reader Bool := do
  if ← accept ['\n'] then return true else accept ['\r', '\n']

/-- Takes a comment, if one is next. -/
def comment : Reader Unit := do
  if ← accept ['#'] then
    let _ ← takeWhile isText

/-- Takes what may stand after the last token of a line, and the end of the line or of the document. -/
def lineEnd : Reader Unit := do
  spaces
  comment
  unless ← newline do
    unless (← peek).isNone do failure

/-- Takes white space, comments and ends of lines. -/
def gap : Reader Unit :=
  loop (fun (_ : Unit) => do
    let before := (← get).length
    spaces
    comment
    let _ ← newline
    if (← get).length < before then return .inl () else return .inr ()) ()

/-! ## Strings -/

/-- **`code count`** — takes so many hexadecimal digits, which name a character. -/
def code (count : Nat) : Reader Char := do
  let digits := (← get).take count
  set ((← get).drop count)
  match digits.mapM (digitOf? 16) with
  | some ds =>
    let n := ds.foldl (fun n d => 16 * n + d) 0
    if ds.length = count ∧ n.isValidChar then return .ofNat n else failure
  | none => failure

/-- Takes the part of an escape after its backslash. -/
def escape : Reader Char := do
  match ← take with
  | 'b' => return '\x08'
  | 't' => return '\t'
  | 'n' => return '\n'
  | 'f' => return '\x0c'
  | 'r' => return '\r'
  | '"' => return '"'
  | '\\' => return '\\'
  | 'u' => code 4
  | 'U' => code 8
  | _ => failure

/-- **`line quote`** — takes the rest of a string on one line, up to its closing quote. Only a double
quote admits escapes. -/
def line (quote : Char) : Reader (List Char) :=
  loop (fun (acc : List Char) => do
    let c ← take
    if c = quote then return .inr acc.reverse
    else if c = '\\' ∧ quote = '"' then return .inl ((← escape) :: acc)
    else if isText c then return .inl (c :: acc)
    else failure) []

/-- **`paragraph quote`** — takes the rest of a string on several lines, up to three quotes. One or two
quotes belong to the string, also right in front of the closing ones. A backslash at the end of a
line takes all white space with it. -/
def paragraph (quote : Char) : Reader (List Char) := do
  let _ ← newline
  loop (fun (acc : List Char) => do
    let quotes ← takeWhile (· == quote)
    if 6 ≤ quotes.length then failure
    else if 3 ≤ quotes.length then
      return .inr (List.replicate (quotes.length - 3) quote ++ acc).reverse
    else if 1 ≤ quotes.length then return .inl (quotes ++ acc)
    else if ← newline then return .inl ('\n' :: acc)
    else
      let c ← take
      if c = '\\' ∧ quote = '"' then
        let rest := (← get).dropWhile isSpace
        if rest.head? = some '\n' ∨ ['\r', '\n'].isPrefixOf rest then
          loop (fun (_ : Unit) => do
            if (← peek).any isSpace then
              spaces
              return .inl ()
            else if ← newline then return .inl ()
            else return .inr ()) ()
          return .inl acc
        else return .inl ((← escape) :: acc)
      else if isText c then return .inl (c :: acc)
      else failure) []

/-- Takes a string, of any of the four kinds. -/
def string : Reader String := do
  let quote := (← peek).getD '"'
  if ← accept [quote, quote, quote] then return .ofList (← paragraph quote)
  else
    expect [quote]
    return .ofList (← line quote)

/-! ## Keys -/

/-- **`isBare c`** — a character of a key without quotes. -/
def isBare (c : Char) : Bool := c.isAlphanum || c == '_' || c == '-'

/-- Takes one part of a dotted key. -/
def simpleKey : Reader String := do
  match ← peek with
  | some '"' => expect ['"']; return .ofList (← line '"')
  | some '\'' => expect ['\'']; return .ofList (← line '\'')
  | _ =>
    let bare ← takeWhile isBare
    if bare.isEmpty then failure else return .ofList bare

/-- How deep arrays, inline tables and dotted keys may go. -/
def maxDepth : Nat := 79

/-- Takes a dotted key: the path, and the last part. -/
def key : Reader (List String × String) := do
  let (path, last) ← loop (fun (path : List String) => do
    spaces
    let part ← simpleKey
    spaces
    if ← accept ['.'] then return .inl (part :: path) else return .inr (path.reverse, part)) []
  if path.length < maxDepth then return (path, last) else failure

/-! ## Values -/

/-- Takes a bare word. A date takes a time of day with it that follows after a single space. -/
def word : Reader Value := do
  let first ← takeWhile isWordCharacter
  let rest ← get
  if isDate first ∧ rest.head? = some ' ' ∧ (rest.drop 1).head?.any Char.isDigit then
    expect [' ']
    let second ← takeWhile isWordCharacter
    StateT.lift (scalar? (first ++ ' ' :: second))
  else
    StateT.lift (scalar? first)

/-- **`items value`** — takes the rest of an array. A comma may stand after its last item. -/
def items (value : Reader Value) : Reader (List Value) :=
  loop (fun (acc : List Value) => do
    gap
    if ← accept [']'] then return .inr acc.reverse
    let v ← value
    gap
    if ← accept [','] then return .inl (v :: acc)
    else
      expect [']']
      return .inr (v :: acc).reverse) []

/-- **`assignment value`** — takes a key, an equals sign and a value. -/
def assignment (value : Reader Value) : Reader Assignment := do
  let (path, last) ← key
  expect ['=']
  spaces
  return ⟨path, last, ← value⟩

/-- **`entries value`** — takes the rest of an inline table. It ends in the line in which it started,
and no comma stands after its last assignment. -/
def entries (value : Reader Value) : Reader (List Assignment) := do
  spaces
  if ← accept ['\x7d'] then return []
  loop (fun (acc : List Assignment) => do
    let a ← assignment value
    spaces
    if ← accept [','] then return .inl (a :: acc)
    else
      expect ['\x7d']
      return .inr (a :: acc).reverse) []

/-- **`value depth`** — takes a value in which arrays and inline tables go no deeper than `depth`. -/
def value : Nat → Reader Value
  | 0 => do
    match ← peek with
    | some '"' | some '\'' => return .string (← string)
    | _ => word
  | depth + 1 => do
    match ← peek with
    | some '"' | some '\'' => return .string (← string)
    | some '[' =>
      expect ['[']
      return .array (← items (value depth))
    | some '\x7b' =>
      expect ['\x7b']
      let t ← StateT.lift (Table.fill (← entries (value depth)) [])
      return .table .inline t
    | _ => word

/-! ## Documents -/

/-- Takes a heading, without the end of its line. -/
def heading : Reader Heading := do
  if ← accept ['[', '['] then
    let (path, last) ← key
    expect [']', ']']
    return ⟨true, path, last⟩
  else
    expect ['[']
    let (path, last) ← key
    expect [']']
    return ⟨false, path, last⟩

/-- Takes the assignments up to the next heading or the end of the document. -/
def assignments : Reader (List Assignment) :=
  loop (fun (acc : List Assignment) => do
    gap
    match ← peek with
    | none | some '[' => return .inr acc.reverse
    | _ =>
      let a ← assignment (value maxDepth)
      lineEnd
      return .inl (a :: acc)) []

/-- Takes the sections of a document. -/
def sections : Reader (List Section) :=
  loop (fun (acc : List Section) => do
    match ← peek with
    | none => return .inr acc.reverse
    | _ =>
      let h ← heading
      lineEnd
      return .inl (⟨h, ← assignments⟩ :: acc)) []

/-- **`read cs`** — the table of a TOML document. One byte order mark in front is passed over. -/
def read (cs : List Char) : Option Table := do
  let reader : Reader (List Assignment × List Section) := do
    let _ ← accept ['\uFEFF']
    return (← assignments, ← sections)
  let ((top, rest), _) ← reader.run cs
  Table.ofSections? top rest

end Reckoner.Toml
