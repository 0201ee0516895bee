/-
# Reckoner.Toml.Value — the values of a TOML document, and how its sections make tables of them.

A table may be extended only in the way in which it was made, so a table remembers its `Origin`:

* `inline`: written as a value in braces. It is complete and is never extended.
* `header`: opened by a section of its own, and by no second one.
* `implied`: named only on the way to the section of a table inside it. A section of its own may still
  open it, once, and what it holds stays.
* `dotted`: made by a dotted key. Further dotted keys extend it; a section of its own may not.

An array of tables grows by one table for each of its sections, and a path that leads through it goes
on in the latest one.

`Table.ofSections?` builds a document section by section and is none as soon as one of these rules, or
the rule that a key is assigned once, is broken.
-/
import Reckoner.Number.Binary64

namespace Reckoner.Toml

/-- How a table came about. -/
inductive Origin
  | inline
  | header
  | implied
  | dotted
  deriving DecidableEq, Repr

/-- **`Value`** — a TOML value. Dates and times are recognised, and nothing here looks inside them. -/
inductive Value
  | string (text : String)
  | integer (value : Int)
  | float (value : Binary64)
  | boolean (value : Bool)
  | datetime
  | array (items : List Value)
  | table (origin : Origin) (entries : List (String × Value))
  /-- An array of tables, which is never empty. -/
  | tables (latest : List (String × Value)) (earlier : List (List (String × Value)))

/-- **`Table`** — keys with their values, in the order in which they first appeared. -/
abbrev Table := List (String × Value)

/-- **`Assignment`** — a value, and the dotted key it is assigned to: the last key behind the path to
it. -/
structure Assignment where
  path : List String
  key : String
  value : Value

/-- **`Heading`** — the opening of a section: a table, or one more table of an array. -/
structure Heading where
  repeated : Bool
  path : List String
  key : String

/-- **`Section`** — the assignments under one heading. -/
structure Section where
  heading : Heading
  assignments : List Assignment

namespace Table

/-- **`update key f t`** — the table in which `f` has replaced the value of `key`, or supplied it. -/
def update (key : String) (f : Option Value → Option Value) : Table → Option Table
  | [] => (f none).map fun v => [(key, v)]
  | (k, v) :: t =>
    if k = key then (f (some v)).map fun w => (k, w) :: t
    else (update key f t).map ((k, v) :: ·)

/-- **`insert key value t`** — the table with a new key. -/
def insert (key : String) (value : Value) : Table → Option Table :=
  update key fun
    | none => some value
    | some _ => none

/-- **`assign path key value t`** — the table with a value at a dotted key. The table that receives the
key is made by dotted keys; on the way to it, sections inside this table may be passed. -/
def assign (path : List String) (key : String) (value : Value) (t : Table) : Option Table :=
  match path with
  | [] => insert key value t
  | k :: path =>
    update k (fun
      | none => (assign path key value []).map (.table .dotted)
      | some (.table .dotted t) => (assign path key value t).map (.table .dotted)
      | some (.table .implied t) =>
        if path.isEmpty then none else (assign path key value t).map (.table .implied)
      | some (.tables latest earlier) =>
        if path.isEmpty then none
        else (assign path key value latest).map fun latest => .tables latest earlier
      | some _ => none) t

/-- **`fill assignments t`** — the table after assignments, in their order. -/
def fill (assignments : List Assignment) (t : Table) : Option Table :=
  assignments.foldlM (fun t a => assign a.path a.key a.value t) t

/-- **`within path f t`** — the table in which `f` has been applied to the table at the end of a path.
Tables that are missing on the way are implied; a value that is no table, or is complete, stops it. -/
def within (path : List String) (f : Table → Option Table) (t : Table) : Option Table :=
  match path with
  | [] => f t
  | k :: path =>
    update k (fun
      | none => (within path f []).map (.table .implied)
      | some (.table .inline _) => none
      | some (.table origin t) => (within path f t).map (.table origin)
      | some (.tables latest earlier) => (within path f latest).map fun latest => .tables latest earlier
      | some _ => none) t

/-- **`addSection s t`** — the table with one more section. -/
def addSection (s : Section) : Table → Option Table :=
  within s.heading.path <| update s.heading.key fun existing =>
    if s.heading.repeated then
      match existing with
      | none => (fill s.assignments []).map fun t => .tables t []
      | some (.tables latest earlier) =>
        (fill s.assignments []).map fun t => .tables t (latest :: earlier)
      | some _ => none
    else
      match existing with
      | none => (fill s.assignments []).map (.table .header)
      | some (.table .implied t) => (fill s.assignments t).map (.table .header)
      | some _ => none

/-- **`ofSections? top sections`** — the document with the assignments in front of all headings, and
the sections after them. -/
def ofSections? (top : List Assignment) (sections : List Section) : Option Table := do
  sections.foldlM (fun t s => addSection s t) (← fill top [])

end Table

end Reckoner.Toml
