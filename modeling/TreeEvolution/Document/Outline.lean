import TreeEvolution.Document.Datum

/-!
# Outlines

While a document is read, its tables are kept as an outline that remembers how each of them came
about.  A table can be opened by a header, come about on the way to another table, or come about on
the way of a dotted key, and what may be added to it later depends on that: dotted keys add nothing
to a table that a header has opened, and a header opens a table once, and never one that dotted keys
have gone through.  Tables within lists, each opened by a header of its own, form a series, and what
follows belongs to the last of them.

The values of keys are settled when they are read, tables in braces among them, and nothing is added
to them.
-/

namespace TreeEvolution.Document

/-- How a table came about. -/
inductive Origin where
  /-- It was opened by a header. -/
  | header
  /-- It lies on the path of a header. -/
  | path
  /-- A dotted key has made it or gone through it. -/
  | dotted
  deriving DecidableEq

/-- What an outline has under a key. -/
inductive Outline where
  /-- A value. -/
  | value (d : Datum)
  /-- A table. -/
  | table (origin : Origin) (entries : List (String × Outline))
  /-- A series of tables. -/
  | series (tables : List (List (String × Outline)))

namespace Outline

/-- The entries of a table. -/
abbrev Entries := List (String × Outline)

/-- What is under a key. -/
def lookup (key : String) (entries : Entries) : Option Outline :=
  (entries.find? fun entry => entry.1 == key).map Prod.snd

/-- Put something under a key, in the place of what is there. -/
def put (key : String) (o : Outline) : Entries → Entries
  | [] => [(key, o)]
  | entry :: rest => if entry.1 == key then (key, o) :: rest else entry :: put key o rest

/-- Change the last table of a series. -/
def changeLast (change : Entries → Option Entries) : List Entries → Option (List Entries)
  | [] => none
  | [last] => do some [← change last]
  | first :: rest => do some (first :: (← changeLast change rest))

/-! ### Dotted keys -/

/-- Assign a value to a dotted key.  Every table on the way is one of dotted keys from then on. -/
def assign (d : Datum) : List String → Entries → Option Entries
  | [], _ => none
  | [key], entries =>
    if (lookup key entries).isSome then none else some (put key (value d) entries)
  | key :: path, entries =>
    match lookup key entries with
    | none => do some (put key (table .dotted (← assign d path [])) entries)
    | some (table origin below) =>
      if origin = .header then none
      else do some (put key (table .dotted (← assign d path below)) entries)
    | some (series tables) =>
      if path.length = 1 then none
      else do some (put key (series (← changeLast (assign d path) tables)) entries)
    | some (value _) => none

/-- The entries that assignments in braces make up. -/
def ofAssignments (assignments : List (List String × Datum)) : Option Entries :=
  assignments.foldlM (fun entries (path, d) => assign d path entries) []

/-! ### Headers -/

/-- Change the entries of the table at the end of a path of headers.  Tables that are missing on the
way are made. -/
def beneath (change : Entries → Option Entries) : List String → Entries → Option Entries
  | [], entries => change entries
  | key :: path, entries =>
    match lookup key entries with
    | none => do some (put key (table .path (← beneath change path [])) entries)
    | some (table origin inner) => do
      some (put key (table origin (← beneath change path inner)) entries)
    | some (series tables) => do
      some (put key (series (← changeLast (beneath change path) tables)) entries)
    | some (value _) => none

/-- Open a table. -/
def openTable (key : String) (entries : Entries) : Option Entries :=
  match lookup key entries with
  | none => some (put key (table .header []) entries)
  | some (table .path inner) => some (put key (table .header inner) entries)
  | some _ => none

/-- Open the next table of a series. -/
def openNext (key : String) (entries : Entries) : Option Entries :=
  match lookup key entries with
  | none => some (put key (series [[]]) entries)
  | some (series tables) => some (put key (series (tables ++ [[]])) entries)
  | some _ => none

/-! ### The outcome -/

mutual

/-- The datum that an outline describes. -/
def datum : Outline → Datum
  | value d => d
  | table _ entries => .table (data entries)
  | series tables => .list (listed tables)

/-- The data under the keys of a table. -/
def data : List (String × Outline) → List (String × Datum)
  | [] => []
  | (key, o) :: rest => (key, o.datum) :: data rest

/-- The tables of a series. -/
def listed : List (List (String × Outline)) → List Datum
  | [] => []
  | entries :: rest => .table (data entries) :: listed rest

end

end Outline

end TreeEvolution.Document
