import TreeEvolution.Extent
import TreeEvolution.Text.Numeral

/-!
# Data

Settings come from documents and from the environment as data that has not been interpreted yet:
numbers, texts, lists, and tables that assign data to keys.  Data from several places is merged by
putting each datum at the end of a path.  A table is merged entry by entry with what is there, and
anything else takes the place of what is there.  On its way a path makes the tables and lists it
needs.
-/

namespace TreeEvolution

/-- Data that has not been interpreted. -/
inductive Datum where
  /-- Nothing. -/
  | nothing
  /-- A truth value. -/
  | boolean (value : Bool)
  /-- An integer. -/
  | integer (value : Int)
  /-- A floating-point number. -/
  | float (value : Float)
  /-- A text. -/
  | text (value : String)
  /-- A list. -/
  | list (items : List Datum)
  /-- Data under keys. -/
  | table (entries : List (String × Datum))

/-- A step of a path. -/
inductive PathStep where
  /-- To what a table has under a key. -/
  | key (name : String)
  /-- To an item of a list; negative positions count from its end. -/
  | item (position : Int)
  deriving DecidableEq

namespace Datum

/-! ### Entries of tables -/

/-- The datum under a key. -/
def lookup (key : String) (entries : List (String × Datum)) : Option Datum :=
  (entries.find? fun entry => entry.1 == key).map Prod.snd

/-- Put a datum under a key, in the place of what is there. -/
def put (key : String) (d : Datum) : List (String × Datum) → List (String × Datum)
  | [] => [(key, d)]
  | entry :: rest => if entry.1 == key then (key, d) :: rest else entry :: put key d rest

/-- The entries of a table; anything else has none. -/
def entries : Datum → List (String × Datum)
  | table entries => entries
  | _ => []

/-- The items of a list; anything else has none. -/
def items : Datum → List Datum
  | list items => items
  | _ => []

/-! ### Paths -/

/-- A list that has an item at a position, and the position counted from the beginning.  Items that
are missing are made up of nothing, before the list if the position lies there. -/
def reach (position : Int) (items : List Datum) : Nat × List Datum :=
  if 0 ≤ position then
    let index := position.toNat
    (index, items ++ List.replicate (index + 1 - items.length) nothing)
  else
    let back := (-position).toNat
    if back ≤ items.length then (items.length - back, items)
    else (0, List.replicate (back - items.length) nothing ++ items)

/-- Change the datum at the end of a path. -/
def modifyAt (change : Datum → Datum) : List PathStep → Datum → Datum
  | [], d => change d
  | .key name :: path, d =>
    let below := modifyAt change path ((lookup name d.entries).getD nothing)
    table (put name below d.entries)
  | .item position :: path, d =>
    let (index, items) := reach position d.items
    list (items.set index (modifyAt change path (items.getD index nothing)))

mutual

/-- Merge a datum into another one. -/
def merge : Datum → Datum → Datum
  | table additions, d => table (mergeEntries additions d.entries)
  | new, _ => new

/-- Merge entries into those of a table. -/
def mergeEntries : List (String × Datum) → List (String × Datum) → List (String × Datum)
  | [], known => known
  | (key, d) :: rest, known =>
    mergeEntries rest (put key (merge d ((lookup key known).getD nothing)) known)

end

end Datum

/-! ### Paths in writing -/

namespace PathStep

/-- Whether a character may stand in the name of a step. -/
def isNameChar (c : Char) : Bool :=
  c.isAlphanum || c = '_' || c = '-'

/-- Whether a character may stand around the integer between the brackets of a step. -/
def isBlank (c : Char) : Bool :=
  c = ' ' || c = '\t'

/-- A text without the blanks around it. -/
def trim (text : List Char) : List Char :=
  ((text.dropWhile isBlank).reverse.dropWhile isBlank).reverse

/-- The integer between the brackets of a step. -/
def position? (text : List Char) : Option Int :=
  match trim text with
  | '+' :: _ => none
  | text => Text.integer? text

/-- The steps after the first one: a name after a point, or a position between brackets. -/
def further : Nat → List Char → Option (List PathStep)
  | _, [] => some []
  | 0, _ => none
  | fuel + 1, '.' :: text =>
    let (name, rest) := text.span isNameChar
    if name.isEmpty then none
    else (further fuel rest).map (key (String.ofList name) :: ·)
  | fuel + 1, '[' :: text =>
    let (inside, rest) := text.span (· ≠ ']')
    match position? inside, rest with
    | some position, _ :: rest => (further fuel rest).map (item position :: ·)
    | _, _ => none
  | _ + 1, _ => none

/-- The path that a text writes.  A text that writes none is itself the name of the only step. -/
def path (text : String) : List PathStep :=
  let (name, rest) := text.toList.span isNameChar
  match further rest.length rest with
  | some steps => if name.isEmpty then [key text] else key (String.ofList name) :: steps
  | none => [key text]

/-- Whether a step leads to an item of a list that memory can hold. -/
def withinMemory : PathStep → Bool
  | key _ => true
  | item position => Extent.fits position.natAbs

end PathStep

/-- Merge a datum into what is at the end of a path. -/
def Datum.mergeAt (path : List PathStep) (d whole : Datum) : Except Fault Datum :=
  if path.all PathStep.withinMemory then .ok (modifyAt (merge d) path whole)
  else .error .beyondMemory

end TreeEvolution
