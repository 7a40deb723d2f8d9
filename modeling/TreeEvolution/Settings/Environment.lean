import TreeEvolution.Document.Datum

/-!
# The environment

A variable of the environment takes the place of a setting if its name begins with `TREEGP_`, in
capitals or not.  The rest of the name is the path of the setting, with two underscores between the
steps.  The value is read as a truth value, an integer or a floating-point number if it is one, and
else it is a text.

Names are read in small letters.  Of the characters beyond ASCII only the Kelvin sign has a small
letter that may stand in a path.
-/

namespace TreeEvolution.Environment

/-- What the names of the variables begin with, in small letters. -/
def lead : List Char := "treegp_".toList

/-- The small letter of a character. -/
def small (c : Char) : Char :=
  if c = '\u212A' then 'k' else c.toLower

/-- A text in small letters. -/
def lower (text : String) : List Char :=
  text.toList.map small

/-- A name with points in the place of two underscores. -/
def separate : List Char → List Char
  | '_' :: '_' :: rest => '.' :: separate rest
  | c :: rest => c :: separate rest
  | [] => []

/-- The path of the setting that a variable takes the place of. -/
def path? (name : String) : Option (List PathStep) :=
  let name := lower name
  if lead.isPrefixOf name then
    some (PathStep.path (String.ofList (separate (name.drop lead.length))))
  else none

/-- The datum that the value of a variable stands for. -/
def datum (value : String) : Datum :=
  if lower value = "true".toList then .boolean true
  else if lower value = "false".toList then .boolean false
  else
    match Text.integer? value.toList, Text.float? value.toList with
    | some n, _ => .integer n
    | none, some x => .float x
    | none, none => .text value

/-- Let the variables of an environment take the places of settings. -/
def override (environment : List (String × String)) (settings : Datum) : Except Fault Datum :=
  environment.foldlM (fun settings (name, value) =>
    match path? name with
    | some path => Datum.mergeAt path (datum value) settings
    | none => .ok settings) settings

end TreeEvolution.Environment
