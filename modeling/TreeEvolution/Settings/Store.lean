import TreeEvolution.Settings.Decoding
import TreeEvolution.Settings.Environment
import TreeEvolution.Document.Reading

/-!
# The store of settings

A store holds settings.  They are replaced by those of a file, under the variables of the
environment, or changed in place; either way the new settings are refused if they have a flaw, and
the store keeps the old ones.
-/

namespace TreeEvolution

/-- A place that holds settings. -/
structure Store where
  /-- The settings. -/
  settings : Settings := {}

namespace Store

/-- The entries of a settings file.  A file may begin with a mark of the byte order, before the
document. -/
def sections? (file : String) : Option (List (String × Datum)) :=
  Document.read (Document.dropMark file.toList)

/-- All data of a file and an environment. -/
def collect (sections : List (String × Datum)) (environment : List (String × String)) :
    Except Fault Datum := do
  let base ← sections.foldlM (fun whole (key, d) => Datum.mergeAt (PathStep.path key) d whole)
    (Datum.table [])
  Environment.override environment base

/-- The settings of a file under the variables of an environment.  The file is given by its text,
if there is one. -/
def read (file : Option String) (environment : List (String × String)) :
    Except Failure Settings :=
  match file.bind sections? with
  | none => .error Error.unreadableSettings
  | some sections => do
    let all ← (collect sections environment).mapError Failure.fault
    match Settings.ofSections? all with
    | none => .error Error.unreadableSettings
    | some s => do
      s.validate.mapError Failure.error
      pure s

/-- Replace the settings by those of a file under the variables of an environment. -/
def load (_ : Store) (file : Option String) (environment : List (String × String)) :
    Except Failure Store := do
  let s ← read file environment
  pure ⟨s⟩

/-- Change the settings. -/
def update (store : Store) (change : Settings → Settings) : Except Error Store := do
  let s := change store.settings
  s.validate
  pure ⟨s⟩

/-- The text that is written to a file, provided that the file can be written. -/
def save (store : Store) (accessible : Bool) : Except Error String := do
  let text ← store.settings.write
  if accessible then pure text else .error .inaccessibleFile

end Store

end TreeEvolution
