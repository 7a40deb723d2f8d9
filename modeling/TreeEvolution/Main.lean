import TreeEvolution.EvenParity

/-!
# The command line

`main` runs the demonstration.  Its only argument is the name of a settings file; without one the
settings of the demonstration are used.  Variables of the environment take the places of settings of
the file.
-/

namespace TreeEvolution

/-- The text of a file, if it can be read. -/
def fileText (name : String) : IO (Option String) :=
  try
    let text ← IO.FS.readFile name
    pure (some text)
  catch _ => pure none

/-- The name and the value of a variable. -/
def splitVariable (entry : List Char) : String × String :=
  let (name, value) := entry.span (· ≠ '=')
  (String.ofList name, String.ofList (value.drop 1))

/-- The variables of the environment. -/
def environment : IO (List (String × String)) := do
  let text ← fileText "/proc/self/environ"
  let entries := (text.getD "").toList.splitOn (Char.ofNat 0)
  pure (entries.map splitVariable)

/-- A seed out of nowhere. -/
def freshSeed : IO UInt64 := do
  let bytes ← IO.getRandomBytes 8
  pure (bytes.toList.foldl (fun seed byte => seed * 256 + byte.toUInt64) 0)

end TreeEvolution

open TreeEvolution in
/-- Run the demonstration. -/
def main (arguments : List String) : IO UInt32 := do
  let settings ←
    match arguments with
    | name :: _ => pure (Store.read (← fileText name) (← environment))
    | [] => pure (.ok EvenParity.settings)
  let outcome := EvenParity.run settings (← freshSeed)
  IO.print outcome.output
  IO.eprint outcome.complaint
  pure (UInt32.ofNat outcome.exit)
