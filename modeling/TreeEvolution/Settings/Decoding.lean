import TreeEvolution.Settings.Basic
import TreeEvolution.Document.Datum

/-!
# Settings as data

Settings are written as data in the order of their declaration, and unset options are left out.
They are read from a table, in which keys that mean nothing are ignored, or from a list, which gives
the values in the order of declaration.  What is not given keeps its default.

A datum need not be of the kind that a setting has.  Numbers, truth values and texts are converted
into each other as far as that makes sense; only a list or a table is never a number.
-/

namespace TreeEvolution

namespace Datum

/-! ### Conversions -/

/-- The truth value that a text names, apart from digits. -/
def switch? (text : String) : Option Bool :=
  let word := String.ofList (text.toList.map Char.toLower)
  if word = "true" || word = "on" || word = "yes" then some true
  else if word = "false" || word = "off" || word = "no" then some false
  else none

/-- The greatest natural number of 64 bits. -/
def greatestWord : Nat := UInt64.size - 1

/-- The natural number of 64 bits nearest to a floating-point number, a half going up. -/
def nearestWord (x : Float) : Nat :=
  let bits := Decimal.magnitudeBits x
  if x.isNaN || Decimal.isNegative x then 0
  else if bits = Decimal.Binary.infinityBits then greatestWord
  else
    let (num, den) := (Decimal.Binary.ofBits bits).ratio
    min greatestWord (Decimal.roundDiv .up num den)

/-- A datum as a natural number. -/
def natural? : Datum → Option Nat
  | integer n => if 0 ≤ n then some n.toNat else none
  | float x => some (nearestWord x)
  | boolean b => some (if b then 1 else 0)
  | text s =>
    match switch? s with
    | some b => some (if b then 1 else 0)
    | none => Text.word? s.toList
  | nothing | list _ | table _ => none

/-- A datum as a floating-point number. -/
def number? : Datum → Option Float
  | integer n => some (Decimal.Scaled.toFloat (n < 0) ⟨n.natAbs, 0⟩)
  | float x => some x
  | boolean b => some (if b then 1 else 0)
  | text s =>
    match switch? s with
    | some b => some (if b then 1 else 0)
    | none => Text.float? s.toList
  | nothing | list _ | table _ => none

/-- A datum as a truth value. -/
def truth? : Datum → Option Bool
  | integer n => some (n ≠ 0)
  | float x => some (x != 0)
  | boolean b => some b
  | text s => if s = "1" then some true else if s = "0" then some false else switch? s
  | nothing | list _ | table _ => none

/-- The kind of growth that has a name. -/
def growthNamed? (name : String) : Option Growth :=
  [Growth.full, Growth.grow, Growth.ramped].find? fun g => g.name == name

/-- A datum as a kind of growth: its name, or a table with the name as its only key. -/
def growth? : Datum → Option Growth
  | text name => growthNamed? name
  | table [(name, _)] => growthNamed? name
  | _ => none

/-- A datum where a setting may be unset. -/
def option? {α : Type} (read : Datum → Option α) : Datum → Option (Option α)
  | nothing => some none
  | d => (read d).map some

end Datum

namespace Settings

/-! ### Reading -/

/-- The keys of the settings in the order of their declaration. -/
def keys : List String :=
  ["population_size", "threads", "seed", "max_generations", "target_fitness", "tournament_size",
   "crossover_prob", "mutation_prob", "init_method", "init_min_depth", "init_max_depth",
   "mutation_min_depth", "mutation_max_depth", "depth_limit", "size_limit", "verbose"]

/-- Settings with a datum in the place of one of them.  Other keys mean nothing. -/
def set? (s : Settings) (key : String) (d : Datum) : Option Settings :=
  match key with
  | "population_size" => do some { s with populationSize := ← d.natural? }
  | "threads" => do some { s with threads := ← d.natural? }
  | "seed" => do some { s with seed := (← Datum.option? Datum.natural? d).map UInt64.ofNat }
  | "max_generations" => do some { s with maxGenerations := ← d.natural? }
  | "target_fitness" => do some { s with targetFitness := ← d.number? }
  | "tournament_size" => do some { s with tournamentSize := ← d.natural? }
  | "crossover_prob" => do some { s with crossoverProbability := ← d.number? }
  | "mutation_prob" => do some { s with mutationProbability := ← d.number? }
  | "init_method" => do some { s with initMethod := ← d.growth? }
  | "init_min_depth" => do some { s with initMinDepth := ← d.natural? }
  | "init_max_depth" => do some { s with initMaxDepth := ← d.natural? }
  | "mutation_min_depth" => do some { s with mutationMinDepth := ← d.natural? }
  | "mutation_max_depth" => do some { s with mutationMaxDepth := ← d.natural? }
  | "depth_limit" => do some { s with depthLimit := ← Datum.option? Datum.natural? d }
  | "size_limit" => do some { s with sizeLimit := ← Datum.option? Datum.natural? d }
  | "verbose" => do some { s with verbose := ← d.truth? }
  | _ => some s

/-- Settings with data in the places of some of them. -/
def setAll? (s : Settings) (entries : List (String × Datum)) : Option Settings :=
  entries.foldlM (fun s (key, d) => s.set? key d) s

/-- The settings that a datum gives. -/
def ofDatum? : Datum → Option Settings
  | .table entries => setAll? {} entries
  | .list items => setAll? {} (keys.zip items)
  | _ => none

/-- The name of the settings of an evolution among all settings. -/
def sectionName : String := "evolution"

/-- The settings of an evolution among all settings. -/
def ofSections? (sections : Datum) : Option Settings :=
  match Datum.lookup sectionName sections.entries with
  | some d => ofDatum? d
  | none => some {}

/-! ### Writing -/

/-- The settings as data in the order of their declaration. -/
def entries (s : Settings) : List (String × Datum) :=
  let whole (n : Nat) : Option Datum := some (.integer n)
  let data : List (Option Datum) :=
    [whole s.populationSize, whole s.threads, s.seed.map (fun n => .integer n.toNat),
     whole s.maxGenerations, some (.float s.targetFitness), whole s.tournamentSize,
     some (.float s.crossoverProbability), some (.float s.mutationProbability),
     some (.text s.initMethod.name), whole s.initMinDepth, whole s.initMaxDepth,
     whole s.mutationMinDepth, whole s.mutationMaxDepth,
     s.depthLimit.map (fun n => .integer n), s.sizeLimit.map (fun n => .integer n),
     some (.boolean s.verbose)]
  (keys.zip data).filterMap fun (key, d) => d.map (key, ·)

/-- The text of a setting.  The texts among the settings are names without anything to escape. -/
def writeDatum : Datum → Except Error String
  | .integer n => if Text.fitsWord n then .ok (toString n) else .error .unwritableSettings
  | .float x => .ok (Decimal.Layout.filed.write x)
  | .boolean b => .ok (if b then "true" else "false")
  | .text s => .ok ("\"" ++ s ++ "\"")
  | .nothing | .list _ | .table _ => .error .unwritableSettings

/-- The lines of a settings file, one for each setting. -/
def writeEntries : List (String × Datum) → Except Error String
  | [] => .ok ""
  | (key, d) :: rest => do
    let text ← writeDatum d
    let lines ← writeEntries rest
    pure (key ++ " = " ++ text ++ "\n" ++ lines)

/-- The settings as a file. -/
def write (s : Settings) : Except Error String := do
  let lines ← writeEntries s.entries
  pure ("[" ++ sectionName ++ "]\n" ++ lines)

end Settings

end TreeEvolution
