/-!
# Records

What a run has to tell is kept as a list of records, each of some level, in the order of the events.
A reader of the records chooses the levels it wants to see.
-/

namespace TreeEvolution

/-- The levels of records, from the most urgent to the most detailed. -/
inductive Level where
  /-- Something failed. -/
  | error
  /-- Something looks wrong. -/
  | warn
  /-- Something of general interest. -/
  | info
  /-- Something of interest to those who look for a cause. -/
  | debug
  /-- Every detail. -/
  | trace
  deriving DecidableEq

namespace Level

/-- The rank of a level; more urgent levels come first. -/
def rank : Level → Nat
  | error => 0
  | warn => 1
  | info => 2
  | debug => 3
  | trace => 4

/-- The name of a level. -/
def name : Level → String
  | error => "ERROR"
  | warn => "WARN"
  | info => "INFO"
  | debug => "DEBUG"
  | trace => "TRACE"

end Level

/-- An event that is worth telling. -/
structure Record where
  /-- The level of the record. -/
  level : Level
  /-- What happened. -/
  text : String
  deriving DecidableEq

namespace Record

/-- Whether a record is of a level or more urgent. -/
def visibleAt (level : Level) (r : Record) : Bool :=
  r.level.rank ≤ level.rank

/-- A record on one line. -/
def line (r : Record) : String :=
  r.level.name ++ " " ++ r.text

end Record

end TreeEvolution
