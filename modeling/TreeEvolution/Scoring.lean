import TreeEvolution.Individual
import TreeEvolution.Journal
import TreeEvolution.Workload

/-!
# Scoring

Individuals without a valid fitness are pending.  `score` has a scorer look at each of them once and
leaves the others alone.  The pending individuals are divided among workers; a worker goes through
its share in order and stops where the scorer breaks off.  As no worker touches the share of
another, the result does not depend on how the workers take turns.
-/

namespace TreeEvolution

/-- A judge of programs. -/
abbrev Scorer (V : Type) := Program V → Except Fault Score

namespace Scoring

variable {V : Type}

/-- The individuals that await a score. -/
def pending (individuals : List (Individual V)) : List (Individual V) :=
  individuals.filter fun i => !i.valid

/-- What a worker leaves behind. -/
structure Share (V : Type) where
  /-- The individuals of the share. -/
  individuals : List (Individual V)
  /-- The fault that broke the work off. -/
  fault? : Option Fault

/-- Score the individuals of a share in order, up to the first on which the scorer breaks off. -/
def work (scorer : Scorer V) : List (Individual V) → Share V
  | [] => ⟨[], none⟩
  | i :: rest =>
    match scorer i.code with
    | .ok s =>
      let done := work scorer rest
      ⟨{ i with score := s } :: done.individuals, done.fault?⟩
    | .error f => ⟨i :: rest, some f⟩

/-- Put individuals back in the places of the pending ones, in order. -/
def refill : List (Individual V) → List (Individual V) → List (Individual V)
  | [], _ => []
  | i :: rest, scored =>
    if i.valid then i :: refill rest scored
    else
      match scored with
      | s :: scored => s :: refill rest scored
      | [] => i :: rest

/-- The outcome of scoring. -/
structure Outcome (V : Type) where
  /-- The individuals, in their order. -/
  individuals : List (Individual V)
  /-- The number of scores that were made, unless the scorer broke off. -/
  count : Except Fault Nat
  /-- What there is to tell. -/
  records : List Record

/-- The record made before the work is divided. -/
def announcement (shares : List (Nat × Nat)) (count : Nat) : Record :=
  ⟨.debug, "evaluating " ++ toString count ++ " individuals in " ++ toString shares.length ++
    " chunks: " ++ Workload.text shares⟩

/-- Score the pending individuals of a list with a number of workers. -/
def score (scorer : Scorer V) (workers : Nat) (individuals : List (Individual V)) : Outcome V :=
  let waiting := pending individuals
  let shares := Workload.shares waiting.length workers
  if shares.isEmpty then ⟨individuals, .ok 0, []⟩
  else
    let done := (Workload.cut (shares.map Workload.shareSize) waiting).map (work scorer)
    let scored := done.flatMap Share.individuals
    let count := match done.findSome? Share.fault? with
      | none => .ok waiting.length
      | some f => .error f
    ⟨refill individuals scored, count, [announcement shares waiting.length]⟩

/-- Score the pending individuals among those from one position up to another, which is not
included. -/
def scoreRange (scorer : Scorer V) (workers first last : Nat) (individuals : List (Individual V)) :
    Except Fault (Outcome V) :=
  if first ≤ last ∧ last ≤ individuals.length then
    let outcome := score scorer workers ((individuals.take last).drop first)
    .ok { outcome with
      individuals := individuals.take first ++ outcome.individuals ++ individuals.drop last }
  else .error .indexOutOfRange

/-! ### Scorers in common use -/

/-- The share of cases on which a program gives the expected truth value. -/
def agreement (cases : List (List Bool × Bool)) : Scorer Bool := fun p => do
  let values ← cases.mapM fun (inputs, _) => p.evaluate inputs
  let right := (values.zip cases).countP fun (value, _, expected) => value == expected
  pure ⟨Float.ofNat right / Float.ofNat cases.length, true⟩

/-- One divided by one more than the sum of the squared errors, and zero if that sum is not
finite. -/
def closeness (cases : List (List Float × Float)) : Scorer Float := fun p => do
  let total ← cases.foldlM (fun sum (inputs, expected) => do
    let value ← p.evaluate inputs
    let difference := value - expected
    pure (sum + difference * difference)) 0
  pure ⟨if total.isFinite then 1 / (1 + total) else 0, true⟩

/-- The same score for every program. -/
def fixed (s : Score) : Scorer V :=
  fun _ => .ok s

/-- The inverse of the size of a program, valid up to some size. -/
def brevity (greatest : Nat) : Scorer V :=
  fun p => .ok ⟨1 / Float.ofNat p.size, p.size ≤ greatest⟩

/-- The value of a program on some inputs, as a number. -/
def value (number : V → Float) (inputs : List V) : Scorer V := fun p => do
  let result ← p.evaluate inputs
  pure ⟨number result, true⟩

end Scoring

end TreeEvolution
