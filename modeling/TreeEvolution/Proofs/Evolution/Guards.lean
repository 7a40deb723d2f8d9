import TreeEvolution.Proofs.Evolution.Chronicle

/-!
# Limits of replaced operations

The limits of an evolution are kept in three places, and all of them grow together.  An operation
that takes the place of another is given the limits that came before, so that both operations have
at any time the limits that they brought with them, followed by all limits of the evolution
(`Guarded.afterActs`).  Requests, runs and verdicts leave all three places alone (`SameGuards`).
-/

namespace TreeEvolution

namespace Evolution

variable {σ V ω : Type}

/-! ### Evolutions with the same limits -/

/-- Two evolutions with the same operations and the same limits. -/
structure SameGuards (e e' : Evolution σ V) : Prop where
  /-- They have the same crossover. -/
  crossover_eq : e'.crossover = e.crossover
  /-- They have the same mutation. -/
  mutation_eq : e'.mutation = e.mutation
  /-- They remember the same limits. -/
  limits_eq : e'.limits = e.limits

namespace SameGuards

variable {e e' e'' : Evolution σ V}

/-- An evolution has the same limits as itself. -/
lemma refl (e : Evolution σ V) : SameGuards e e :=
  ⟨rfl, rfl, rfl⟩

/-- What is the same twice is the same. -/
lemma trans (h : SameGuards e e') (h' : SameGuards e' e'') : SameGuards e e'' where
  crossover_eq := h'.crossover_eq.trans h.crossover_eq
  mutation_eq := h'.mutation_eq.trans h.mutation_eq
  limits_eq := h'.limits_eq.trans h.limits_eq

variable [Printed V] [WordSource σ]

/-- A request leaves the limits alone. -/
lemma request (e : Evolution σ V) (r : Request) : SameGuards e (r.reply e).evolution := by
  rcases r.reply_cases e with ⟨f, source, -, hevolution⟩ |
    ⟨p, scored, source, count, -, -, -, -, hevolution⟩ |
    ⟨parents, generation, p, scored, source, count, -, -, -, -, -, hevolution⟩
  all_goals
    rw [hevolution]
    exact ⟨rfl, rfl, rfl⟩

/-- Steps leave the limits alone. -/
lemma afterSteps (steps : Nat) (e : Evolution σ V) :
    SameGuards e (Evolution.afterSteps steps e) := by
  induction steps generalizing e with
  | zero => exact refl e
  | succ steps ih => exact (request e .step).trans (ih e.step.evolution)

/-- A run leaves the limits alone. -/
lemma run (observer : Observer V ω) (steps : Nat) (state : ω) (e : Evolution σ V) :
    SameGuards e (Evolution.run observer steps state e).evolution := by
  change SameGuards e (stepUntil observer steps state e).evolution
  rcases (stepUntil_makes observer steps state e).leaves with
    hevolution | ⟨f, source, -, -, hevolution⟩
  · rw [hevolution]
    exact afterSteps _ e
  · rw [hevolution]
    exact (afterSteps _ e).trans ⟨rfl, rfl, rfl⟩

end SameGuards

/-! ### The limits of the operations -/

/-- The limits that an act adds to those of the evolution. -/
def Act.added : Act V → List Limit
  | .call (.addLimit l) => [l]
  | _ => []

/-- The limits that the crossover has brought with it, once an act has happened. -/
def Act.broughtByCrossover (brought : List Limit) : Act V → List Limit
  | .fitting (.crossover c) => c.limits
  | _ => brought

/-- The limits that the mutation has brought with it, once an act has happened. -/
def Act.broughtByMutation (brought : List Limit) : Act V → List Limit
  | .fitting (.mutation m) => m.limits
  | _ => brought

/-- The limits of an evolution are known, and those of its operations are the same after the ones
that the operations have brought with them. -/
structure Guarded (guard byCrossover byMutation : List Limit) (e : Evolution σ V) : Prop where
  /-- The evolution remembers its limits. -/
  limits_eq : e.limits = guard
  /-- They guard crossover. -/
  crossover_eq : e.crossover.limits = byCrossover ++ guard
  /-- They guard mutation. -/
  mutation_eq : e.mutation.limits = byMutation ++ guard

namespace Guarded

variable {guard byCrossover byMutation : List Limit} {e e' : Evolution σ V}

/-- Only the operations and the limits matter. -/
lemma congr (h : Guarded guard byCrossover byMutation e) (hsame : SameGuards e e') :
    Guarded guard byCrossover byMutation e' where
  limits_eq := hsame.limits_eq.trans h.limits_eq
  crossover_eq := (congrArg Crossover.limits hsame.crossover_eq).trans h.crossover_eq
  mutation_eq := (congrArg Mutation.limits hsame.mutation_eq).trans h.mutation_eq

/-- Nothing is added to the limits where the operations and the limits stay the same. -/
lemma kept (h : Guarded guard byCrossover byMutation e) (hsame : SameGuards e e') :
    Guarded (guard ++ []) byCrossover byMutation e' := by
  rw [List.append_nil]
  exact h.congr hsame

/-- A further limit comes last in all three places. -/
lemma addLimit (h : Guarded guard byCrossover byMutation e) (l : Limit) :
    Guarded (guard ++ [l]) byCrossover byMutation (e.addLimit l) where
  limits_eq := congrArg (· ++ [l]) h.limits_eq
  crossover_eq := (congrArg (· ++ [l]) h.crossover_eq).trans (List.append_assoc _ _ _)
  mutation_eq := (congrArg (· ++ [l]) h.mutation_eq).trans (List.append_assoc _ _ _)

/-- Another crossover keeps what it has brought and is given the limits of the evolution. -/
lemma withCrossover (h : Guarded guard byCrossover byMutation e) (c : Crossover) :
    Guarded guard c.limits byMutation (e.withCrossover c) where
  limits_eq := h.limits_eq
  crossover_eq := by
    rw [Evolution.withCrossover, foldl_crossover_limit, h.limits_eq]
  mutation_eq := h.mutation_eq

/-- Another mutation keeps what it has brought and is given the limits of the evolution. -/
lemma withMutation (h : Guarded guard byCrossover byMutation e) (m : Mutation V) :
    Guarded guard byCrossover m.limits (e.withMutation m) where
  limits_eq := h.limits_eq
  crossover_eq := h.crossover_eq
  mutation_eq := by
    rw [Evolution.withMutation, foldl_mutation_limit, h.limits_eq]

/-- A replacement adds no limit, but it changes what the operation in its place has brought. -/
lemma fitting (h : Guarded guard byCrossover byMutation e) (f : Fitting V) :
    Guarded (guard ++ []) (Act.broughtByCrossover byCrossover (.fitting f))
      (Act.broughtByMutation byMutation (.fitting f)) (f.perform e) := by
  cases f with
  | sampler t => exact h.kept ⟨rfl, rfl, rfl⟩
  | selection s => exact h.kept ⟨rfl, rfl, rfl⟩
  | crossover c => exact (h.withCrossover c).kept (.refl _)
  | mutation m => exact (h.withMutation m).kept (.refl _)

section Children

variable [WordSource σ]

/-- Crossover makes heirs within the limits of the evolution. -/
lemma crossover_heirs (h : Guarded guard byCrossover byMutation e) (a b : Individual V) :
    Draw.Yields (e.crossover.vary [a, b] : Draw σ (List (Individual V)))
      fun children => List.Forall₂ (Variation.Heir guard) [a, b] children := by
  refine Variation.crossover_heirs ?_ a b
  rw [h.crossover_eq]
  exact List.subset_append_right byCrossover guard

/-- Mutation makes an heir within the limits of the evolution. -/
lemma mutation_heirs (h : Guarded guard byCrossover byMutation e) (a : Individual V) :
    Draw.Yields (e.mutation.vary [a] : Draw σ (List (Individual V)))
      fun children => List.Forall₂ (Variation.Heir guard) [a] children := by
  refine Variation.mutation_heirs ?_ a
  rw [h.mutation_eq]
  exact List.subset_append_right byMutation guard

end Children

variable [Printed V] [WordSource σ]

/-- A call adds at most one limit. -/
lemma call (h : Guarded guard byCrossover byMutation e) (c : Call V) :
    Guarded (guard ++ Act.added (.call c)) byCrossover byMutation (c.perform e) := by
  cases c with
  | start => exact h.kept (.request e .start)
  | step => exact h.kept (.request e .step)
  | run observer steps state => exact h.kept (.run observer steps state e)
  | setCrossoverProbability p =>
    rw [Call.perform_setCrossoverProbability]
    split
    · exact h.kept ⟨rfl, rfl, rfl⟩
    · exact h.kept (.refl e)
  | setMutationProbability p =>
    rw [Call.perform_setMutationProbability]
    split
    · exact h.kept ⟨rfl, rfl, rfl⟩
    · exact h.kept (.refl e)
  | addLimit l => exact h.addLimit l

/-- What an act does to the limits. -/
lemma act (h : Guarded guard byCrossover byMutation e) (a : Act V) :
    Guarded (guard ++ a.added) (a.broughtByCrossover byCrossover) (a.broughtByMutation byMutation)
      (a.perform e) := by
  cases a with
  | call c => exact h.call c
  | fitting f => exact h.fitting f
  | verdict v => exact h.kept ⟨rfl, rfl, rfl⟩

/-- What any acts do to the limits. -/
lemma afterActs (h : Guarded guard byCrossover byMutation e) (acts : List (Act V)) :
    Guarded (guard ++ acts.flatMap Act.added) (acts.foldl Act.broughtByCrossover byCrossover)
      (acts.foldl Act.broughtByMutation byMutation) (e.afterActs acts) := by
  induction acts generalizing guard byCrossover byMutation e with
  | nil =>
    rw [List.flatMap_nil, List.append_nil]
    exact h
  | cons a acts ih =>
    rw [List.flatMap_cons, ← List.append_assoc]
    exact ih (h.act a)

end Guarded

/-- The limits of settings, depth before size, and then those that acts have added. -/
def limitsAfter (settings : Settings) (acts : List (Act V)) : List Limit :=
  (settings.depthLimit.map Limit.depth).toList ++ (settings.sizeLimit.map Limit.size).toList ++
    acts.flatMap Act.added

/-- An evolution is set up with the limits of its settings. -/
lemma guarded_of_eq_ok {sourceOf : UInt64 → σ} {otherSeed : UInt64} {settings : Settings}
    {v : Vocabulary V} {scorer : Scorer V} {e : Evolution σ V} {records : List Record}
    (h : Evolution.of sourceOf otherSeed settings v scorer = .ok (e, records)) :
    Guarded ((settings.depthLimit.map Limit.depth).toList ++
      (settings.sizeLimit.map Limit.size).toList) [] [] e := by
  obtain ⟨-, sampler, shoots, -, -, rfl⟩ := of_eq_ok h
  exact ⟨rfl, rfl, rfl⟩

/-! ### Operations without limits of their own -/

/-- An act is fresh unless it brings an operation that has limits already. -/
def Act.Fresh : Act V → Prop
  | .fitting (.crossover c) => c.limits = []
  | .fitting (.mutation m) => m.limits = []
  | _ => True

/-- A fresh act leaves a crossover that has brought no limits. -/
lemma Act.Fresh.broughtByCrossover_eq_nil {a : Act V} (h : a.Fresh) :
    a.broughtByCrossover [] = [] := by
  unfold Act.broughtByCrossover
  split
  · exact h
  · rfl

/-- A fresh act leaves a mutation that has brought no limits. -/
lemma Act.Fresh.broughtByMutation_eq_nil {a : Act V} (h : a.Fresh) :
    a.broughtByMutation [] = [] := by
  unfold Act.broughtByMutation
  split
  · exact h
  · rfl

/-- Fresh acts leave operations that have brought no limits. -/
lemma brought_eq_nil {acts : List (Act V)} (h : ∀ a ∈ acts, a.Fresh) :
    acts.foldl Act.broughtByCrossover [] = [] ∧ acts.foldl Act.broughtByMutation [] = [] := by
  induction acts with
  | nil => exact ⟨rfl, rfl⟩
  | cons a acts ih =>
    obtain ⟨ha, hacts⟩ := List.forall_mem_cons.mp h
    rw [List.foldl_cons, List.foldl_cons, ha.broughtByCrossover_eq_nil,
      ha.broughtByMutation_eq_nil]
    exact ih hacts

variable [Printed V] [WordSource σ]

/-- **Replacements keep the limits.**  Take an evolution that has been set up by settings, and any
acts, in any order, of which those that replace an operation bring one without limits.  Afterwards
crossover, mutation and the evolution itself have the same limits: the one on depth and the one on
size, as far as the settings have them, and then those that were added, each once, in the order in
which they came.  So each child of an operation is within all of them, wherever it does not give its
place back to the parent. -/
theorem replacements_keep_limits {sourceOf : UInt64 → σ} {otherSeed : UInt64} {settings : Settings}
    {v : Vocabulary V} {scorer : Scorer V} {bare : Evolution σ V} {records : List Record}
    (hbare : Evolution.of sourceOf otherSeed settings v scorer = .ok (bare, records))
    {acts : List (Act V)} (hfresh : ∀ a ∈ acts, a.Fresh) :
    (bare.afterActs acts).limits = limitsAfter settings acts ∧
      (bare.afterActs acts).crossover.limits = limitsAfter settings acts ∧
      (bare.afterActs acts).mutation.limits = limitsAfter settings acts ∧
      (∀ a b, Draw.Yields ((bare.afterActs acts).crossover.vary [a, b] :
          Draw σ (List (Individual V)))
        fun children => List.Forall₂ (Variation.Heir (limitsAfter settings acts)) [a, b]
          children) ∧
      ∀ a, Draw.Yields ((bare.afterActs acts).mutation.vary [a] : Draw σ (List (Individual V)))
        fun children => List.Forall₂ (Variation.Heir (limitsAfter settings acts)) [a] children := by
  have hguarded := (guarded_of_eq_ok hbare).afterActs acts
  obtain ⟨hcrossover, hmutation⟩ := brought_eq_nil hfresh
  rw [hcrossover, hmutation] at hguarded
  exact ⟨hguarded.limits_eq, hguarded.crossover_eq, hguarded.mutation_eq,
    hguarded.crossover_heirs, hguarded.mutation_heirs⟩

/-- Limits are added before and after both operations are replaced, and in between the evolution
goes on. -/
def replacementsAndLimits : List (Act Bool) :=
  [.call (.addLimit (.size 5)), .fitting (.mutation ⟨smallSampler, []⟩), .call .step,
    .fitting (.crossover ⟨[]⟩), .call (.addLimit (.depth 3)), .fitting (.crossover ⟨[]⟩)]

/-- The two limits of the settings come first, and then the two others. -/
theorem tightEvolution_gains_limits :
    (tightEvolution.afterActs replacementsAndLimits).limits =
        [.depth 1, .size 2, .size 5, .depth 3] ∧
      (tightEvolution.afterActs replacementsAndLimits).crossover.limits =
        [.depth 1, .size 2, .size 5, .depth 3] ∧
      (tightEvolution.afterActs replacementsAndLimits).mutation.limits =
        [.depth 1, .size 2, .size 5, .depth 3] := by
  have hfresh : ∀ a ∈ replacementsAndLimits, a.Fresh := by
    simp [replacementsAndLimits, Act.Fresh]
  obtain ⟨hlimits, hcrossover, hmutation, -⟩ := replacements_keep_limits tightEvolution_eq hfresh
  exact ⟨hlimits, hcrossover, hmutation⟩

end Evolution

end TreeEvolution
