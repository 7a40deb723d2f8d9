import TreeEvolution.Proofs.Numbers
import TreeEvolution.Settings.Basic

/-!
# Settings that are accepted

The check of settings looks for one flaw after the other; together the checks say what settings have
to be like (`Settings.Valid`).  What is not a number is no probability, since no comparison holds of
it.
-/

namespace TreeEvolution.Settings

/-! ### Probabilities -/

/-- What is not a number is no probability. -/
lemma isProbability_of_isNaN {p : Float} (h : p.isNaN = true) : isProbability p = false := by
  have hle : ¬ p ≤ 1 := fun hle => by
    rw [(Number.isNaN_eq_false_of_le hle).1] at h
    cases h
  simp [isProbability, hle]

/-! ### The check of settings -/

/-- What is required of settings. -/
structure Valid (s : Settings) : Prop where
  /-- There are two individuals to cross. -/
  populationSize : 2 ≤ s.populationSize
  /-- There is a worker. -/
  threads : s.threads ≠ 0
  /-- A tournament has entrants. -/
  tournamentSize : s.tournamentSize ≠ 0
  /-- The probability of crossover is one. -/
  crossoverProbability : isProbability s.crossoverProbability = true
  /-- The probability of mutation is one. -/
  mutationProbability : isProbability s.mutationProbability = true
  /-- The fitness with which a run ends lies between zero and one. -/
  targetFitness : isProbability s.targetFitness = true
  /-- There is a height for initial trees. -/
  initDepth : s.initMinDepth ≤ s.initMaxDepth
  /-- There is a height for the trees of mutation. -/
  mutationDepth : s.mutationMinDepth ≤ s.mutationMaxDepth
  /-- Some program is small enough. -/
  sizeLimit : s.sizeLimit ≠ some 0

/-- A check finds no flaw if its condition does not hold and the checks after it find none. -/
lemma ite_some_eq_none_iff {α : Type} {c : Prop} [Decidable c] {a : α} {rest : Option α} :
    (if c then some a else rest) = none ↔ ¬ c ∧ rest = none := by
  by_cases hc : c
  · simp [hc]
  · simp [hc]

/-- Settings are accepted exactly if they fulfil all requirements. -/
lemma validate_eq_ok_iff {s : Settings} : s.validate = .ok () ↔ s.Valid := by
  have hflaw : s.validate = .ok () ↔ s.flaw? = none := by
    unfold validate
    rcases s.flaw? with _ | flaw <;> simp
  rw [hflaw, flaw?]
  simp only [ite_some_eq_none_iff, and_true, Nat.not_lt, Bool.not_eq_true', Bool.not_eq_false]
  constructor
  · rintro ⟨hpopulation, hthreads, htournament, hcrossover, hmutation, htarget, hinit, hshoots,
      hsize⟩
    exact ⟨hpopulation, hthreads, htournament, hcrossover, hmutation, htarget, hinit, hshoots,
      hsize⟩
  · intro h
    exact ⟨h.populationSize, h.threads, h.tournamentSize, h.crossoverProbability,
      h.mutationProbability, h.targetFitness, h.initDepth, h.mutationDepth, h.sizeLimit⟩

end TreeEvolution.Settings
