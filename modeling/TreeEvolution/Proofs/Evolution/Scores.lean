import TreeEvolution.Proofs.Evolution.History

/-!
# Scores are never out of date

Only individuals without a valid fitness are scored, so everyone else must have the right score
already.  This holds because variation makes children without a score and otherwise hands on
individuals as they are: whoever has a valid fitness has been scored with the present program.
-/

namespace TreeEvolution

namespace Evolution

variable {σ V : Type} [WordSource σ]

/-- An individual has the score that a scorer gives its program. -/
def Current (scorer : Scorer V) (i : Individual V) : Prop :=
  scorer i.code = .ok i.score

/-- Individuals with a valid fitness have the score of their program before scoring, and everyone
has it afterwards. -/
lemma lineage_current (e : Evolution σ V) :
    e.Lineage (fun i => i.valid = true → Current e.scorer i) (Current e.scorer) where
  sampled := (Draw.Yields.trivial _).mono fun code _ hvalid => by cases hvalid
  inherits :=
    { crossed := fun _ _ _ _ _ _ _ _ _ _ hvalid => by cases hvalid
      mutated := fun _ _ => (Draw.Yields.trivial _).mono fun _ _ _ _ _ hvalid => by cases hvalid }
  bred_of_living _ h _ := h
  living_of_judged i j hbred _ hjudged := by
    unfold Scoring.Judged at hjudged
    split at hjudged
    · rename_i hvalid
      rw [hjudged]
      exact hbred hvalid
    · obtain ⟨s, hs, rfl⟩ := hjudged
      exact hs

variable [Printed V]

/-- **Scores are current.**  After any calls, everyone in the population has exactly the score that
the scorer gives the present program. -/
theorem every_score_is_current {e : Evolution σ V} (hinitial : e.stage = .initial)
    (calls : List (Call V)) {p : Population V} (hp : (e.after calls).population = some p)
    {i : Individual V} (hi : i ∈ p.members) : e.scorer i.code = .ok i.score :=
  e.lineage_current.after (everyone_of_initial hinitial) calls p hp i hi

/-- In a small evolution a limit is added and two individuals are sampled in a run; one of them is
too long for a valid fitness, and both have the scores of their programs. -/
theorem smallEvolution_scores_are_current :
    ∃ p, (smallEvolution.after [.addLimit (.depth 3), .run (watcher 0) 1 []]).population = some p ∧
      p.members.map (fun i => i.score.valid) = [true, false] ∧
      ∀ i ∈ p.members, smallEvolution.scorer i.code = .ok i.score := by
  rcases hp : (smallEvolution.after [.addLimit (.depth 3), .run (watcher 0) 1 []]).population
    with _ | p
  · exact absurd (congrArg Option.isSome hp) (by decide +kernel)
  · refine ⟨p, rfl, ?_, fun i hi => every_score_is_current rfl _ hp hi⟩
    have hvalid :
        (smallEvolution.after [.addLimit (.depth 3), .run (watcher 0) 1 []]).population.map
        (fun p => p.members.map fun i => i.score.valid) = some [true, false] := by
      decide +kernel
    rw [hp] at hvalid
    exact Option.some.inj hvalid

end Evolution

end TreeEvolution
