import Mathlib.Data.List.Basic
import TreeEvolution.Proofs.Best
import TreeEvolution.Proofs.Outcomes
import TreeEvolution.Selection

/-!
# Who is drawn and who is selected

A population of random programs has unscored individuals, whose programs are random ones
(`Population.sample_yields`).  Everyone who is selected is a member of the population, by either
rule (`Selection.select_yields`).
-/

namespace TreeEvolution

namespace Population

variable {V σ : Type} {p : Population V}

/-! ### Populations of random programs -/

/-- A new population has as many individuals as were asked for; they have no score yet, and their
programs are random ones. -/
lemma sample_yields [WordSource σ] {sampler : TreeSampler V} {P : Program V → Prop}
    (h : Draw.Yields (sampler.sample : Draw σ (Program V)) P) (size : Nat) :
    Draw.Yields (Population.sample size sampler : Draw σ (Population V)) fun p =>
      p.size = size ∧ ∀ i ∈ p.members, ∃ code, P code ∧ i = { code := code } := by
  have hone : Draw.Yields
      (do let code ← sampler.sample; pure { code := code } : Draw σ (Individual V))
      fun i => ∃ code, P code ∧ i = { code := code } :=
    h.bind fun code hcode => Draw.Yields.pure ⟨code, hcode, rfl⟩
  refine Draw.Yields.bind_any fun _ => ?_
  exact (hone.times size).bind fun members hmembers => Draw.Yields.pure hmembers

/-- A population that is drawn and kept has been drawn, and its programs are not longer than lists
can be. -/
lemma outcome_bind_kept {draw : Draw σ (Population V)} {source rest : σ}
    (h : (draw >>= Population.kept).outcome source = (.ok p, rest)) :
    draw.outcome source = (.ok p, rest) ∧ ∀ i ∈ p.members, Extent.fits i.size = true := by
  obtain ⟨q, between, hdraw, hkept⟩ := Draw.outcome_bind_eq_ok.mp h
  obtain ⟨_, after, hrequire, hpure⟩ := Draw.outcome_bind_eq_ok.mp hkept
  cases hpure
  rw [Draw.require] at hrequire
  by_cases hfits : (p.members.all fun i => Extent.fits i.size) = true
  · rw [if_pos hfits] at hrequire
    cases hrequire
    exact ⟨hdraw, List.all_eq_true.mp hfits⟩
  · rw [if_neg hfits] at hrequire
    cases hrequire

end Population

namespace Selection

variable {V σ : Type} [WordSource σ]

/-! ### Selected individuals -/

/-- Random picks are members, as many as were asked for. -/
lemma picks_yields (p : Population V) (count : Nat) :
    Draw.Yields (picks p count : Draw σ (Population V)) fun q =>
      q.size = count ∧ ∀ i ∈ q.members, i ∈ p.members := by
  unfold picks
  split
  · exact Draw.Yields.error _
  · rename_i hempty
    have hpick : Draw.Yields (do
        let i ← Random.element p.members (by simpa using hempty)
        pure i.val : Draw σ (Individual V)) fun i => i ∈ p.members :=
      Draw.Yields.bind_any fun i => Draw.Yields.pure i.property
    refine Draw.Yields.bind_any fun _ => ?_
    exact (hpick.times count).bind fun members hmembers => Draw.Yields.pure hmembers

/-- The winner of a tournament is a member. -/
lemma winner_yields (p : Population V) (size : Nat) :
    Draw.Yields (winner p size : Draw σ (Individual V)) fun i => i ∈ p.members := by
  refine (picks_yields p (max size 1)).bind fun group hgroup => ?_
  rcases hbest : group.best with e | i
  · exact Draw.Yields.error e
  · exact Draw.Yields.pure (hgroup.2 i (Population.mem_of_best hbest))

/-- The selected individuals are members, as many as were asked for. -/
lemma select_yields (s : Selection) (p : Population V) (count : Nat) :
    Draw.Yields (s.select p count : Draw σ (Population V)) fun q =>
      q.size = count ∧ ∀ i ∈ q.members, i ∈ p.members := by
  cases s with
  | uniform => exact picks_yields p count
  | tournament size =>
    exact ((winner_yields p size).times count).bind fun members hmembers =>
      Draw.Yields.pure hmembers

end Selection

end TreeEvolution
