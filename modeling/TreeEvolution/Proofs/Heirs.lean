import Mathlib.Data.List.Forall2
import TreeEvolution.Proofs.Courses

/-!
# Heirs

Breeding keeps the places of a population.  In each place there is afterwards the individual that
was there before, with its score, or a new one that has no score and keeps within the limits of the
operations (`Variation.Heir`).  A child that breaks a limit gives its place back to the individual
it is derived from, which may itself be beyond the limits; so nothing can be said of the size of
everyone, but only of those who are new (`Variation.breed_heirs`).
-/

namespace TreeEvolution.Variation

variable {V σ : Type} {guard : List Limit}

/-- Who may stand in the place of an individual after breeding: the individual as it was, or a new
one without a score and within some limits. -/
def Heir (guard : List Limit) (parent child : Individual V) : Prop :=
  child = parent ∨ child.score = .pending ∧ child.Within guard

/-- Every heir has somebody to be the heir of. -/
lemma exists_of_mem_heirs {parents heirs : List (Individual V)}
    (h : List.Forall₂ (Heir guard) parents heirs) {j : Individual V} (hj : j ∈ heirs) :
    ∃ i ∈ parents, Heir guard i j := by
  induction h with
  | nil => cases hj
  | @cons i _ parents _ hij _ ih =>
    rcases List.mem_cons.mp hj with rfl | hj
    · exact ⟨i, List.mem_cons_self, hij⟩
    · obtain ⟨i, hi, hij⟩ := ih hj
      exact ⟨i, List.mem_cons_of_mem _ hi, hij⟩

/-- Whoever survives some limits is an heir within any of them. -/
lemma heir_survivor {limits : List Limit} (h : guard ⊆ limits) (parent : Individual V)
    (p : Program V) : Heir guard parent (Limit.survivor limits parent { code := p }) := by
  by_cases hwithin : ({ code := p } : Individual V).Within limits
  · rw [Limit.survivor_of_within hwithin]
    exact Or.inr ⟨rfl, hwithin.mono h⟩
  · rw [Limit.survivor_of_not_within hwithin]
    exact Or.inl rfl

variable [WordSource σ]

/-- Crossover makes heirs within its limits. -/
lemma crossover_heirs {c : Crossover} (h : guard ⊆ c.limits) (a b : Individual V) :
    Draw.Yields (c.vary [a, b] : Draw σ (List (Individual V)))
      fun children => List.Forall₂ (Heir guard) [a, b] children := by
  refine (c.vary_yields a b).mono fun children hchildren => ?_
  rcases hchildren with ⟨-, rfl⟩ | ⟨-, here, there, left, right, -, hkept⟩
  · exact .cons (Or.inl rfl) (.cons (Or.inl rfl) .nil)
  · rw [Limit.eq_zipWith_of_enforceAll (Eq.refl 2) hkept]
    exact .cons (heir_survivor h a left) (.cons (heir_survivor h b right) .nil)

/-- Mutation makes an heir within its limits. -/
lemma mutation_heirs {m : Mutation V} (h : guard ⊆ m.limits) (a : Individual V) :
    Draw.Yields (m.vary [a] : Draw σ (List (Individual V)))
      fun children => List.Forall₂ (Heir guard) [a] children := by
  refine (m.vary_yields a).mono fun children hchildren => ?_
  rcases hchildren with rfl | ⟨position, tree, child, -, -, hkept⟩
  · exact .cons (Or.inl rfl) .nil
  · rw [Limit.eq_zipWith_of_enforceAll (Eq.refl 1) hkept]
    exact .cons (heir_survivor h a child) .nil

/-- The course of a place ends with an heir of the individual with which it begins. -/
lemma Course.heir_of_made {c : Crossover} {m : Mutation V} {mate? : Option (Individual V)}
    {course : Course V} (hcrossed : course.toCrossing.Made c mate?) (h : course.Made σ m)
    (hc : guard ⊆ c.limits) (hm : guard ⊆ m.limits) :
    Heir guard course.selected course.holder := by
  cases hnew : course.isNew with
  | false => exact Or.inl (holder_of_not_isNew hnew)
  | true => exact Or.inr ⟨score_of_isNew hnew, within_of_isNew hcrossed h hnew hc hm⟩

/-- Breeding makes heirs within all limits that crossover and mutation share. -/
lemma breed_heirs {c : Crossover} {m : Mutation V} (hc : guard ⊆ c.limits) (hm : guard ⊆ m.limits)
    (crossoverProbability mutationProbability : Float) (p : Population V) :
    Draw.Yields (breed c m crossoverProbability mutationProbability p : Draw σ (Population V))
      fun q => List.Forall₂ (Heir guard) p.members q.members := by
  rw [breed_eq_courses]
  refine (courses_yields c m crossoverProbability mutationProbability p).bind
    fun places hplaces => Draw.Yields.pure ?_
  rw [← hplaces.1, List.forall₂_map_left_iff, List.forall₂_map_right_iff, List.forall₂_same]
  intro course hcourse
  obtain ⟨k, hk⟩ := List.mem_iff_getElem?.mp hcourse
  obtain ⟨hcrossed, hmutated⟩ := hplaces.2 k course hk
  exact Course.heir_of_made hcrossed hmutated hc hm

end TreeEvolution.Variation
