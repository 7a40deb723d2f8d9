import TreeEvolution.Proofs.Evolution.Chronicle

/-!
# Evolved programs stay within bounds

The settings may bound the depth and the size of programs.  Nobody checks the initial programs, and
a child that is too large gives way to a parent that may be too large itself.  So an evolution need
not keep within its bounds; but whoever is beyond them has the program of somebody in the most
recent initial population (`Descends`).  When that population keeps within the bounds everyone does,
and the depth is bounded from the beginning if the sampler of initial programs keeps to the
bound.
-/

namespace TreeEvolution

/-! ### Bounds of settings -/

section Bounds

variable {V : Type} {s : Settings} {i j : Individual V}

/-- An individual keeps within the bounds that settings put on depth and size. -/
structure Settings.Bounds (s : Settings) (i : Individual V) : Prop where
  /-- The program is not deeper than allowed. -/
  depth : ∀ greatest, s.depthLimit = some greatest → ∃ d, i.depth = .ok d ∧ d ≤ greatest
  /-- The program is not longer than allowed. -/
  size : ∀ greatest, s.sizeLimit = some greatest → i.size ≤ greatest

/-- The limits of settings admit the individuals within their bounds. -/
lemma Settings.bounds_iff : s.Bounds i ↔ i.Within s.limits := by
  have hlimits : ∀ limit, limit ∈ s.limits ↔
      (∃ greatest, s.depthLimit = some greatest ∧ limit = .depth greatest) ∨
        ∃ greatest, s.sizeLimit = some greatest ∧ limit = .size greatest := by
    intro limit
    simp [Settings.limits, eq_comm]
  constructor
  · intro h limit hlimit
    rcases (hlimits limit).mp hlimit with ⟨greatest, hs, rfl⟩ | ⟨greatest, hs, rfl⟩
    · exact Limit.admits_depth_iff.mpr (h.depth greatest hs)
    · exact Limit.admits_size_iff.mpr (h.size greatest hs)
  · intro h
    constructor
    · intro greatest hs
      exact Limit.admits_depth_iff.mp (h _ ((hlimits _).mpr (Or.inl ⟨greatest, hs, rfl⟩)))
    · intro greatest hs
      exact Limit.admits_size_iff.mp (h _ ((hlimits _).mpr (Or.inr ⟨greatest, hs, rfl⟩)))

/-- Only the program matters. -/
lemma Settings.Bounds.congr (h : s.Bounds i) (hcode : j.code = i.code) : s.Bounds j :=
  Settings.bounds_iff.mpr ((Settings.bounds_iff.mp h).congr hcode)

end Bounds

namespace Evolution

variable {σ V : Type}

/-! ### Descent -/

/-- An individual is within the bounds, or it has the program of somebody in a population. -/
def BoundOrOf (s : Settings) (first : Population V) (i : Individual V) : Prop :=
  s.Bounds i ∨ ∃ j ∈ first.members, i.code = j.code

/-- Only the program matters. -/
lemma BoundOrOf.congr {s : Settings} {first : Population V} {i j : Individual V}
    (h : BoundOrOf s first i) (hcode : j.code = i.code) : BoundOrOf s first j := by
  rcases h with hbounds | ⟨k, hk, hik⟩
  · exact Or.inl (hbounds.congr hcode)
  · exact Or.inr ⟨k, hk, hcode.trans hik⟩

/-- Crossover and mutation are guarded by the limits of some settings, and so will be others in
their place.  Whoever is beyond the limits descends from the initial population unchanged. -/
structure Descends (s : Settings) (entries : List (Entry σ V)) (e : Evolution σ V) : Prop where
  /-- The evolution remembers the limits. -/
  limits : s.limits ⊆ e.limits
  /-- Crossover is guarded by them. -/
  crossover : s.limits ⊆ e.crossover.limits
  /-- Mutation is guarded by them. -/
  mutation : s.limits ⊆ e.mutation.limits
  /-- Everyone is within the limits or has an initial program. -/
  members : ∀ p, e.population = some p → ∃ first, origin entries = some first ∧
    ∀ i ∈ p.members, BoundOrOf s first i

/-- Everyone who is bred from a population was in it or is within the limits that guard both
operations. -/
lemma offspring_within_yields [WordSource σ] {e : Evolution σ V} {guard : List Limit}
    (hcrossover : guard ⊆ e.crossover.limits) (hmutation : guard ⊆ e.mutation.limits)
    (p : Population V) :
    Draw.Yields (e.offspring p) fun q => ∀ i ∈ q.members, i ∈ p.members ∨ i.Within guard := by
  refine (Selection.select_yields e.selection p e.settings.populationSize).bind
    fun selected hselected => ?_
  refine (Variation.breed_heirs hcrossover hmutation _ _ selected).mono fun q hq i hi => ?_
  obtain ⟨parent, hparent, hheir⟩ := Variation.exists_of_mem_heirs hq hi
  rcases hheir with rfl | ⟨-, hwithin⟩
  · exact Or.inl (hselected.2 i hparent)
  · exact Or.inr hwithin

namespace Descends

variable {s : Settings} {entries : List (Entry σ V)} {e : Evolution σ V}

/-- A replaced part is guarded as well. -/
lemma fitting (h : Descends s entries e) (f : Fitting V) : Descends s entries (f.perform e) := by
  cases f with
  | sampler t => exact ⟨h.limits, h.crossover, h.mutation, h.members⟩
  | selection r => exact ⟨h.limits, h.crossover, h.mutation, h.members⟩
  | crossover c =>
    refine ⟨h.limits, ?_, h.mutation, h.members⟩
    change s.limits ⊆ (e.limits.foldl Crossover.limit c).limits
    rw [foldl_crossover_limit]
    exact List.subset_append_of_subset_right c.limits h.limits
  | mutation m =>
    refine ⟨h.limits, h.crossover, ?_, h.members⟩
    change s.limits ⊆ (e.limits.foldl Mutation.limit m).limits
    rw [foldl_mutation_limit]
    exact List.subset_append_of_subset_right m.limits h.limits

/-- Further limits do no harm. -/
lemma addLimit (h : Descends s entries e) (l : Limit) : Descends s entries (e.addLimit l) where
  limits := List.subset_append_of_subset_left [l] h.limits
  crossover := List.subset_append_of_subset_left [l] h.crossover
  mutation := List.subset_append_of_subset_left [l] h.mutation
  members := h.members

/-- A verdict does not change programs. -/
lemma judged (h : Descends s entries e) (verdict : Verdict V) :
    Descends s entries (e.judged verdict) := by
  refine ⟨h.limits, h.crossover, h.mutation, fun q hq => ?_⟩
  rcases hstage : e.stage with _ | ⟨p, generation⟩
  · rw [population, Evolution.judged, hstage] at hq
    cases hq
  · rw [population, Evolution.judged, hstage] at hq
    cases hq
    have hp : e.population = some p := by rw [population, hstage]
    obtain ⟨first, hfirst, hmembers⟩ := h.members p hp
    refine ⟨first, hfirst, fun j hj => ?_⟩
    obtain ⟨k, hk, rfl⟩ := List.mem_mapIdx.mp hj
    exact (hmembers p.members[k] (List.getElem_mem hk)).congr rfl

variable [Printed V] [WordSource σ]

/-- A request keeps the descent. -/
lemma request (h : Descends s entries e) (r : Request) :
    Descends s (entries ++ [r.entry e]) (r.reply e).evolution := by
  rcases r.reply_cases e with ⟨f, source, hanswer, hevolution⟩ |
    ⟨p, scored, source, count, -, -, -, hanswer, hevolution⟩ |
    ⟨parents, generation, p, scored, source, count, -, hstage, houtcome, hjudged, hanswer,
      hevolution⟩
  · rw [hevolution]
    refine ⟨h.limits, h.crossover, h.mutation, fun q hq => ?_⟩
    rw [Request.origin_of_error hanswer]
    exact h.members q hq
  · have horigin := Request.origin_of_initial hanswer hevolution entries
    rw [hevolution]
    refine ⟨h.limits, h.crossover, h.mutation, fun q hq => ?_⟩
    cases hq
    exact ⟨scored, horigin, fun i hi => Or.inr ⟨i, hi, rfl⟩⟩
  · have hparents : e.population = some parents := by rw [population, hstage]
    obtain ⟨first, hfirst, hmembers⟩ := h.members parents hparents
    have horigin := Request.origin_of_bred hanswer hevolution entries
    have hbred : ∀ i ∈ p.members, BoundOrOf s first i := by
      intro i hi
      rcases offspring_within_yields h.crossover h.mutation parents e.source p source houtcome i hi
        with hparent | hwithin
      · exact hmembers i hparent
      · exact Or.inl (Settings.bounds_iff.mpr hwithin)
    rw [hevolution]
    refine ⟨h.limits, h.crossover, h.mutation, fun q hq => ?_⟩
    cases hq
    refine ⟨first, horigin.trans hfirst, ?_⟩
    exact Scoring.forall_mem_of_judged hjudged hbred fun i j hi hij => hi.congr hij.code_eq

/-- Whatever happens, the descent is kept. -/
lemma recorded (s : Settings) : Recorded (fun _ => True) (Descends (σ := σ) (V := V) s) where
  request _ _ r h := h.request r
  crossoverProbability _ _ _ _ h := ⟨h.limits, h.crossover, h.mutation, h.members⟩
  mutationProbability _ _ _ _ h := ⟨h.limits, h.crossover, h.mutation, h.members⟩
  addLimit _ _ l h := h.addLimit l
  fitting _ _ f _ h := h.fitting f
  judged _ _ v h := h.judged v

end Descends

/-! ### Depth from the beginning -/

/-- Initial programs are no deeper than some depth. -/
structure Shallow (inputs greatest : Nat) (entries : List (Entry σ V)) (e : Evolution σ V) :
    Prop where
  /-- The vocabulary of initial programs can make trees. -/
  vocabulary : e.sampler.vocabulary.Proper inputs
  /-- The heights of initial programs are bounded. -/
  height : e.sampler.greatest ≤ greatest
  /-- The most recent initial programs keep to the bound. -/
  first : ∀ p, origin entries = some p → ∀ i ∈ p.members, ∃ d, i.depth = .ok d ∧ d ≤ greatest

/-- The depth of an individual is that of its program, if there is one. -/
lemma exists_individual_depth {i : Individual V} {greatest : Nat}
    (h : ∃ d, i.code.depth = .ok d ∧ d ≤ greatest) : ∃ d, i.depth = .ok d ∧ d ≤ greatest := by
  unfold Individual.depth
  split
  · exact ⟨0, rfl, Nat.zero_le greatest⟩
  · exact h

variable [WordSource σ]

/-- The individuals of an initial population are no deeper than the sampler allows. -/
lemma sample_depth_yields {t : TreeSampler V} {inputs greatest : Nat}
    (hv : t.vocabulary.Proper inputs) (hheight : t.greatest ≤ greatest) (size : Nat) :
    Draw.Yields (Population.sample size t : Draw σ (Population V)) fun p =>
      ∀ i ∈ p.members, ∃ d, i.code.depth = .ok d ∧ d ≤ greatest := by
  refine (Population.sample_yields (TreeSampler.sample_depth_yields hv) size).mono
    fun p hp i hi => ?_
  obtain ⟨code, ⟨d, hd, hle⟩, rfl⟩ := hp.2 i hi
  exact ⟨d, hd, Nat.le_trans hle hheight⟩

variable [Printed V]

/-- Whatever happens, initial programs are no deeper than the samplers allow. -/
lemma recorded_shallow (inputs greatest : Nat) :
    Recorded (fun t : TreeSampler V => t.vocabulary.Proper inputs ∧ t.greatest ≤ greatest)
      (Shallow (σ := σ) (V := V) inputs greatest) where
  request entries e r h := by
    rcases r.reply_cases e with ⟨f, source, hanswer, hevolution⟩ |
      ⟨p, scored, source, count, -, houtcome, hjudged, hanswer, hevolution⟩ |
      ⟨parents, generation, p, scored, source, count, -, -, -, -, hanswer, hevolution⟩
    · rw [hevolution]
      refine ⟨h.vocabulary, h.height, ?_⟩
      rw [Request.origin_of_error hanswer]
      exact h.first
    · have horigin := Request.origin_of_initial hanswer hevolution entries
      have hsampled := sample_depth_yields h.vocabulary h.height e.settings.populationSize
        e.source p source houtcome
      rw [hevolution]
      refine ⟨h.vocabulary, h.height, fun q hq => ?_⟩
      rw [horigin] at hq
      cases hq
      refine Scoring.forall_mem_of_judged hjudged hsampled fun i j hi hij => ?_
      rw [← hij.code_eq] at hi
      exact exists_individual_depth hi
    · have horigin := Request.origin_of_bred hanswer hevolution entries
      rw [hevolution]
      refine ⟨h.vocabulary, h.height, ?_⟩
      rw [horigin]
      exact h.first
  crossoverProbability _ _ _ _ h := ⟨h.vocabulary, h.height, h.first⟩
  mutationProbability _ _ _ _ h := ⟨h.vocabulary, h.height, h.first⟩
  addLimit _ _ _ h := ⟨h.vocabulary, h.height, h.first⟩
  fitting _ _ f hf h := by
    cases f with
    | sampler t => exact ⟨(hf t rfl).1, (hf t rfl).2, h.first⟩
    | selection r => exact ⟨h.vocabulary, h.height, h.first⟩
    | crossover c => exact ⟨h.vocabulary, h.height, h.first⟩
    | mutation m => exact ⟨h.vocabulary, h.height, h.first⟩
  judged _ _ _ h := ⟨h.vocabulary, h.height, h.first⟩

/-! ### Whoever is beyond the bounds -/

/-- **Bloat.**  Take an evolution that has been set up by settings, and a population that it has
come to by any acts.  Whoever is beyond the bounds of the settings has the program of somebody in
the most recent initial population.  So everyone is within the bounds if everyone was at the
beginning; and nobody is deeper than the settings allow if initial trees are not made any deeper. -/
theorem oversized_are_of_the_origin {inputs : Nat} {names : List String} {pristine : Vocabulary V}
    (hpristine : Vocabulary.ofInputs inputs names = .ok pristine)
    (additions : List (Vocabulary.Addition V)) {sourceOf : UInt64 → σ} {otherSeed : UInt64}
    {settings : Settings} {scorer : Scorer V} {bare : Evolution σ V} {records : List Record}
    (hbare : Evolution.of sourceOf otherSeed settings (pristine.after additions) scorer =
      .ok (bare, records))
    (acts : List (Act V)) {p : Population V} (hp : (bare.afterActs acts).population = some p) :
    ∃ first, origin (chronicle acts bare) = some first ∧
      (∀ i ∈ p.members, ¬ settings.Bounds i → ∃ j ∈ first.members, i.code = j.code) ∧
      ((∀ j ∈ first.members, settings.Bounds j) → ∀ i ∈ p.members, settings.Bounds i) ∧
      ∀ greatest, settings.depthLimit = some greatest → settings.initMaxDepth ≤ greatest →
        (∀ t, .fitting (.sampler t) ∈ acts →
          t.vocabulary = pristine.after additions ∧ t.greatest ≤ greatest) →
        ∀ i ∈ p.members, ∃ d, i.depth = .ok d ∧ d ≤ greatest := by
  have hv : (pristine.after additions).Proper inputs :=
    (Vocabulary.proper_of_ofInputs hpristine).after additions
  obtain ⟨-, sampler, shoots, hsampler, -, hsetup⟩ := of_eq_ok hbare
  have hnobody : bare.population = none := by rw [hsetup, population]
  have hbegin : Descends settings [] bare := by
    refine ⟨?_, ?_, ?_, fun q hq => ?_⟩
    · rw [hsetup]
      exact List.Subset.refl _
    · rw [hsetup]
      exact List.Subset.refl _
    · rw [hsetup]
      exact List.Subset.refl _
    · rw [hnobody] at hq
      cases hq
  have hdescends : Descends settings ([] ++ chronicle acts bare) (bare.afterActs acts) :=
    (Descends.recorded settings).chronicle hbegin acts fun _ _ => True.intro
  obtain ⟨first, hfirst, hmembers⟩ := hdescends.members p hp
  refine ⟨first, hfirst, fun i hi hbounds => ?_, fun hall i hi => ?_, ?_⟩
  · exact (hmembers i hi).resolve_left hbounds
  · rcases hmembers i hi with hbounds | ⟨j, hj, hij⟩
    · exact hbounds
    · exact (hall j hj).congr hij
  · intro greatest hlimit hinit hfitted i hi
    have hgreatest : sampler.greatest ≤ greatest := by
      rw [(TreeSampler.of_eq_ok hsampler).2.2.2]
      exact hinit
    have hvocabulary : sampler.vocabulary.Proper inputs := by
      rw [(TreeSampler.of_eq_ok hsampler).2.1]
      exact hv
    have hshallow : Shallow inputs greatest ([] : List (Entry σ V)) bare := by
      rw [hsetup]
      exact ⟨hvocabulary, hgreatest, fun q hq => by cases hq⟩
    have hlater : Shallow inputs greatest ([] ++ chronicle acts bare) (bare.afterActs acts) := by
      refine (recorded_shallow inputs greatest).chronicle hshallow acts fun t ht => ?_
      obtain ⟨hsame, hheight⟩ := hfitted t ht
      rw [hsame]
      exact ⟨hv, hheight⟩
    rcases hmembers i hi with hbounds | ⟨j, hj, hij⟩
    · exact hbounds.depth greatest hlimit
    · obtain ⟨d, hd, hle⟩ := hlater.first first hfirst j hj
      rw [Individual.depth, hij]
      exact ⟨d, hd, hle⟩

/-- In a small evolution an initial program of three symbols makes up a whole generation, where two
are allowed; no program is deeper than allowed. -/
theorem tightEvolution_has_oversized :
    ∃ p first, (tightEvolution.afterActs actsWithFailures).population = some p ∧
      origin (chronicle actsWithFailures tightEvolution) = some first ∧
      p.members.map Individual.size = [3, 3] ∧
      ∀ i ∈ p.members, (∃ j ∈ first.members, i.code = j.code) ∧
        ∃ d, i.depth = .ok d ∧ d ≤ 1 := by
  have hpristine : Vocabulary.ofInputs 1 ["x"] = .ok (⟨1, [.input "x" 0], []⟩ : Vocabulary Bool) :=
    rfl
  rcases hp : (tightEvolution.afterActs actsWithFailures).population with _ | p
  · exact absurd (congrArg Option.isSome hp) (by decide +kernel)
  · obtain ⟨first, hfirst, hbeyond, -, hdepth⟩ :=
      oversized_are_of_the_origin hpristine smallAdditions tightEvolution_eq actsWithFailures hp
    have hsizes : (tightEvolution.afterActs actsWithFailures).population.map
        (fun p => p.members.map Individual.size) = some [3, 3] := by
      decide +kernel
    rw [hp] at hsizes
    have hsizes : p.members.map Individual.size = [3, 3] := Option.some.inj hsizes
    refine ⟨p, first, rfl, hfirst, hsizes, fun i hi => ⟨hbeyond i hi fun hbounds => ?_, ?_⟩⟩
    · have hmem : i.size ∈ [3, 3] := by
        rw [← hsizes]
        exact List.mem_map_of_mem hi
      have hthree : i.size = 3 := by simpa using hmem
      have htwo : i.size ≤ 2 := hbounds.size 2 rfl
      omega
    · refine hdepth 1 rfl (Nat.le_refl 1) (fun t ht => ?_) i hi
      simp [actsWithFailures] at ht

end Evolution

end TreeEvolution
