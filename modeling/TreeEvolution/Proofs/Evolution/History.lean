import TreeEvolution.Evolution
import TreeEvolution.Proofs.Scoring
import TreeEvolution.Proofs.Selection
import TreeEvolution.Proofs.Settings
import TreeEvolution.Proofs.TreeSampler
import TreeEvolution.Proofs.Variation
import TreeEvolution.Random.Listed
import TreeEvolution.Symbol.Boolean

/-!
# Histories of evolutions

An evolution that has been set up can be asked to begin anew, to go on by one generation, to run,
and to change its probabilities and limits (`Call`).  All calls that have to do with individuals
come down to `Evolution.advance`, and `advance_cases` says what it can do: nothing but use up random
words, or make a drawn and scored population the present one.

So what holds of an evolution after any calls is shown for new populations, bred populations, other
settings and further limits only (`Closed.after`).  For a property of individuals even less is
needed: `Lineage` collects what sampling, breeding and scoring have to do with it, and
`Lineage.after` has the result.
-/

namespace TreeEvolution

namespace Evolution

variable {σ V : Type}

/-! ### Calls -/

/-- A request to an evolution that has been set up. -/
inductive Call (V : Type) : Type 1 where
  /-- Begin anew. -/
  | start
  /-- Go on by one generation, or begin. -/
  | step
  /-- Step until an observer says stop, at most the given number of times. -/
  | run {ω : Type} (observer : Observer V ω) (steps : Nat) (state : ω)
  /-- Change the probability of crossover. -/
  | setCrossoverProbability (p : Float)
  /-- Change the probability of mutation. -/
  | setMutationProbability (p : Float)
  /-- Guard crossover and mutation with one more limit. -/
  | addLimit (l : Limit)

section Calls

variable [Printed V] [WordSource σ]

/-- The evolution after a call.  A change that is refused is none. -/
def Call.perform (e : Evolution σ V) : Call V → Evolution σ V
  | start => e.start.evolution
  | step => e.step.evolution
  | run observer steps state => (Evolution.run observer steps state e).evolution
  | setCrossoverProbability p =>
    match e.setCrossoverProbability p with
    | .ok changed => changed
    | .error _ => e
  | setMutationProbability p =>
    match e.setMutationProbability p with
    | .ok changed => changed
    | .error _ => e
  | addLimit l => e.addLimit l

/-- The evolution after some calls, one after the other. -/
def after (calls : List (Call V)) (e : Evolution σ V) : Evolution σ V :=
  calls.foldl Call.perform e

end Calls

/-! ### Evolutions as they are set up -/

/-- A crossover with some more limits. -/
lemma foldl_crossover_limit (limits : List Limit) (c : Crossover) :
    limits.foldl Crossover.limit c = ⟨c.limits ++ limits⟩ := by
  induction limits generalizing c with
  | nil => simp
  | cons l limits ih => simp [ih, Crossover.limit]

/-- A mutation with some more limits. -/
lemma foldl_mutation_limit (limits : List Limit) (m : Mutation V) :
    limits.foldl Mutation.limit m = ⟨m.sampler, m.limits ++ limits⟩ := by
  induction limits generalizing m with
  | nil => simp
  | cons l limits ih => simp [ih, Mutation.limit]

/-- Limits that are added guard crossover and mutation. -/
lemma foldl_addLimit_eq (limits : List Limit) (e : Evolution σ V) :
    limits.foldl addLimit e =
      { e with
        crossover := ⟨e.crossover.limits ++ limits⟩
        mutation := ⟨e.mutation.sampler, e.mutation.limits ++ limits⟩
        limits := e.limits ++ limits } := by
  induction limits generalizing e with
  | nil => simp
  | cons l limits ih =>
    rw [List.foldl_cons, ih]
    simp [addLimit, Crossover.limit, Mutation.limit]

/-- What has been set up by settings that are accepted. -/
lemma of_eq_ok {sourceOf : UInt64 → σ} {otherSeed : UInt64} {settings : Settings}
    {v : Vocabulary V} {scorer : Scorer V} {e : Evolution σ V} {records : List Record}
    (h : Evolution.of sourceOf otherSeed settings v scorer = .ok (e, records)) :
    settings.validate = .ok () ∧ ∃ sampler shoots,
      TreeSampler.of settings.initMethod v settings.initMinDepth settings.initMaxDepth =
        .ok sampler ∧
      TreeSampler.of .grow v settings.mutationMinDepth settings.mutationMaxDepth = .ok shoots ∧
      e =
        { settings := settings
          vocabulary := v
          sampler := sampler
          selection := .tournament settings.tournamentSize
          crossover := ⟨settings.limits⟩
          mutation := ⟨shoots, settings.limits⟩
          limits := settings.limits
          scorer := scorer
          seed := settings.seed.getD otherSeed
          source := sourceOf (settings.seed.getD otherSeed)
          stage := .initial } := by
  obtain ⟨_, haccepted, h⟩ := bind_eq_ok.mp h
  obtain ⟨sampler, hsampler, h⟩ := bind_eq_ok.mp h
  obtain ⟨shoots, hshoots, h⟩ := bind_eq_ok.mp h
  refine ⟨haccepted, sampler, shoots, hsampler, hshoots, ?_⟩
  cases h
  rw [foldl_addLimit_eq]
  simp

/-- An evolution can be set up exactly by settings that are accepted and a vocabulary with a
terminal. -/
lemma exists_of_eq_ok_iff {sourceOf : UInt64 → σ} {otherSeed : UInt64} {settings : Settings}
    {v : Vocabulary V} {scorer : Scorer V} :
    (∃ e records, Evolution.of sourceOf otherSeed settings v scorer = .ok (e, records)) ↔
      settings.validate = .ok () ∧ v.terminals ≠ [] := by
  constructor
  · rintro ⟨e, records, h⟩
    obtain ⟨haccepted, sampler, shoots, hsampler, -, -⟩ := of_eq_ok h
    exact ⟨haccepted, (TreeSampler.exists_of_eq_ok_iff.mp ⟨sampler, hsampler⟩).2⟩
  · rintro ⟨haccepted, hterminals⟩
    have hvalid : settings.Valid := Settings.validate_eq_ok_iff.mp haccepted
    obtain ⟨sampler, hsampler⟩ : ∃ sampler, TreeSampler.of settings.initMethod v
        settings.initMinDepth settings.initMaxDepth = .ok sampler :=
      TreeSampler.exists_of_eq_ok_iff.mpr ⟨hvalid.initDepth, hterminals⟩
    obtain ⟨shoots, hshoots⟩ : ∃ shoots, TreeSampler.of .grow v settings.mutationMinDepth
        settings.mutationMaxDepth = .ok shoots :=
      TreeSampler.exists_of_eq_ok_iff.mpr ⟨hvalid.mutationDepth, hterminals⟩
    unfold Evolution.of
    rw [haccepted, hsampler, hshoots]
    exact ⟨_, _, rfl⟩

/-! ### What the calls do -/

/-- A drawn population is scored and takes the place of the present one, or it is given up and
nothing but the source of random words has changed. -/
lemma advance_cases [Printed V] (e : Evolution σ V) (draw : Draw σ (Population V))
    (generation : Nat) :
    (∃ f source, (e.advance draw generation).answer = .error f ∧
      (e.advance draw generation).evolution = { e with source := source }) ∨
    ∃ p scored source, draw.outcome e.source = (.ok p, source) ∧
      (∀ i ∈ p.members, Extent.fits i.size = true) ∧
      List.Forall₂ (Scoring.Judged e.scorer) p.members scored.members ∧
      (e.advance draw generation).answer = .ok (Scoring.pending p.members).length ∧
      (e.advance draw generation).evolution =
        { e with source := source, stage := .stepping scored generation } := by
  rcases houtcome : (draw >>= Population.kept).outcome e.source with ⟨f | p, source⟩
  · refine Or.inl ⟨f, source, ?_, ?_⟩ <;> rw [advance, houtcome]
  · obtain ⟨hdraw, hfits⟩ := Population.outcome_bind_kept houtcome
    have hadvance : e.advance draw generation =
        install { e with source := source } p generation := by
      rw [advance, houtcome]
    rcases hcount : (Scoring.score e.scorer e.settings.threads p.members).count with f | count
    · refine Or.inl ⟨.fault f, source, ?_, ?_⟩
      · rw [hadvance, install]
        simp only [hcount]
      · rw [hadvance, install]
        simp only [hcount]
    · obtain ⟨hjudged, rfl⟩ := Scoring.score_judged hcount
      refine Or.inr ⟨p, ⟨_⟩, source, hdraw, hfits, hjudged, ?_, ?_⟩
      · rw [hadvance, install]
        simp only [hcount]
      · rw [hadvance, install]
        simp only [hcount]

/-- A new probability of crossover changes nothing but the settings. -/
lemma eq_of_setCrossoverProbability {e changed : Evolution σ V} {p : Float}
    (h : e.setCrossoverProbability p = .ok changed) :
    ∃ settings, changed = { e with settings := settings } := by
  unfold setCrossoverProbability at h
  split at h
  · cases h
    exact ⟨_, rfl⟩
  · cases h

/-- A new probability of mutation changes nothing but the settings. -/
lemma eq_of_setMutationProbability {e changed : Evolution σ V} {p : Float}
    (h : e.setMutationProbability p = .ok changed) :
    ∃ settings, changed = { e with settings := settings } := by
  unfold setMutationProbability at h
  split at h
  · cases h
    exact ⟨_, rfl⟩
  · cases h

section Closed

variable [Printed V] [WordSource σ]

/-- A property of evolutions that every call preserves. -/
structure Closed (P : Evolution σ V → Prop) : Prop where
  /-- It is preserved by a new population. -/
  start : ∀ e, P e → P e.start.evolution
  /-- It is preserved by a bred population. -/
  breed : ∀ e p generation, P e → e.stage = .stepping p generation →
    P (e.advance (e.offspring p) (generation + 1)).evolution
  /-- It is preserved by other settings. -/
  settings : ∀ e settings, P e → P { e with settings := settings }
  /-- It is preserved by one more limit. -/
  addLimit : ∀ e l, P e → P (e.addLimit l)

namespace Closed

variable {P : Evolution σ V → Prop} {ω : Type}

/-- A step preserves the property. -/
lemma step (h : Closed P) {e : Evolution σ V} (he : P e) : P e.step.evolution := by
  unfold Evolution.step
  split
  · exact h.start e he
  · rename_i p generation hstage
    exact h.breed e p generation he hstage

/-- Steps preserve the property, whatever the observer says. -/
lemma stepUntil (h : Closed P) (observer : Observer V ω) (steps : Nat) (state : ω)
    {e : Evolution σ V} (he : P e) : P (Evolution.stepUntil observer steps state e).evolution := by
  induction steps generalizing state e with
  | zero => exact he
  | succ steps ih =>
    have hstep : P e.step.evolution := h.step he
    unfold Evolution.stepUntil
    dsimp only
    split
    · exact hstep
    · exact ih state hstep
    · split
      · exact hstep
      · exact ih _ hstep
      · exact hstep

/-- A call preserves the property. -/
lemma perform (h : Closed P) {e : Evolution σ V} (he : P e) (call : Call V) :
    P (call.perform e) := by
  cases call with
  | start => exact h.start e he
  | step => exact h.step he
  | run observer steps state => exact h.stepUntil observer steps state he
  | setCrossoverProbability p =>
    rw [Call.perform]
    rcases hset : e.setCrossoverProbability p with f | changed
    · exact he
    · obtain ⟨settings, rfl⟩ := eq_of_setCrossoverProbability hset
      exact h.settings e settings he
  | setMutationProbability p =>
    rw [Call.perform]
    rcases hset : e.setMutationProbability p with f | changed
    · exact he
    · obtain ⟨settings, rfl⟩ := eq_of_setMutationProbability hset
      exact h.settings e settings he
  | addLimit l => exact h.addLimit e l he

/-- Any calls preserve the property. -/
lemma after (h : Closed P) {e : Evolution σ V} (he : P e) (calls : List (Call V)) :
    P (e.after calls) := by
  induction calls generalizing e with
  | nil => exact he
  | cons call calls ih => exact ih (h.perform he call)

end Closed

end Closed

/-! ### Properties of individuals -/

/-- The individuals of the present population have a property. -/
def Everyone (P : Individual V → Prop) (e : Evolution σ V) : Prop :=
  ∀ p, e.population = some p → ∀ i ∈ p.members, P i

/-- Before the first population there is nobody. -/
lemma everyone_of_initial {P : Individual V → Prop} {e : Evolution σ V}
    (h : e.stage = .initial) : e.Everyone P := by
  intro p hp
  rw [population, h] at hp
  cases hp

variable [WordSource σ]

/-- What the operations of an evolution have to do with a property of individuals that live, and one
of individuals that are sampled or bred and have yet to be scored. -/
structure Lineage (e : Evolution σ V) (bred living : Individual V → Prop) : Prop where
  /-- New individuals may be scored. -/
  sampled : Draw.Yields (e.sampler.sample : Draw σ (Program V)) fun code => bred { code := code }
  /-- Children may be scored. -/
  inherits : Variation.Inherits σ e.mutation.sampler bred
  /-- The individuals that are bred from may be scored. -/
  bred_of_living : ∀ i, living i → bred i
  /-- Individuals may live when they have been scored. -/
  living_of_judged : ∀ i j, bred i → Extent.fits i.size = true → Scoring.Judged e.scorer i j →
    living j

namespace Lineage

variable {e : Evolution σ V} {bred living : Individual V → Prop}

/-- Only the samplers and the scorer matter. -/
lemma congr (h : e.Lineage bred living) {other : Evolution σ V}
    (hsampler : other.sampler = e.sampler)
    (hshoots : other.mutation.sampler = e.mutation.sampler) (hscorer : other.scorer = e.scorer) :
    other.Lineage bred living where
  sampled := by
    rw [hsampler]
    exact h.sampled
  inherits := by
    rw [hshoots]
    exact h.inherits
  bred_of_living := h.bred_of_living
  living_of_judged := by
    rw [hscorer]
    exact h.living_of_judged

/-- The individuals of an initial population may be scored. -/
lemma start_yields (h : e.Lineage bred living) (size : Nat) :
    Draw.Yields (Population.sample size e.sampler : Draw σ (Population V))
      fun p => ∀ i ∈ p.members, bred i := by
  refine (Population.sample_yields h.sampled size).mono fun p hp i hi => ?_
  obtain ⟨code, hcode, rfl⟩ := hp.2 i hi
  exact hcode

/-- The individuals that are bred from a population may be scored. -/
lemma offspring_yields (h : e.Lineage bred living) {p : Population V}
    (hp : ∀ i ∈ p.members, living i) :
    Draw.Yields (e.offspring p) fun q => ∀ i ∈ q.members, bred i := by
  refine (Selection.select_yields e.selection p e.settings.populationSize).bind
    fun selected hselected => ?_
  refine h.inherits.breed_yields e.crossover _ _ fun i hi => ?_
  exact h.bred_of_living i (hp i (hselected.2 i hi))

variable [Printed V]

/-- When a population of individuals that may be scored is drawn, everyone may live. -/
lemma advance (h : e.Lineage bred living) (hliving : e.Everyone living)
    {draw : Draw σ (Population V)} (hdraw : draw.Yields fun p => ∀ i ∈ p.members, bred i)
    (generation : Nat) :
    (e.advance draw generation).evolution.Lineage bred living ∧
      (e.advance draw generation).evolution.Everyone living := by
  rcases e.advance_cases draw generation with
    ⟨f, source, -, hevolution⟩ | ⟨p, scored, source, houtcome, hfits, hjudged, -, hevolution⟩
  · rw [hevolution]
    exact ⟨h.congr rfl rfl rfl, hliving⟩
  · rw [hevolution]
    refine ⟨h.congr rfl rfl rfl, fun q hq => ?_⟩
    cases hq
    have hbred := hdraw e.source p source houtcome
    have hbefore : ∀ i ∈ p.members, bred i ∧ Extent.fits i.size = true :=
      fun i hi => ⟨hbred i hi, hfits i hi⟩
    exact Scoring.forall_mem_of_judged hjudged hbefore
      fun i j hi hij => h.living_of_judged i j hi.1 hi.2 hij

/-- Every call preserves that everyone may live. -/
lemma closed : Closed fun e : Evolution σ V => e.Lineage bred living ∧ e.Everyone living where
  start e he := he.1.advance he.2 (he.1.start_yields _) 0
  breed e p generation he hstage := by
    have hp : e.population = some p := by rw [population, hstage]
    exact he.1.advance he.2 (he.1.offspring_yields (he.2 p hp)) (generation + 1)
  settings e settings he := ⟨he.1.congr rfl rfl rfl, he.2⟩
  addLimit e l he := ⟨he.1.congr rfl rfl rfl, he.2⟩

/-- Everyone may live after any calls. -/
lemma after (h : e.Lineage bred living) (hliving : e.Everyone living) (calls : List (Call V)) :
    (e.after calls).Everyone living :=
  (closed.after ⟨h, hliving⟩ calls).2

end Lineage

/-! ### A small evolution -/

/-- An input, a random truth value, the negation and the conjunction. -/
def smallVocabulary : Vocabulary Bool :=
  ⟨1, [.input "x" 0, .random "coin" (.ask32 fun word => .done (word == 0)) none],
    [Boolean.negation, Boolean.conjunction]⟩

/-- Full trees of height one. -/
def smallSampler : TreeSampler Bool :=
  ⟨.full, smallVocabulary, 1, 1, Nat.le_refl 1, List.cons_ne_nil _ _⟩

/-- An evolution of two individuals that has not begun, with words listed for the first draws.
Programs of more than two symbols are not scored with a valid fitness. -/
def smallEvolution : Evolution ListedWords Bool where
  settings := { populationSize := 2 }
  vocabulary := smallVocabulary
  sampler := smallSampler
  selection := .uniform
  crossover := ⟨[]⟩
  mutation := ⟨smallSampler, []⟩
  limits := []
  scorer := Scoring.brevity 2
  seed := 0
  source := ⟨[0, 0, 0x8000000000000000, 1, 0, 0x8000000000000000], 0⟩
  stage := .initial

end Evolution

end TreeEvolution
