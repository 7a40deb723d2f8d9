import TreeEvolution.Proofs.Evolution.Chronicle
import TreeEvolution.Proofs.Settings

/-!
# Evolutions keep order

Whatever happens to an evolution that has been set up by settings, its settings are accepted, its
population has the size they ask for, and the generation counts the steps since the last beginning
(`InOrder`).  Each request is checked against the three things that can come of it; a request that
fails adds nothing to the successes, and it changes nothing that matters.

What fails leaves no trace (`Steadfast`): a request changes nothing but the source of random words,
a run has the effect of the steps that it made with success, and a probability that is refused is
not taken over.
-/

namespace TreeEvolution

namespace Evolution

variable {σ V : Type}

/-! ### Order -/

/-- The order of an evolution that was set up by some settings, after requests that had success. -/
structure InOrder (initial : Settings) (requests : List Request) (e : Evolution σ V) : Prop where
  /-- Apart from the probabilities the settings are those of the beginning. -/
  settings : ∃ c m,
    e.settings = { initial with crossoverProbability := c, mutationProbability := m }
  /-- The settings are accepted. -/
  accepted : e.settings.validate = .ok ()
  /-- There is no population without success. -/
  unstarted : e.population = none → e.generation = none ∧ requests = []
  /-- The population has the size that the settings ask for. -/
  size : ∀ p, e.population = some p → p.size = e.settings.populationSize
  /-- The generation is the number of steps since the last beginning.  Where there has been none,
  the first step takes its place. -/
  generation : ∀ p, e.population = some p → ∃ generation before first,
    e.generation = some generation ∧
    requests = before ++ first :: List.replicate generation .step ∧
    (first = .start ∨ .start ∉ requests ∧ before = [])

namespace InOrder

variable {initial : Settings} {requests : List Request} {e : Evolution σ V}

/-- An evolution that has just been set up is in order. -/
lemma of {sourceOf : UInt64 → σ} {otherSeed : UInt64} {v : Vocabulary V} {scorer : Scorer V}
    {records : List Record}
    (h : Evolution.of sourceOf otherSeed initial v scorer = .ok (e, records)) :
    InOrder initial [] e := by
  obtain ⟨haccepted, sampler, shoots, -, -, rfl⟩ := of_eq_ok h
  exact
    { settings := ⟨initial.crossoverProbability, initial.mutationProbability, rfl⟩
      accepted := haccepted
      unstarted := fun _ => ⟨rfl, rfl⟩
      size := fun p hp => by cases hp
      generation := fun p hp => by cases hp }

/-- Only the settings and the stage matter. -/
lemma congr (h : InOrder initial requests e) {other : Evolution σ V}
    (hsettings : other.settings = e.settings) (hstage : other.stage = e.stage) :
    InOrder initial requests other := by
  have hpopulation : other.population = e.population := by rw [population, population, hstage]
  have hgeneration : other.generation = e.generation := by
    rw [Evolution.generation, Evolution.generation, hstage]
  constructor
  · rw [hsettings]
    exact h.settings
  · rw [hsettings]
    exact h.accepted
  · rw [hpopulation, hgeneration]
    exact h.unstarted
  · rw [hpopulation, hsettings]
    exact h.size
  · rw [hpopulation, hgeneration]
    exact h.generation

/-- A probability of crossover may be replaced by another one. -/
lemma crossoverProbability (h : InOrder initial requests e) {p : Float}
    (hp : Settings.isProbability p = true) :
    InOrder initial requests
      { e with settings := { e.settings with crossoverProbability := p } } where
  settings := by
    obtain ⟨c, m, hsettings⟩ := h.settings
    exact ⟨p, m, by rw [hsettings]⟩
  accepted := by
    have hvalid : e.settings.Valid := Settings.validate_eq_ok_iff.mp h.accepted
    exact Settings.validate_eq_ok_iff.mpr { hvalid with crossoverProbability := hp }
  unstarted := h.unstarted
  size := h.size
  generation := h.generation

/-- A probability of mutation may be replaced by another one. -/
lemma mutationProbability (h : InOrder initial requests e) {p : Float}
    (hp : Settings.isProbability p = true) :
    InOrder initial requests
      { e with settings := { e.settings with mutationProbability := p } } where
  settings := by
    obtain ⟨c, m, hsettings⟩ := h.settings
    exact ⟨c, p, by rw [hsettings]⟩
  accepted := by
    have hvalid : e.settings.Valid := Settings.validate_eq_ok_iff.mp h.accepted
    exact Settings.validate_eq_ok_iff.mpr { hvalid with mutationProbability := hp }
  unstarted := h.unstarted
  size := h.size
  generation := h.generation

/-- A new population of the right size begins the count anew. -/
lemma begin (h : InOrder initial requests e) {r : Request} (hr : r = .start ∨ e.stage = .initial)
    {p : Population V} (hsize : p.size = e.settings.populationSize) (source : σ) :
    InOrder initial (requests ++ [r]) { e with source := source, stage := .stepping p 0 } where
  settings := h.settings
  accepted := h.accepted
  unstarted hnone := by cases hnone
  size q hq := by
    cases hq
    exact hsize
  generation q _ := by
    refine ⟨0, requests, r, rfl, rfl, ?_⟩
    cases r with
    | start => exact Or.inl rfl
    | step =>
      rcases hr with hr | hstage
      · cases hr
      · have hnone : e.population = none := by rw [population, hstage]
        have hrequests : requests = [] := (h.unstarted hnone).2
        rw [hrequests]
        exact Or.inr ⟨by decide, rfl⟩

/-- A bred population of the right size is counted. -/
lemma go_on (h : InOrder initial requests e) {parents : Population V} {generation : Nat}
    (hstage : e.stage = .stepping parents generation) {p : Population V}
    (hsize : p.size = e.settings.populationSize) (source : σ) :
    InOrder initial (requests ++ [.step])
      { e with source := source, stage := .stepping p (generation + 1) } where
  settings := h.settings
  accepted := h.accepted
  unstarted hnone := by cases hnone
  size q hq := by
    cases hq
    exact hsize
  generation q _ := by
    have hparents : e.population = some parents := by rw [population, hstage]
    have hgeneration : e.generation = some generation := by rw [Evolution.generation, hstage]
    obtain ⟨g, before, first, hg, hrequests, hfirst⟩ := h.generation parents hparents
    cases hg.symm.trans hgeneration
    refine ⟨generation + 1, before, first, rfl, ?_, ?_⟩
    · rw [List.replicate_succ', hrequests]
      simp
    · rcases hfirst with hfirst | ⟨hnone, hbefore⟩
      · exact Or.inl hfirst
      · refine Or.inr ⟨?_, hbefore⟩
        simpa using hnone

/-- A verdict does not change the order. -/
lemma judged (h : InOrder initial requests e) (verdict : Verdict V) :
    InOrder initial requests (e.judged verdict) := by
  rcases hstage : e.stage with _ | ⟨p, generation⟩
  · refine h.congr rfl ?_
    rw [Evolution.judged, hstage]
  · have hpopulation : e.population = some p := by rw [population, hstage]
    have hgeneration : (e.judged verdict).generation = e.generation := by
      rw [Evolution.generation, Evolution.generation, Evolution.judged, hstage]
    refine ⟨h.settings, h.accepted, fun hnone => ?_, fun q hq => ?_, fun q _ => ?_⟩
    · rw [population, Evolution.judged, hstage] at hnone
      cases hnone
    · rw [population, Evolution.judged, hstage] at hq
      cases hq
      rw [Population.size, List.length_mapIdx]
      exact h.size p hpopulation
    · rw [hgeneration]
      exact h.generation p hpopulation

end InOrder

variable [WordSource σ]

/-- A bred population is as large as the settings ask for. -/
lemma offspring_size_yields (e : Evolution σ V) (p : Population V) :
    Draw.Yields (e.offspring p) fun q => q.size = e.settings.populationSize := by
  refine (Selection.select_yields e.selection p e.settings.populationSize).bind
    fun selected hselected => ?_
  have hheirs := Variation.breed_heirs (σ := σ) (List.nil_subset e.crossover.limits)
    (List.nil_subset e.mutation.limits) e.settings.crossoverProbability
    e.settings.mutationProbability selected
  refine hheirs.mono fun q hq => ?_
  rw [Population.size, ← hq.length_eq]
  exact hselected.1

variable [Printed V]

/-- Whatever happens, the order is kept. -/
lemma recorded_inOrder (initial : Settings) :
    Recorded (fun _ => True) fun (entries : List (Entry σ V)) (e : Evolution σ V) =>
      InOrder initial (successes entries) e where
  request entries e r h := by
    rcases r.reply_cases e with ⟨f, source, hanswer, hevolution⟩ |
      ⟨p, scored, source, count, hr, houtcome, hjudged, hanswer, hevolution⟩ |
      ⟨parents, generation, p, scored, source, count, hr, hstage, houtcome, hjudged, hanswer,
        hevolution⟩
    · rw [successes_append_of_not_succeeded (Request.entry_succeeded_of_error hanswer), hevolution]
      exact h.congr rfl rfl
    · have hsampled := Population.sample_yields (Draw.Yields.trivial e.sampler.sample)
        e.settings.populationSize e.source p source houtcome
      have hsize : scored.size = e.settings.populationSize :=
        hjudged.length_eq.symm.trans hsampled.1
      rw [successes_append_of_succeeded (Request.entry_succeeded_of_ok hanswer), hevolution]
      exact h.begin hr hsize source
    · have hbred := e.offspring_size_yields parents e.source p source houtcome
      have hsize : scored.size = e.settings.populationSize := hjudged.length_eq.symm.trans hbred
      have hrequest : (r.entry e).request = .step := hr
      rw [successes_append_of_succeeded (Request.entry_succeeded_of_ok hanswer), hevolution,
        hrequest]
      exact h.go_on hstage hsize source
  crossoverProbability _ _ _ hp h := h.crossoverProbability hp
  mutationProbability _ _ _ hp h := h.mutationProbability hp
  addLimit _ _ _ h := h.congr rfl rfl
  fitting _ _ f _ h := by
    cases f with
    | sampler t => exact h.congr rfl rfl
    | selection s => exact h.congr rfl rfl
    | crossover c => exact h.congr rfl rfl
    | mutation m => exact h.congr rfl rfl
  judged _ _ v h := h.judged v

/-! ### Failures leave no trace -/

/-- What fails leaves an evolution as it was. -/
structure Steadfast (e : Evolution σ V) : Prop where
  /-- A request that fails changes nothing but the source of random words. -/
  request : ∀ (r : Request) (f : Failure), (r.reply e).answer = .error f →
    ∃ source, (r.reply e).evolution = { e with source := source }
  /-- A run leaves the evolution as after the steps that it has made with success, and if it fails
  with a step, nothing has changed since but the source of random words. -/
  run : ∀ {ω : Type} (observer : Observer V ω) (steps : Nat) (state : ω),
    (Evolution.run observer steps state e).Makes e
      (successes (stepEntries observer steps state e)).length
  /-- A probability of crossover that is refused is not taken over. -/
  crossoverProbability : ∀ p f, e.setCrossoverProbability p = .error f →
    (Call.setCrossoverProbability p).perform e = e
  /-- A probability of mutation that is refused is not taken over. -/
  mutationProbability : ∀ p f, e.setMutationProbability p = .error f →
    (Call.setMutationProbability p).perform e = e
  /-- What is not a number is refused. -/
  notNumber : ∀ p : Float, p.isNaN = true →
    (∃ f, e.setCrossoverProbability p = .error f) ∧ ∃ f, e.setMutationProbability p = .error f

/-- In every evolution failures leave no trace. -/
lemma steadfast (e : Evolution σ V) : Steadfast e where
  request r f h := Request.eq_of_error h
  run observer steps state := by
    have h := stepUntil_makes observer steps state e
    exact ⟨h.succeeds, h.leaves⟩
  crossoverProbability p f h := by
    rw [Call.perform, h]
  mutationProbability p f h := by
    rw [Call.perform, h]
  notNumber p h := by
    have hp : ¬ Settings.isProbability p = true := by
      rw [Settings.isProbability_of_isNaN h]
      exact Bool.false_ne_true
    exact ⟨⟨_, if_neg hp⟩, ⟨_, if_neg hp⟩⟩

/-- **Evolutions keep order.**  Take an evolution that has been set up by settings.  After any acts,
also such as have failed, its settings are accepted and are those of the beginning apart from the
probabilities; its population, once there is one, has the size they ask for; and the generation is
the number of steps with success since the last successful start.  And whatever fails from then on
leaves no trace but in the source of random words. -/
theorem every_act_keeps_order {sourceOf : UInt64 → σ} {otherSeed : UInt64} {settings : Settings}
    {v : Vocabulary V} {scorer : Scorer V} {bare : Evolution σ V} {records : List Record}
    (hbare : Evolution.of sourceOf otherSeed settings v scorer = .ok (bare, records))
    (acts : List (Act V)) :
    InOrder settings (successes (chronicle acts bare)) (bare.afterActs acts) ∧
      Steadfast (bare.afterActs acts) := by
  have hbegin : InOrder settings (successes ([] : List (Entry σ V))) bare := InOrder.of hbare
  have horder : InOrder settings (successes ([] ++ chronicle acts bare)) (bare.afterActs acts) :=
    (recorded_inOrder settings).chronicle hbegin acts fun _ _ => True.intro
  exact ⟨horder, steadfast _⟩

/-- In a small evolution a step fails between two others and a probability is refused; the two
other steps count. -/
theorem tightEvolution_keeps_order :
    successes (chronicle actsWithFailures tightEvolution) = [.step, .step] ∧
      (tightEvolution.afterActs actsWithFailures).generation = some 1 ∧
      InOrder tightSettings [.step, .step] (tightEvolution.afterActs actsWithFailures) := by
  have hsuccesses : successes (chronicle actsWithFailures tightEvolution) = [.step, .step] := by
    decide +kernel
  have horder := (every_act_keeps_order tightEvolution_eq actsWithFailures).1
  rw [hsuccesses] at horder
  exact ⟨hsuccesses, by decide +kernel, horder⟩

end Evolution

end TreeEvolution
