import TreeEvolution.Proofs.Evolution.Order
import TreeEvolution.Proofs.Evolution.Runs
import TreeEvolution.Proofs.Program.Results
import TreeEvolution.Proofs.Reliability

/-!
# Evolutions do not break off

An evolution that is set up by settings has everything that it needs: heights and leaves to choose
from, individuals to select, groups of at least one entrant, and operations that are given as many
individuals as they take.  `Secure` collects this.  Every call preserves it, and from it follows
what a request can fail with: nobody in the group of a tournament has a valid fitness, or a program
has become longer than a list can be (`Request.answer_eq_error`).

A scorer takes part in this only by the scores that it gives.  If all of them are valid, tournaments
do not fail.  Both cases are treated together, for scores of any kind that includes the valid ones.
-/

namespace TreeEvolution

variable {σ V ω : Type}

/-! ### Observers that answer -/

/-- An observer says whether a run shall stop, whatever sound population it is shown. -/
def Observer.Answers (observer : Observer V ω) (v : Vocabulary V) : Prop :=
  ∀ state (p : Population V) generation scores, (∀ i ∈ p.members, Evolution.Sound v i) →
    ∃ stop, (observer.observe state p generation scores).stop = .ok stop

/-- A sound individual has a text. -/
lemma Evolution.Sound.exists_text [Printed V] {v : Vocabulary V} {i : Individual V}
    (h : Evolution.Sound v i) : ∃ text, i.text = .ok text := by
  obtain ⟨code, hcode⟩ := Program.exists_text_eq_ok h.1.fills
  exact ⟨_, bind_eq_ok.mpr ⟨code, hcode, rfl⟩⟩

/-- A report can be written on every sound population. -/
lemma Report.observer_answers [Printed V] (report : Report) (v : Vocabulary V) :
    (report.observer : Observer V Unit).Answers v := by
  intro state p generation scores hp
  have hline : ∃ line, report.onGeneration p generation scores = .ok line := by
    unfold onGeneration
    rcases hbest : p.best with e | best
    · exact ⟨_, rfl⟩
    · obtain ⟨text, htext⟩ := (hp best (Population.mem_of_best hbest)).exists_text
      dsimp only
      rw [htext]
      exact ⟨_, rfl⟩
  obtain ⟨line, hline⟩ := hline
  refine ⟨line.2, ?_⟩
  rw [observer]
  dsimp only
  rw [hline]

/-- Lists can hold the populations and the groups of tournaments that settings ask for. -/
structure Settings.Fits (s : Settings) : Prop where
  /-- A list can hold a population. -/
  populationSize : Extent.fits s.populationSize = true
  /-- A list can hold the entrants of a tournament. -/
  tournamentSize : Extent.fits (max s.tournamentSize 1) = true

namespace Evolution

/-- A population is drawn in which a program is longer than a list can be. -/
def Outgrows [WordSource σ] (e : Evolution σ V) (r : Request) : Prop :=
  ∃ p source, (r.draw e).outcome e.source = (.ok p, source) ∧
    ∃ i ∈ p.members, Extent.fits i.size = false

/-! ### Secure evolutions -/

/-- An evolution that has what it needs to go on, over a vocabulary and with scores of some kind. -/
structure Secure (v : Vocabulary V) (kind : Score → Prop) (e : Evolution σ V) : Prop where
  /-- Initial programs are made of the vocabulary. -/
  sampler : e.sampler.vocabulary = v
  /-- Mutation makes its trees of the vocabulary. -/
  shoots : e.mutation.sampler.vocabulary = v
  /-- A list can hold the groups of tournaments. -/
  selection : e.selection.Fits
  /-- Populations have individuals. -/
  populationSize_ne_zero : e.settings.populationSize ≠ 0
  /-- A list can hold the individuals of a population. -/
  populationSize_fits : Extent.fits e.settings.populationSize = true
  /-- The scorer answers. -/
  scorer : e.scorer.Answers v kind
  /-- Everyone is sound and has a score of the kind. -/
  everyone : e.Everyone fun i => Sound v i ∧ kind i.score
  /-- There is somebody in the population. -/
  inhabited : ∀ p, e.population = some p → p.members ≠ []

namespace Secure

variable {v : Vocabulary V} {kind : Score → Prop} {e : Evolution σ V} {inputs : Nat}

/-- An evolution that has been set up by settings is secure. -/
lemma of {sourceOf : UInt64 → σ} {otherSeed : UInt64} {settings : Settings} {scorer : Scorer V}
    {records : List Record}
    (h : Evolution.of sourceOf otherSeed settings v scorer = .ok (e, records))
    (hfits : settings.Fits) (hscorer : scorer.Answers v kind) : Secure v kind e := by
  have hfresh : e.Fresh v := Fresh.of h
  obtain ⟨haccepted, sampler, shoots, -, -, rfl⟩ := of_eq_ok h
  have hvalid : settings.Valid := Settings.validate_eq_ok_iff.mp haccepted
  have hsize : settings.populationSize ≠ 0 := by
    have htwo := hvalid.populationSize
    omega
  exact
    { sampler := hfresh.sampler
      shoots := hfresh.shoots
      selection := hfits.tournamentSize
      populationSize_ne_zero := hsize
      populationSize_fits := hfits.populationSize
      scorer := hscorer
      everyone := everyone_of_initial rfl
      inhabited := fun p hp => by cases hp }

/-- The words of the source, the bounds on children and the other settings do not matter. -/
lemma congr (h : Secure v kind e) {f : Evolution σ V} (hsampler : f.sampler = e.sampler)
    (hshoots : f.mutation.sampler = e.mutation.sampler) (hselection : f.selection = e.selection)
    (hsize : f.settings.populationSize = e.settings.populationSize)
    (hscorer : f.scorer = e.scorer) (hstage : f.stage = e.stage) : Secure v kind f where
  sampler := by rw [hsampler, h.sampler]
  shoots := by rw [hshoots, h.shoots]
  selection := by
    rw [hselection]
    exact h.selection
  populationSize_ne_zero := by
    rw [hsize]
    exact h.populationSize_ne_zero
  populationSize_fits := by rw [hsize, h.populationSize_fits]
  scorer := by
    rw [hscorer]
    exact h.scorer
  everyone p hp := h.everyone p (by rwa [population, ← hstage])
  inhabited p hp := h.inhabited p (by rwa [population, ← hstage])

/-- Other individuals may take the place of the present ones. -/
lemma replaced (h : Secure v kind e) {source : σ} {p : Population V} {generation : Nat}
    (hp : ∀ i ∈ p.members, Sound v i ∧ kind i.score) (hne : p.members ≠ []) :
    Secure v kind { e with source := source, stage := .stepping p generation } where
  sampler := h.sampler
  shoots := h.shoots
  selection := h.selection
  populationSize_ne_zero := h.populationSize_ne_zero
  populationSize_fits := h.populationSize_fits
  scorer := h.scorer
  everyone q hq := by
    cases hq
    exact hp
  inhabited q hq := by
    cases hq
    exact hne

/-- A verdict by a scorer that answers does not matter. -/
lemma judged (h : Secure v kind e) {verdict : Verdict V}
    (hscorer : verdict.scorer.Answers v kind)
    (hscores : ∀ k (i : Individual V), kind i.score → kind (verdict.scores k i)) :
    Secure v kind (e.judged verdict) where
  sampler := h.sampler
  shoots := h.shoots
  selection := h.selection
  populationSize_ne_zero := h.populationSize_ne_zero
  populationSize_fits := h.populationSize_fits
  scorer := hscorer
  everyone p hp j hj := by
    have hsound : (e.judged verdict).Everyone (Sound v) :=
      everyone_judged (fun q hq i hi => (h.everyone q hq i hi).1) verdict
    refine ⟨hsound p hp j hj, ?_⟩
    rcases hstage : e.stage with _ | ⟨q, generation⟩
    · rw [population, Evolution.judged, hstage] at hp
      cases hp
    · rw [population, Evolution.judged, hstage] at hp
      cases hp
      obtain ⟨k, hk, rfl⟩ := List.mem_mapIdx.mp hj
      have hq : e.population = some q := by rw [population, hstage]
      exact hscores k q.members[k] (h.everyone q hq _ (List.getElem_mem hk)).2
  inhabited p hp := by
    rcases hstage : e.stage with _ | ⟨q, generation⟩
    · rw [population, Evolution.judged, hstage] at hp
      cases hp
    · rw [population, Evolution.judged, hstage] at hp
      cases hp
      have hq : e.population = some q := by rw [population, hstage]
      simpa using h.inhabited q hq

variable [WordSource σ]

/-- Sampling, breeding and scoring make sound individuals with scores of the kind. -/
lemma lineage (h : Secure v kind e) (hv : v.Proper inputs)
    (hkind : ∀ s : Score, s.valid = true → kind s) :
    e.Lineage (fun i => i.code.Supplied v) fun i => Sound v i ∧ kind i.score where
  sampled := (lineage_sound hv h.sampler h.shoots).sampled
  inherits := (lineage_sound hv h.sampler h.shoots).inherits
  bred_of_living i hi := hi.1.1
  living_of_judged i j hi hfits hjudged := by
    refine ⟨sound_of_judged hi hfits hjudged, ?_⟩
    unfold Scoring.Judged at hjudged
    split at hjudged
    · rename_i hvalid
      rw [hjudged]
      exact hkind i.score hvalid
    · obtain ⟨s, hs, rfl⟩ := hjudged
      obtain ⟨s', hs', hkind'⟩ := h.scorer i.code hi
      rw [hs] at hs'
      cases hs'
      exact hkind'

/-- The population of a request is drawn from programs that are supplied. -/
lemma draw_yields (h : Secure v kind e) (hv : v.Proper inputs)
    (hkind : ∀ s : Score, s.valid = true → kind s) (r : Request) :
    Draw.Yields (r.draw e) fun p => ∀ i ∈ p.members, i.code.Supplied v := by
  have hlineage := h.lineage hv hkind
  cases r with
  | start => exact hlineage.start_yields _
  | step =>
    rw [Request.draw]
    rcases hstage : e.stage with _ | ⟨p, generation⟩
    · exact hlineage.start_yields _
    · have hp : e.population = some p := by rw [population, hstage]
      exact hlineage.offspring_yields (h.everyone p hp)

/-- A population can be drawn for every request, unless a tournament fails. -/
lemma draw_failsOnly (h : Secure v kind e) (hv : v.Proper inputs) (hreliable : v.Reliable)
    {Q : Failure → Prop} (hQ : Q (.error .noValidIndividual) ∨ ∀ s, kind s → s.valid = true)
    (r : Request) : Draw.FailsOnly (r.draw e) Q := by
  have hsample : Draw.FailsOnly
      (Population.sample e.settings.populationSize e.sampler : Draw σ (Population V)) Q := by
    have hsampler : e.sampler.vocabulary.Reliable := by
      rw [h.sampler]
      exact hreliable
    exact Population.sample_failsOnly hsampler h.populationSize_fits
  cases r with
  | start => exact hsample
  | step =>
    rw [Request.draw]
    rcases hstage : e.stage with _ | ⟨p, generation⟩
    · exact hsample
    · have hp : e.population = some p := by rw [population, hstage]
      have hvalid : Q (.error .noValidIndividual) ∨ ∀ i ∈ p.members, i.valid = true :=
        hQ.imp_right fun hvalid i hi => hvalid i.score (h.everyone p hp i hi).2
      refine (Selection.select_failsOnly h.selection (h.inhabited p hp) h.populationSize_fits
        hvalid).bind_of_yields (Selection.select_yields _ _ _) fun selected hselected => ?_
      exact (Variation.unimpeded_of_reliable hv hreliable h.shoots
        (lineage_sound hv h.sampler h.shoots).inherits).breed_failsOnly _ _ _
        fun i hi => (h.everyone p hp i (hselected.2 i hi)).1.1

variable [Printed V]

/-- A request fails only for lack of a valid fitness, and not if all scores are valid; or a program
is longer than a list can be. -/
lemma answer_eq_error (h : Secure v kind e) (hv : v.Proper inputs) (hreliable : v.Reliable)
    (hkind : ∀ s : Score, s.valid = true → kind s) {Q : Failure → Prop}
    (hQ : Q (.error .noValidIndividual) ∨ ∀ s, kind s → s.valid = true) {r : Request} {f : Failure}
    (hf : (r.reply e).answer = .error f) : Q f ∨ f = .fault .beyondMemory ∧ e.Outgrows r := by
  obtain ⟨generation, hreply⟩ := r.exists_reply_eq e
  rw [hreply, advance] at hf
  rcases houtcome : (r.draw e >>= Population.kept).outcome e.source with ⟨g | p, source⟩
  · rw [houtcome] at hf
    cases hf
    rcases Draw.outcome_bind_eq_error.mp houtcome with hdraw | ⟨p, between, hdraw, hkept⟩
    · exact Or.inl (h.draw_failsOnly hv hreliable hQ r _ _ _ hdraw)
    · obtain ⟨rfl, hlong⟩ := Population.exists_of_kept_eq_error hkept
      exact Or.inr ⟨rfl, p, between, hdraw, hlong⟩
  · -- The scorer answers on every program that is drawn, so that the population is installed.
    exfalso
    rw [houtcome] at hf
    have hdraw := (Population.outcome_bind_kept houtcome).1
    have hscores : ∀ i ∈ p.members, ∃ s, e.scorer i.code = .ok s := by
      intro i hi
      obtain ⟨s, hs, -⟩ := h.scorer i.code (h.draw_yields hv hkind r _ _ _ hdraw i hi)
      exact ⟨s, hs⟩
    obtain ⟨count, hcount⟩ := Scoring.exists_count_eq_ok hscores e.settings.threads
    dsimp only at hf
    rw [install] at hf
    simp only [hcount] at hf
    cases hf

/-- A reply leaves the evolution secure. -/
lemma reply (h : Secure v kind e) (hv : v.Proper inputs)
    (hkind : ∀ s : Score, s.valid = true → kind s) (r : Request) :
    Secure v kind (r.reply e).evolution := by
  have hlineage := h.lineage hv hkind
  have hclosed : Closed fun e : Evolution σ V =>
      e.Lineage (fun i => i.code.Supplied v) (fun i => Sound v i ∧ kind i.score) ∧
        e.Everyone fun i => Sound v i ∧ kind i.score := Lineage.closed
  have heveryone : (r.reply e).evolution.Everyone fun i => Sound v i ∧ kind i.score := by
    cases r with
    | start => exact (hclosed.start e ⟨hlineage, h.everyone⟩).2
    | step => exact (hclosed.step ⟨hlineage, h.everyone⟩).2
  -- A new population has as many individuals as the settings ask for, and they ask for some.
  have hne : ∀ {p scored : Population V}, p.size = e.settings.populationSize →
      List.Forall₂ (Scoring.Judged e.scorer) p.members scored.members → scored.members ≠ [] := by
    intro p scored hsize hjudged hempty
    rw [hempty, List.forall₂_nil_right_iff] at hjudged
    rw [Population.size, hjudged, List.length_nil] at hsize
    exact h.populationSize_ne_zero hsize.symm
  rcases r.reply_cases e with ⟨f, source, -, hevolution⟩ |
    ⟨p, scored, source, count, -, houtcome, hjudged, -, hevolution⟩ |
    ⟨parents, generation, p, scored, source, count, -, -, houtcome, hjudged, -, hevolution⟩
  · rw [hevolution]
    exact h.congr rfl rfl rfl rfl rfl rfl
  · have hsize := (Population.sample_yields (Draw.Yields.trivial e.sampler.sample)
      e.settings.populationSize e.source p source houtcome).1
    rw [hevolution] at heveryone ⊢
    exact h.replaced (heveryone scored rfl) (hne hsize hjudged)
  · have hsize := e.offspring_size_yields parents e.source p source houtcome
    rw [hevolution] at heveryone ⊢
    exact h.replaced (heveryone scored rfl) (hne hsize hjudged)

/-- Steps leave the evolution secure. -/
lemma afterSteps (h : Secure v kind e) (hv : v.Proper inputs)
    (hkind : ∀ s : Score, s.valid = true → kind s) (steps : Nat) :
    Secure v kind (afterSteps steps e) := by
  induction steps generalizing e with
  | zero => exact h
  | succ steps ih => exact ih (h.reply hv hkind .step)

/-- A call leaves the evolution secure. -/
lemma perform (h : Secure v kind e) (hv : v.Proper inputs)
    (hkind : ∀ s : Score, s.valid = true → kind s) (call : Call V) :
    Secure v kind (call.perform e) := by
  cases call with
  | start => exact h.reply hv hkind .start
  | step => exact h.reply hv hkind .step
  | run observer steps state =>
    obtain ⟨shown, hfollows⟩ := run_follows observer steps state e
    have hshown := h.afterSteps hv hkind shown.length
    rw [Call.perform]
    rcases hfollows.evolution_cases with hevolution | hevolution
    · rw [hevolution]
      exact hshown
    · rw [hevolution]
      exact hshown.reply hv hkind .step
  | setCrossoverProbability p =>
    rw [Call.perform_setCrossoverProbability]
    split
    · exact h.congr rfl rfl rfl rfl rfl rfl
    · exact h
  | setMutationProbability p =>
    rw [Call.perform_setMutationProbability]
    split
    · exact h.congr rfl rfl rfl rfl rfl rfl
    · exact h
  | addLimit l => exact h.congr rfl rfl rfl rfl rfl rfl

/-- Calls and verdicts leave the evolution secure. -/
lemma afterJudged (h : Secure v kind e) (hv : v.Proper inputs)
    (hkind : ∀ s : Score, s.valid = true → kind s) (history : List (Call V × Verdict V))
    (hhistory : ∀ entry ∈ history, entry.2.scorer.Answers v kind ∧
      ∀ k (i : Individual V), kind i.score → kind (entry.2.scores k i)) :
    Secure v kind (e.afterJudged history) := by
  induction history generalizing e with
  | nil => exact h
  | cons entry history ih =>
    obtain ⟨hentry, hhistory⟩ := List.forall_mem_cons.mp hhistory
    exact ih ((h.perform hv hkind entry.1).judged hentry.1 hentry.2) hhistory

end Secure

/-! ### Safe evolutions -/

variable [Printed V] [WordSource σ]

/-- Requests and runs of an evolution fail in certain ways only, unless a program becomes longer
than a list can be. -/
structure Safe (v : Vocabulary V) (Q : Failure → Prop) (e : Evolution σ V) : Prop where
  /-- A request fails in these ways only. -/
  request : ∀ (r : Request) (f : Failure), (r.reply e).answer = .error f →
    Q f ∨ f = .fault .beyondMemory ∧ e.Outgrows r
  /-- A run fails in these ways only, if its observer answers. -/
  run : ∀ {ω : Type} (observer : Observer V ω), observer.Answers v →
    ∀ (steps : Nat) (state : ω) (f : Failure),
      (Evolution.run observer steps state e).answer = some (.error f) →
        Q f ∨ f = .fault .beyondMemory ∧ ∃ k, (Evolution.afterSteps k e).Outgrows .step
  /-- Everyone can be written. -/
  texts : e.Everyone fun i => ∃ text, i.text = .ok text

/-- A secure evolution is safe: it fails only for lack of a valid fitness, and not if all scores are
valid. -/
lemma Secure.safe {v : Vocabulary V} {kind : Score → Prop} {e : Evolution σ V} {inputs : Nat}
    (h : Secure v kind e) (hv : v.Proper inputs) (hreliable : v.Reliable)
    (hkind : ∀ s : Score, s.valid = true → kind s) {Q : Failure → Prop}
    (hQ : Q (.error .noValidIndividual) ∨ ∀ s, kind s → s.valid = true) : Safe v Q e where
  request r f hf := h.answer_eq_error hv hreliable hkind hQ hf
  run observer hobserver steps state f hf := by
    obtain ⟨shown, hfollows⟩ := run_follows observer steps state e
    have hshown := h.afterSteps hv hkind shown.length
    cases hfollows.ending with
    | stopped before last hlast' hbefore hlast hanswer hevolution =>
      rw [hf] at hanswer
      cases hanswer
    | broken before last hlast' g hbefore hlast hanswer hevolution =>
      -- The observer has been shown a sound population, and so it has answered.
      exfalso
      subst hlast'
      have hstage := stage_afterSteps hfollows.trajectory
      have hpopulation : (Evolution.afterSteps (before ++ [last]).length e).population =
          some last.population := by rw [population, hstage]
      obtain ⟨stop, hstop⟩ := hobserver (observer.after state before) last.population
        last.generation last.scores fun i hi => (hshown.everyone _ hpopulation i hi).1
      rw [Observer.see, hstop] at hlast
      cases hlast
    | failed g hlast' hfails hanswer hevolution =>
      rw [hf] at hanswer
      cases hanswer
      have hfailure : ((Request.step).reply (Evolution.afterSteps shown.length e)).answer =
          .error f := hfails
      exact (hshown.answer_eq_error hv hreliable hkind hQ hfailure).imp_right
        fun hmemory => ⟨hmemory.1, shown.length, hmemory.2⟩
    | unfinished hlast' hlength hanswer hevolution =>
      rw [hf] at hanswer
      cases hanswer
  texts p hp i hi := (h.everyone p hp i hi).1.exists_text

/-- **Settings that are accepted are safe.**  An evolution can be set up exactly by settings that
are accepted and a vocabulary with a terminal.  If the vocabulary can be relied on and the scorer
answers, then after any calls, also with a scorer that has a memory of its own, requests and runs
fail only for lack of a valid fitness, or with a program that is longer than a list can be.  If all
scores are valid, only the latter is possible.  Of a run this is said if its observer answers, as the
one that writes a report always does. -/
theorem accepted_settings_are_safe (sourceOf : UInt64 → σ) (otherSeed : UInt64)
    (settings : Settings) (scorer : Scorer V) :
    (∀ v : Vocabulary V,
      (∃ e records, Evolution.of sourceOf otherSeed settings v scorer = .ok (e, records)) ↔
        settings.validate = .ok () ∧ v.terminals ≠ []) ∧
    (∀ (report : Report) (v : Vocabulary V), (report.observer : Observer V Unit).Answers v) ∧
    ∀ (inputs : Nat) (names : List String) (bare : Vocabulary V)
      (additions : List (Vocabulary.Addition V)) (e : Evolution σ V) (records : List Record)
      (history : List (Call V × Verdict V)),
      Vocabulary.ofInputs inputs names = .ok bare → (bare.after additions).Reliable →
      settings.Fits →
      Evolution.of sourceOf otherSeed settings (bare.after additions) scorer = .ok (e, records) →
        (scorer.Answers (bare.after additions) (fun _ => True) →
          (∀ entry ∈ history, entry.2.scorer.Answers (bare.after additions) fun _ => True) →
          Safe (bare.after additions) (· = .error .noValidIndividual) (e.afterJudged history)) ∧
        (scorer.Answers (bare.after additions) (fun s => s.valid = true) →
          (∀ entry ∈ history, entry.2.scorer.Answers (bare.after additions)
            (fun s => s.valid = true) ∧
              ∀ k (i : Individual V), i.valid = true → (entry.2.scores k i).valid = true) →
          Safe (bare.after additions) (fun _ => False) (e.afterJudged history)) := by
  refine ⟨fun v => exists_of_eq_ok_iff, Report.observer_answers, ?_⟩
  intro inputs names bare additions e records history hbare hreliable hfits he
  have hv : (bare.after additions).Proper inputs :=
    (Vocabulary.proper_of_ofInputs hbare).after additions
  constructor
  · intro hscorer hhistory
    have hsecure : Secure (bare.after additions) (fun _ => True) (e.afterJudged history) :=
      (Secure.of he hfits hscorer).afterJudged hv (fun _ _ => True.intro) history
        fun entry hentry => ⟨hhistory entry hentry, fun _ _ _ => True.intro⟩
    exact hsecure.safe hv hreliable (fun _ _ => True.intro) (Or.inl rfl)
  · intro hscorer hhistory
    have hsecure : Secure (bare.after additions) (fun s => s.valid = true)
        (e.afterJudged history) :=
      (Secure.of he hfits hscorer).afterJudged hv (fun _ hs => hs) history hhistory
    exact hsecure.safe hv hreliable (fun _ hs => hs) (Or.inr fun _ hs => hs)

/-- The vocabulary of the small evolutions can be relied on. -/
lemma smallVocabulary_reliable : smallVocabulary.Reliable where
  lasting name recipe value h := by
    simp only [smallVocabulary, List.mem_cons, reduceCtorEq, Symbol.random.injEq, List.not_mem_nil,
      or_false, false_or] at h
    obtain ⟨-, rfl, -⟩ := h
    exact fun word => True.intro
  ratio := by decide +kernel
  arity := by decide +kernel

/-- After one individual of a small evolution has been found valid, a step fails; and it is safe
that it does so for lack of a valid fitness. -/
theorem tightEvolution_is_safe :
    (tightEvolution.afterJudged limitAndRun).step.answer.isOk = false ∧
      Safe smallVocabulary (· = .error .noValidIndividual)
        (tightEvolution.afterJudged limitAndRun) := by
  have hbare : Vocabulary.ofInputs 1 ["x"] = .ok (⟨1, [.input "x" 0], []⟩ : Vocabulary Bool) := rfl
  have hscorer : (Scoring.brevity 2 : Scorer Bool).Answers smallVocabulary fun _ => True :=
    fun p _ => ⟨_, rfl, True.intro⟩
  have hlimitAndRun : ∀ entry ∈ limitAndRun, entry.2.scorer.Answers smallVocabulary fun _ => True :=
    List.forall_mem_cons.mpr ⟨fun p _ => ⟨_, rfl, True.intro⟩,
      List.forall_mem_singleton.mpr fun p _ => ⟨_, rfl, True.intro⟩⟩
  have hsafe := (accepted_settings_are_safe (fun _ => tightEvolution.source) 0 tightSettings
    (Scoring.brevity 2)).2.2 1 ["x"] _ smallAdditions tightEvolution _ limitAndRun hbare
    smallVocabulary_reliable ⟨rfl, rfl⟩ tightEvolution_eq
  exact ⟨by decide +kernel, hsafe.1 hscorer hlimitAndRun⟩

/-! ### Random constants that are drawn from nothing -/

/-- A random constant from an empty range. -/
def emptyRangeConstant : Vocabulary Float :=
  ⟨0, [.random "E" (Recipe.integer 5 1) none], []⟩

/-- An evolution is set up by settings that are accepted and a vocabulary with a terminal, and its
scorer finds every program valid.  The range of its random constant is empty, and the evolution
breaks off as it begins. -/
theorem start_breaks_off_in_empty_range :
    ({ populationSize := 2 } : Settings).validate = .ok () ∧ emptyRangeConstant.terminals ≠ [] ∧
      Vocabulary.of 0 [] emptyRangeConstant.terminals = .ok emptyRangeConstant ∧
      (∀ p : Program Float, Scoring.fixed ⟨1, true⟩ p = .ok ⟨1, true⟩) ∧
      ∃ (e : Evolution ListedWords Float) (records : List Record),
        Evolution.of (fun _ => ⟨[], 0⟩) 1 { populationSize := 2 } emptyRangeConstant
          (Scoring.fixed ⟨1, true⟩) = .ok (e, records) ∧
        e.start.answer = .error (.fault .impossibleDraw) := by
  refine ⟨rfl, List.cons_ne_nil _ _, rfl, fun _ => rfl, _, _, rfl, ?_⟩
  have hfault : ∀ answer : Except Failure Nat,
      (match answer with
        | .error (.fault f) => f == .impossibleDraw
        | _ => false) = true → answer = .error (.fault .impossibleDraw) := by
    rintro ((_ | f) | _) h
    · cases h
    · rw [beq_iff_eq.mp h]
    · cases h
  exact hfault _ (by decide +kernel)

end Evolution

end TreeEvolution
