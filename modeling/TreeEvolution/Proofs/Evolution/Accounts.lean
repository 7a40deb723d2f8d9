import TreeEvolution.Proofs.Courses
import TreeEvolution.Proofs.Crew
import TreeEvolution.Proofs.Evolution.Order

/-!
# Accounts of scoring

A request for a new population answers with the number of scores that were made.  `Tally` says what
this number is: of the population that was drawn, the individuals without a valid fitness are shown
to the scorer, each of them once, however the workers take turns.  An initial population has no
scores at all, so that everybody is counted.

When a population is bred, the courses of the places tell who is new (`Pedigree`).  A scorer that
has a valid score for every program leaves nobody without a valid fitness.  So the individuals that
are selected are valid, those who keep their place are not shown to the scorer again, and the number
is that of the children that were accepted (`requests_count_calls`).
-/

namespace TreeEvolution

open Scoring Variation

variable {σ V : Type}

/-- The score that a scorer has for a program, if there is one. -/
def Scorer.judge (scorer : Scorer V) (p : Program V) : Score :=
  match scorer p with
  | .ok s => s
  | .error _ => .pending

/-- The judge has the scores of the scorer. -/
lemma Scorer.judge_eq {scorer : Scorer V} {p : Program V} {s : Score} (h : scorer p = .ok s) :
    scorer.judge p = s := by
  unfold judge
  rw [h]

/-- What a scorer makes of an individual its judge makes of it. -/
lemma Scoring.Judged.judge {scorer : Scorer V} {i j : Individual V} (h : Judged scorer i j) :
    Judged (fun p => .ok (scorer.judge p)) i j := by
  unfold Judged at h ⊢
  split
  · rwa [if_pos ‹_›] at h
  · rw [if_neg ‹_›] at h
    obtain ⟨s, hs, rfl⟩ := h
    exact ⟨s, congrArg Except.ok (Scorer.judge_eq hs), rfl⟩

namespace Evolution

variable [WordSource σ] {e : Evolution σ V} {r : Request} {count : Nat}

/-! ### What requests draw -/

/-- The populations that requests draw are as large as the settings ask for. -/
lemma Request.draw_size_yields (e : Evolution σ V) (r : Request) :
    Draw.Yields (r.draw e) fun p => p.size = e.settings.populationSize := by
  have hsample : Draw.Yields
      (Population.sample e.settings.populationSize e.sampler : Draw σ (Population V))
      fun p => p.size = e.settings.populationSize :=
    (Population.sample_yields (Draw.Yields.trivial _) _).mono fun p hp => hp.1
  cases r with
  | start => exact hsample
  | step =>
    rw [draw]
    rcases e.stage with _ | ⟨p, generation⟩
    · exact hsample
    · exact e.offspring_size_yields p

/-- The individuals of an initial population have no scores. -/
lemma Request.draw_new_yields (hr : r = .start ∨ e.stage = .initial) :
    Draw.Yields (r.draw e) fun p => ∀ i ∈ p.members, i.valid = false := by
  have hdraw : r.draw e = Population.sample e.settings.populationSize e.sampler := by
    cases r with
    | start => rfl
    | step =>
      have hstage : e.stage = .initial := hr.resolve_left nofun
      rw [draw, hstage]
  rw [hdraw]
  refine (Population.sample_yields (Draw.Yields.trivial _) _).mono fun p hp i hi => ?_
  obtain ⟨code, -, rfl⟩ := hp.2 i hi
  rfl

/-- Breed the next generation with an account of each place. -/
def pedigree (e : Evolution σ V) (p : Population V) : Draw σ (List (Course V)) := do
  let selected ← e.selection.select p e.settings.populationSize
  Variation.courses e.crossover e.mutation e.settings.crossoverProbability
    e.settings.mutationProbability selected

/-- The next generation is what the courses come to. -/
lemma offspring_eq_pedigree (e : Evolution σ V) (p : Population V) :
    e.offspring p = (do
      let places ← e.pedigree p
      pure ⟨places.map Course.holder⟩) := by
  simp only [offspring, pedigree, breed_eq_courses, bind_assoc]

/-- The courses begin with individuals of the population. -/
lemma pedigree_yields (e : Evolution σ V) (p : Population V) :
    Draw.Yields (e.pedigree p) fun places => ∀ course ∈ places, course.selected ∈ p.members := by
  refine (Selection.select_yields e.selection p e.settings.populationSize).bind
    fun selected hselected => ?_
  refine (courses_yields e.crossover e.mutation _ _ selected).mono fun places hplaces => ?_
  intro course hcourse
  refine hselected.2 course.selected ?_
  rw [← hplaces.1]
  exact List.mem_map_of_mem hcourse

variable [Printed V]

/-! ### What is counted -/

/-- The account of a request with success: a population was drawn, its individuals were scored, and
this made a number of scores. -/
structure Tally (e : Evolution σ V) (r : Request) (count : Nat) (drawn scored : Population V) :
    Prop where
  /-- The population is the one that the request draws. -/
  drawn_eq : (r.draw e).outcome e.source = (.ok drawn, (r.reply e).evolution.source)
  /-- It is as large as the settings ask for. -/
  size_eq : drawn.size = e.settings.populationSize
  /-- It is the present one when it has been scored. -/
  scored_eq : (r.reply e).evolution.population = some scored
  /-- The number is that of the individuals without a valid fitness. -/
  count_eq : count = drawn.members.countP fun i => !i.valid
  /-- The scorer has scores for all of them. -/
  answered : ∀ i ∈ drawn.members, i.valid = false → e.scorer i.code = .ok (e.scorer.judge i.code)
  /-- The workers can take turns until all are done. -/
  finishes : ∃ schedule c,
    (Crew.assemble e.settings.threads drawn.members).follow e.scorer.judge schedule = some c ∧
      c.Done
  /-- However they do, the individuals end with these scores, the scorer has been shown the programs
  without a valid fitness, each of them once, and the number is that of the programs it was
  shown. -/
  calls : ∀ schedule c,
    (Crew.assemble e.settings.threads drawn.members).follow e.scorer.judge schedule = some c →
      c.Done → c.individuals = scored.members ∧
        c.calls.Perm (pendingPositions drawn.members) ∧ c.calls.length = count

/-- A request with success has an account. -/
lemma Request.exists_tally (h : (r.reply e).answer = .ok count) :
    ∃ drawn scored, Tally e r count drawn scored := by
  obtain ⟨generation, hreply⟩ := r.exists_reply_eq e
  rcases e.advance_cases (r.draw e) generation with ⟨f, source, hanswer, -⟩ |
    ⟨drawn, scored, source, houtcome, -, hjudged, hanswer, hevolution⟩
  · rw [hreply, hanswer] at h
    cases h
  · rw [hreply, hanswer] at h
    cases h
    have hscored : scored.members = drawn.members.map (settle e.scorer.judge) :=
      eq_map_settle_of_judged (hjudged.imp fun i j hij => hij.judge)
    have hway := Crew.onTheWay_assemble e.scorer.judge e.settings.threads drawn.members
    refine ⟨drawn, scored, ?_, ?_, ?_, ?_, ?_, hway.exists_schedule, ?_⟩
    · rw [hreply, hevolution]
      exact houtcome
    · exact r.draw_size_yields e e.source drawn source houtcome
    · rw [hreply, hevolution, population]
    · rw [pending, List.countP_eq_length_filter]
    · intro i hi hvalid
      obtain ⟨s, hs⟩ := exists_score_of_judged hjudged i hi hvalid
      rw [hs, Scorer.judge_eq hs]
    · intro schedule c hfollow hdone
      obtain ⟨hend, -⟩ := hway.follow hfollow
      have hperm := hend.calls_perm_of_done hdone
      refine ⟨?_, hperm, ?_⟩
      · rw [hend.individuals_of_done hdone, hscored]
      · rw [hperm.length_eq, pendingPositions, List.length_findIdxs, List.countP_eq_length_filter,
          pending]

/-! ### Who is new -/

/-- The account of the places of a population that has been bred for a request. -/
structure Pedigree (e : Evolution σ V) (r : Request) (parents drawn : Population V)
    (places : List (Course V)) : Prop where
  /-- The courses are those that breeding has taken with the same words. -/
  courses_eq : (e.pedigree parents).outcome e.source = (.ok places, (r.reply e).evolution.source)
  /-- They begin with individuals of the population before. -/
  selected : ∀ course ∈ places, course.selected ∈ parents.members
  /-- They end with the individuals of the population that was drawn. -/
  holders : places.map Course.holder = drawn.members
  /-- Where no child has been accepted the selected individual is still there, score included. -/
  kept : ∀ course ∈ places, course.isNew = false → course.holder = course.selected

/-- A bred population has an account of its places. -/
lemma Tally.exists_pedigree {drawn scored parents : Population V} {generation : Nat}
    (h : Tally e r count drawn scored) (hr : r = .step)
    (hstage : e.stage = .stepping parents generation) :
    ∃ places, Pedigree e r parents drawn places := by
  have hdraw : r.draw e = e.offspring parents := by rw [hr, Request.draw, hstage]
  have hdrawn := h.drawn_eq
  rw [hdraw, offspring_eq_pedigree] at hdrawn
  obtain ⟨places, between, hplaces, hpure⟩ := Draw.outcome_bind_eq_ok.mp hdrawn
  rw [Draw.outcome_pure, Prod.mk.injEq, Except.ok.injEq] at hpure
  obtain ⟨rfl, rfl⟩ := hpure
  exact ⟨places, hplaces, e.pedigree_yields parents _ _ _ hplaces, rfl,
    fun course _ => Course.holder_of_not_isNew⟩

/-- Everyone is valid after any calls if all scores are. -/
lemma everyone_valid (hinitial : e.stage = .initial)
    (hscorer : ∀ p s, e.scorer p = .ok s → s.valid = true) (calls : List (Call V)) :
    (e.after calls).Everyone fun i => i.valid = true := by
  have hlineage : e.Lineage (fun _ => True) fun i => i.valid = true :=
    { sampled := Draw.Yields.trivial _
      inherits :=
        { crossed := fun _ _ _ _ _ _ _ _ _ _ => True.intro
          mutated := fun _ _ => (Draw.Yields.trivial _).mono fun _ _ _ _ _ => True.intro }
      bred_of_living := fun _ _ => True.intro
      living_of_judged := fun i j _ _ hjudged => by
        unfold Judged at hjudged
        split at hjudged
        · rwa [hjudged]
        · obtain ⟨s, hs, rfl⟩ := hjudged
          exact hscorer i.code s hs }
  exact hlineage.after (everyone_of_initial hinitial) calls

/-- If the individuals are valid that are bred from, exactly the new ones are not. -/
lemma Pedigree.isNew_eq {parents drawn : Population V} {places : List (Course V)}
    (h : Pedigree e r parents drawn places) (hvalid : ∀ i ∈ parents.members, i.valid = true) :
    drawn.members.map (fun i => !i.valid) = places.map Course.isNew := by
  rw [← h.holders, List.map_map]
  refine List.map_congr_left fun course hcourse => ?_
  exact (Course.isNew_eq_not_valid (hvalid _ (h.selected course hcourse))).symm

/-- **Requests count the calls of the scorer.**  Whatever calls an evolution has lived through, a
request that is answered has made as many calls of the scorer as its answer says: one for each
individual of the drawn population without a valid fitness, and so no more than there are
individuals, and one for everybody in an initial population.  If all scores are valid, these
individuals of a bred population are exactly those that crossover or mutation has newly made. -/
theorem requests_count_calls (hinitial : e.stage = .initial) (calls : List (Call V))
    (h : (r.reply (e.after calls)).answer = .ok count) :
    ∃ drawn scored, Tally (e.after calls) r count drawn scored ∧
      (r = .start ∨ (e.after calls).stage = .initial →
        count = (e.after calls).settings.populationSize) ∧
      count ≤ (e.after calls).settings.populationSize ∧
      ∀ parents generation, r = .step →
        (e.after calls).stage = .stepping parents generation →
        ∃ places, Pedigree (e.after calls) r parents drawn places ∧
          ((∀ p s, e.scorer p = .ok s → s.valid = true) →
            drawn.members.map (fun i => !i.valid) = places.map Course.isNew ∧
            count = places.countP Course.isNew ∧
            ((∀ course ∈ places, course.isNew = false) → count = 0)) := by
  obtain ⟨drawn, scored, htally⟩ := Request.exists_tally h
  refine ⟨drawn, scored, htally, fun hr => ?_, ?_, fun parents generation hr hstage => ?_⟩
  · -- Nobody in an initial population has a score, so that everybody is counted.
    have hnew := Request.draw_new_yields hr _ _ _ htally.drawn_eq
    rw [htally.count_eq, ← htally.size_eq, Population.size, List.countP_eq_length]
    intro i hi
    rw [hnew i hi, Bool.not_false]
  · rw [htally.count_eq, ← htally.size_eq]
    exact List.countP_le_length
  · obtain ⟨places, hpedigree⟩ := htally.exists_pedigree hr hstage
    refine ⟨places, hpedigree, fun hscorer => ?_⟩
    -- The calls before have left valid individuals only, and so the selected ones are valid.
    have hparents : ∀ i ∈ parents.members, i.valid = true :=
      everyone_valid hinitial hscorer calls parents (by rw [population, hstage])
    have hisNew := hpedigree.isNew_eq hparents
    have hcount : count = places.countP Course.isNew := by
      have hboth := congrArg (List.countP id) hisNew
      rw [List.countP_map, List.countP_map] at hboth
      rw [htally.count_eq]
      exact hboth
    refine ⟨hisNew, hcount, fun hnone => ?_⟩
    rw [hcount, List.countP_eq_zero]
    intro course hcourse
    rw [hnone course hcourse]
    exact Bool.false_ne_true

/-- The small evolution with limits that few children keep, and with a scorer whose scores are all
valid. -/
def allValidEvolution : Evolution ListedWords Bool :=
  { smallEvolution with
    settings := { populationSize := 2, mutationProbability := 0.5 }
    crossover := ⟨[.size 1]⟩
    mutation := ⟨smallSampler, [.size 2]⟩
    scorer := Scoring.fixed ⟨1, true⟩
    source := ⟨[], 5⟩ }

/-- One of the two individuals of the first bred generation is new, and only this one is scored. -/
theorem allValidEvolution_counts_calls :
    (Request.step.reply (allValidEvolution.after [.start])).answer = .ok 1 ∧
      ∃ drawn scored parents generation places,
        Tally (allValidEvolution.after [.start]) .step 1 drawn scored ∧
        (allValidEvolution.after [.start]).stage = .stepping parents generation ∧
        Pedigree (allValidEvolution.after [.start]) .step parents drawn places ∧
        drawn.members.map (fun i => !i.valid) = places.map Course.isNew ∧
        1 = places.countP Course.isNew := by
  have hone : (Request.step.reply (allValidEvolution.after [.start])).answer.toOption = some 1 := by
    decide +kernel
  have hanswer : (Request.step.reply (allValidEvolution.after [.start])).answer = .ok 1 := by
    rcases h : (Request.step.reply (allValidEvolution.after [.start])).answer with f | n
    · rw [h] at hone
      cases hone
    · rw [h] at hone
      cases hone
      rfl
  have hgeneration : (allValidEvolution.after [.start]).generation = some 0 := by decide +kernel
  have hvalid : ∀ (p : Program Bool) (s : Score),
      allValidEvolution.scorer p = .ok s → s.valid = true := by
    intro p s hs
    cases hs
    rfl
  obtain ⟨drawn, scored, htally, -, -, hbred⟩ :=
    requests_count_calls (e := allValidEvolution) rfl [.start] hanswer
  rcases hstage : (allValidEvolution.after [.start]).stage with _ | ⟨parents, generation⟩
  · rw [generation, hstage] at hgeneration
    cases hgeneration
  · obtain ⟨places, hpedigree, hnew⟩ := hbred parents generation rfl hstage
    obtain ⟨hpending, hcount, -⟩ := hnew hvalid
    exact ⟨hanswer, drawn, scored, parents, generation, places, htally, rfl, hpedigree, hpending,
      hcount⟩

end Evolution

end TreeEvolution
