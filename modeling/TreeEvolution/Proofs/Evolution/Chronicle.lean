import TreeEvolution.Proofs.Evolution.Soundness
import TreeEvolution.Proofs.Heirs

/-!
# Chronicles of evolutions

An evolution lives through calls, through replacements of its parts, and through the verdicts of a
scorer with a memory of its own (`Act`).  Only two things can bring a new population: the request to
begin anew and the request to go on (`Request`), be it by itself or in a run, and
`Request.reply_cases` says what comes of them.

The chronicle of some acts has an entry for each of these requests, with the reply to it.  From a
chronicle one can tell which requests had success, and which population was the initial one
(`origin`).  A property that relates the evolution to its chronicle is shown for one request and for
the changes in between, and holds after any acts (`Recorded.chronicle`).
-/

namespace TreeEvolution

namespace Evolution

variable {σ V ω : Type}

/-! ### Acts -/

/-- A replacement of a part of an evolution. -/
inductive Fitting (V : Type) where
  /-- Another source of initial programs. -/
  | sampler (sampler : TreeSampler V)
  /-- Another rule of selection. -/
  | selection (selection : Selection)
  /-- Another crossover. -/
  | crossover (crossover : Crossover)
  /-- Another mutation. -/
  | mutation (mutation : Mutation V)

/-- The evolution after a replacement. -/
def Fitting.perform (e : Evolution σ V) : Fitting V → Evolution σ V
  | sampler t => e.withSampler t
  | selection s => e.withSelection s
  | crossover c => e.withCrossover c
  | mutation m => e.withMutation m

/-- What can happen to an evolution. -/
inductive Act (V : Type) : Type 1 where
  /-- A call. -/
  | call (call : Call V)
  /-- The replacement of a part. -/
  | fitting (fitting : Fitting V)
  /-- A verdict of a scorer with a memory. -/
  | verdict (verdict : Verdict V)

/-- A request for a new population. -/
inductive Request where
  /-- Begin anew. -/
  | start
  /-- Go on by one generation, or begin. -/
  | step
  deriving DecidableEq

/-- A request and the reply to it. -/
structure Entry (σ V : Type) where
  /-- The request. -/
  request : Request
  /-- The reply to it. -/
  reply : Reply σ V Nat

/-- Whether a request had success. -/
def Entry.succeeded (entry : Entry σ V) : Bool :=
  entry.reply.answer.isOk

/-- Whether a request had success and led to an initial population. -/
def Entry.begins (entry : Entry σ V) : Bool :=
  entry.succeeded && entry.reply.evolution.generation == some 0

/-- The requests that had success. -/
def successes (entries : List (Entry σ V)) : List Request :=
  (entries.filter Entry.succeeded).map Entry.request

/-- The most recent initial population. -/
def origin (entries : List (Entry σ V)) : Option (Population V) :=
  (entries.filter Entry.begins).getLast?.bind fun entry => entry.reply.evolution.population

/-- The draw of the population that a request leads to. -/
def Request.draw [WordSource σ] (e : Evolution σ V) : Request → Draw σ (Population V)
  | start => Population.sample e.settings.populationSize e.sampler
  | step =>
    match e.stage with
    | .initial => Population.sample e.settings.populationSize e.sampler
    | .stepping p _ => e.offspring p

section Requests

variable [Printed V] [WordSource σ]

/-- The reply to a request. -/
def Request.reply (e : Evolution σ V) : Request → Reply σ V Nat
  | start => e.start
  | step => e.step

/-- A request as an entry. -/
def Request.entry (e : Evolution σ V) (r : Request) : Entry σ V :=
  ⟨r, r.reply e⟩

/-- The evolution after a number of steps. -/
def afterSteps : Nat → Evolution σ V → Evolution σ V
  | 0, e => e
  | steps + 1, e => afterSteps steps e.step.evolution

/-- The entries for the steps of a run. -/
def stepEntries (observer : Observer V ω) : Nat → ω → Evolution σ V → List (Entry σ V)
  | 0, _, _ => []
  | steps + 1, state, e =>
    let reply := e.step
    Request.step.entry e ::
      match reply.answer, reply.evolution.stage with
      | .error _, _ => []
      | .ok _, .initial => stepEntries observer steps state reply.evolution
      | .ok scores, .stepping p generation =>
        let seen := observer.observe state p generation scores
        match seen.stop with
        | .ok false => stepEntries observer steps seen.state reply.evolution
        | _ => []

/-- The entries for a call. -/
def Call.entries (e : Evolution σ V) : Call V → List (Entry σ V)
  | start => [Request.start.entry e]
  | step => [Request.step.entry e]
  | run observer steps state => stepEntries observer steps state e
  | _ => []

/-- The evolution after something has happened. -/
def Act.perform (e : Evolution σ V) : Act V → Evolution σ V
  | call c => c.perform e
  | fitting f => f.perform e
  | verdict v => e.judged v

/-- The entries for something that happens. -/
def Act.entries (e : Evolution σ V) : Act V → List (Entry σ V)
  | call c => c.entries e
  | _ => []

/-- The evolution after some acts. -/
def afterActs (acts : List (Act V)) (e : Evolution σ V) : Evolution σ V :=
  acts.foldl Act.perform e

/-- The entries for some acts, in the order in which they happen. -/
def chronicle : List (Act V) → Evolution σ V → List (Entry σ V)
  | [], _ => []
  | act :: acts, e => act.entries e ++ chronicle acts (act.perform e)

end Requests

/-! ### What an entry adds -/

section Entries

variable {entries : List (Entry σ V)} {entry : Entry σ V}

/-- A request without success does not count. -/
lemma successes_append_of_not_succeeded (h : entry.succeeded = false) :
    successes (entries ++ [entry]) = successes entries := by
  simp [successes, h]

/-- A request with success comes last. -/
lemma successes_append_of_succeeded (h : entry.succeeded = true) :
    successes (entries ++ [entry]) = successes entries ++ [entry.request] := by
  simp [successes, h]

/-- A request without success that comes first does not count. -/
lemma successes_cons_of_not_succeeded (h : entry.succeeded = false) :
    successes (entry :: entries) = successes entries := by
  simp [successes, h]

/-- A request with success that comes first counts. -/
lemma successes_cons_of_succeeded (h : entry.succeeded = true) :
    successes (entry :: entries) = entry.request :: successes entries := by
  simp [successes, h]

/-- An entry that does not lead to an initial population leaves the origin as it is. -/
lemma origin_append_of_not_begins (h : entry.begins = false) :
    origin (entries ++ [entry]) = origin entries := by
  simp [origin, h]

/-- An entry that leads to an initial population has this population as the origin. -/
lemma origin_append_of_begins (h : entry.begins = true) :
    origin (entries ++ [entry]) = entry.reply.evolution.population := by
  simp [origin, h]

end Entries

variable [Printed V] [WordSource σ]

/-! ### What comes of a call -/

/-- A probability of crossover is taken over if it is one. -/
lemma Call.perform_setCrossoverProbability (e : Evolution σ V) (p : Float) :
    (Call.setCrossoverProbability p).perform e =
      if Settings.isProbability p then
        { e with settings := { e.settings with crossoverProbability := p } } else e := by
  rw [perform, Evolution.setCrossoverProbability]
  by_cases hp : Settings.isProbability p = true
  · rw [if_pos hp, if_pos hp]
  · rw [if_neg hp, if_neg hp]

/-- A probability of mutation is taken over if it is one. -/
lemma Call.perform_setMutationProbability (e : Evolution σ V) (p : Float) :
    (Call.setMutationProbability p).perform e =
      if Settings.isProbability p then
        { e with settings := { e.settings with mutationProbability := p } } else e := by
  rw [perform, Evolution.setMutationProbability]
  by_cases hp : Settings.isProbability p = true
  · rw [if_pos hp, if_pos hp]
  · rw [if_neg hp, if_neg hp]

/-- A reply is what becomes of a population that is drawn. -/
lemma Request.exists_reply_eq (e : Evolution σ V) (r : Request) :
    ∃ generation, r.reply e = e.advance (r.draw e) generation := by
  cases r with
  | start => exact ⟨0, rfl⟩
  | step =>
    rw [Request.reply, Request.draw, Evolution.step]
    rcases e.stage with _ | ⟨p, generation⟩
    · exact ⟨0, rfl⟩
    · exact ⟨generation + 1, rfl⟩

/-- What comes of a request for a new population: it fails, and nothing but the source of random
words has changed; or an initial population has been sampled and scored; or a population has been
bred from the present one and scored. -/
lemma Request.reply_cases (e : Evolution σ V) (r : Request) :
    (∃ f source, (r.reply e).answer = .error f ∧
      (r.reply e).evolution = { e with source := source }) ∨
    (∃ p scored source count, (r = .start ∨ e.stage = .initial) ∧
      (Population.sample e.settings.populationSize e.sampler).outcome e.source = (.ok p, source) ∧
      List.Forall₂ (Scoring.Judged e.scorer) p.members scored.members ∧
      (r.reply e).answer = .ok count ∧
      (r.reply e).evolution = { e with source := source, stage := .stepping scored 0 }) ∨
    ∃ parents generation p scored source count, r = .step ∧
      e.stage = .stepping parents generation ∧
      (e.offspring parents).outcome e.source = (.ok p, source) ∧
      List.Forall₂ (Scoring.Judged e.scorer) p.members scored.members ∧
      (r.reply e).answer = .ok count ∧
      (r.reply e).evolution =
        { e with source := source, stage := .stepping scored (generation + 1) } := by
  have hstart : r = .start ∨ e.stage = .initial → r.reply e = e.start := by
    rintro (rfl | hstage)
    · rfl
    · cases r with
      | start => rfl
      | step => rw [reply, Evolution.step, hstage]
  by_cases hbegins : r = .start ∨ e.stage = .initial
  · rw [hstart hbegins]
    rcases e.advance_cases (Population.sample e.settings.populationSize e.sampler) 0 with
      ⟨f, source, hanswer, hevolution⟩ |
      ⟨p, scored, source, houtcome, -, hjudged, hanswer, hevolution⟩
    · exact Or.inl ⟨f, source, hanswer, hevolution⟩
    · exact Or.inr (Or.inl ⟨p, scored, source, _, hbegins, houtcome, hjudged, hanswer, hevolution⟩)
  · obtain ⟨hr, hstage⟩ := not_or.mp hbegins
    have hr : r = .step := by
      cases r with
      | start => exact absurd rfl hr
      | step => rfl
    rcases hpresent : e.stage with _ | ⟨parents, generation⟩
    · exact absurd hpresent hstage
    · have hreply : r.reply e = e.advance (e.offspring parents) (generation + 1) := by
        rw [hr, reply, Evolution.step, hpresent]
      rw [hreply]
      rcases e.advance_cases (e.offspring parents) (generation + 1) with
        ⟨f, source, hanswer, hevolution⟩ |
        ⟨p, scored, source, houtcome, -, hjudged, hanswer, hevolution⟩
      · rw [hpresent] at hevolution
        exact Or.inl ⟨f, source, hanswer, hevolution⟩
      · exact Or.inr (Or.inr ⟨parents, generation, p, scored, source, _, hr, rfl, houtcome,
          hjudged, hanswer, hevolution⟩)

/-- A request that fails changes nothing but the source of random words. -/
lemma Request.eq_of_error {e : Evolution σ V} {r : Request} {f : Failure}
    (h : (r.reply e).answer = .error f) :
    ∃ source, (r.reply e).evolution = { e with source := source } := by
  rcases reply_cases e r with ⟨g, source, -, hevolution⟩ | ⟨-, -, -, count, -, -, -, hanswer, -⟩ |
    ⟨-, -, -, -, -, count, -, -, -, -, hanswer, -⟩
  · exact ⟨source, hevolution⟩
  · rw [h] at hanswer
    cases hanswer
  · rw [h] at hanswer
    cases hanswer

/-- The entry of a request that fails is one without success. -/
lemma Request.entry_succeeded_of_error {e : Evolution σ V} {r : Request} {f : Failure}
    (h : (r.reply e).answer = .error f) : (r.entry e).succeeded = false := by
  rw [Entry.succeeded, entry, h]
  rfl

/-- The entry of a request that is answered is one with success. -/
lemma Request.entry_succeeded_of_ok {e : Evolution σ V} {r : Request} {count : Nat}
    (h : (r.reply e).answer = .ok count) : (r.entry e).succeeded = true := by
  rw [Entry.succeeded, entry, h]
  rfl

/-- A request that fails leaves the origin as it is. -/
lemma Request.origin_of_error {e : Evolution σ V} {r : Request} {f : Failure}
    (h : (r.reply e).answer = .error f) (entries : List (Entry σ V)) :
    origin (entries ++ [r.entry e]) = origin entries := by
  have hbegins : (r.entry e).begins = false := by
    rw [Entry.begins, entry_succeeded_of_error h]
    rfl
  exact origin_append_of_not_begins hbegins

/-- An initial population is the origin of what comes after it. -/
lemma Request.origin_of_initial {e : Evolution σ V} {r : Request} {count : Nat} {source : σ}
    {p : Population V} (hanswer : (r.reply e).answer = .ok count)
    (hevolution : (r.reply e).evolution = { e with source := source, stage := .stepping p 0 })
    (entries : List (Entry σ V)) : origin (entries ++ [r.entry e]) = some p := by
  have hentry : (r.entry e).reply.evolution =
      { e with source := source, stage := .stepping p 0 } := hevolution
  have hbegins : (r.entry e).begins = true := by
    rw [Entry.begins, entry_succeeded_of_ok hanswer, hentry]
    rfl
  rw [origin_append_of_begins hbegins, hentry, population]

/-- A bred population leaves the origin as it is. -/
lemma Request.origin_of_bred {e : Evolution σ V} {r : Request} {count generation : Nat} {source : σ}
    {p : Population V} (hanswer : (r.reply e).answer = .ok count)
    (hevolution : (r.reply e).evolution =
      { e with source := source, stage := .stepping p (generation + 1) })
    (entries : List (Entry σ V)) : origin (entries ++ [r.entry e]) = origin entries := by
  have hentry : (r.entry e).reply.evolution =
      { e with source := source, stage := .stepping p (generation + 1) } := hevolution
  have hbegins : (r.entry e).begins = false := by
    rw [Entry.begins, entry_succeeded_of_ok hanswer, hentry]
    rfl
  exact origin_append_of_not_begins hbegins

/-- A run makes some steps with success.  It leaves the evolution as it is after them, or it fails
with the step that comes next. -/
structure Run.Makes (r : Run σ V ω) (e : Evolution σ V) (made : Nat) : Prop where
  /-- The steps have success. -/
  succeeds : ∀ k < made, (afterSteps k e).step.answer.isOk = true
  /-- The evolution is left as after these steps, or as a step leaves it that has failed. -/
  leaves : r.evolution = afterSteps made e ∨
    ∃ f source, (afterSteps made e).step.answer = .error f ∧ r.answer = some (.error f) ∧
      r.evolution = { afterSteps made e with source := source }

/-- A run may go on after a step with success. -/
lemma Run.Makes.succ {r : Run σ V ω} {e : Evolution σ V} {made : Nat}
    (h : r.Makes e.step.evolution made) (hstep : e.step.answer.isOk = true)
    (records : List Record) : (r.after records).Makes e (made + 1) where
  succeeds k hk := by
    cases k with
    | zero => exact hstep
    | succ k => exact h.succeeds k (Nat.lt_of_succ_lt_succ hk)
  leaves := h.leaves

/-- A run that stops after a step with success has made one step. -/
lemma Run.Makes.one {r : Run σ V ω} {e : Evolution σ V} (hstep : e.step.answer.isOk = true)
    (hevolution : r.evolution = e.step.evolution) : r.Makes e 1 where
  succeeds k hk := by
    rw [Nat.lt_one_iff.mp hk]
    exact hstep
  leaves := Or.inl hevolution

/-- A run makes the steps with success that its entries tell of. -/
lemma stepUntil_makes (observer : Observer V ω) (steps : Nat) (state : ω) (e : Evolution σ V) :
    (stepUntil observer steps state e).Makes e
      (successes (stepEntries observer steps state e)).length := by
  induction steps generalizing state e with
  | zero =>
    refine ⟨fun k hk => ?_, Or.inl rfl⟩
    cases hk
  | succ steps ih =>
    unfold stepUntil stepEntries
    dsimp only
    rcases hanswer : e.step.answer with f | scores
    · obtain ⟨source, hevolution⟩ := Request.eq_of_error (r := .step) hanswer
      have hentry : (Request.step.entry e).succeeded = false :=
        Request.entry_succeeded_of_error hanswer
      rw [successes_cons_of_not_succeeded hentry]
      refine ⟨fun k hk => ?_, Or.inr ⟨f, source, hanswer, rfl, hevolution⟩⟩
      cases hk
    · have hentry : (Request.step.entry e).succeeded = true :=
        Request.entry_succeeded_of_ok hanswer
      rw [successes_cons_of_succeeded hentry, List.length_cons]
      rcases e.step.evolution.stage with _ | ⟨p, generation⟩
      · exact (ih state e.step.evolution).succ hentry _
      · dsimp only
        rcases (observer.observe state p generation scores).stop with f | _ | _
        · exact .one hentry rfl
        · exact (ih _ e.step.evolution).succ hentry _
        · exact .one hentry rfl

/-! ### Properties of chronicles -/

/-- A property of an evolution and its chronicle that everything preserves, where initial programs
come from some samplers only. -/
structure Recorded (samplers : TreeSampler V → Prop)
    (P : List (Entry σ V) → Evolution σ V → Prop) : Prop where
  /-- It is preserved by a request. -/
  request : ∀ entries e (r : Request), P entries e →
    P (entries ++ [r.entry e]) (r.reply e).evolution
  /-- It is preserved by another probability of crossover. -/
  crossoverProbability : ∀ entries e p, Settings.isProbability p = true → P entries e →
    P entries { e with settings := { e.settings with crossoverProbability := p } }
  /-- It is preserved by another probability of mutation. -/
  mutationProbability : ∀ entries e p, Settings.isProbability p = true → P entries e →
    P entries { e with settings := { e.settings with mutationProbability := p } }
  /-- It is preserved by one more limit. -/
  addLimit : ∀ entries e l, P entries e → P entries (e.addLimit l)
  /-- It is preserved by the replacement of a part. -/
  fitting : ∀ entries e (f : Fitting V), (∀ t, f = .sampler t → samplers t) → P entries e →
    P entries (f.perform e)
  /-- It is preserved by a verdict. -/
  judged : ∀ entries e v, P entries e → P entries (e.judged v)

namespace Recorded

variable {samplers : TreeSampler V → Prop} {P : List (Entry σ V) → Evolution σ V → Prop}
  {entries : List (Entry σ V)} {e : Evolution σ V}

/-- The steps of a run preserve the property. -/
lemma stepEntries (h : Recorded samplers P) (observer : Observer V ω) (steps : Nat) (state : ω)
    (he : P entries e) :
    P (entries ++ Evolution.stepEntries observer steps state e)
      (Evolution.stepUntil observer steps state e).evolution := by
  induction steps generalizing state entries e with
  | zero =>
    rw [Evolution.stepEntries, List.append_nil]
    exact he
  | succ steps ih =>
    have hstep : P (entries ++ [Request.step.entry e]) e.step.evolution :=
      h.request entries e .step he
    unfold Evolution.stepEntries Evolution.stepUntil
    dsimp only
    rw [List.append_cons]
    rcases e.step.answer with f | scores
    · simpa using hstep
    · rcases e.step.evolution.stage with _ | ⟨p, generation⟩
      · exact ih state hstep
      · dsimp only
        rcases (observer.observe state p generation scores).stop with f | _ | _
        · simpa using hstep
        · exact ih _ hstep
        · simpa using hstep

/-- A call preserves the property. -/
lemma call (h : Recorded samplers P) (he : P entries e) (c : Call V) :
    P (entries ++ c.entries e) (c.perform e) := by
  cases c with
  | start => exact h.request entries e .start he
  | step => exact h.request entries e .step he
  | run observer steps state => exact h.stepEntries observer steps state he
  | setCrossoverProbability p =>
    have hentries : Call.entries e (.setCrossoverProbability p) = [] := rfl
    rw [hentries, List.append_nil, Call.perform_setCrossoverProbability]
    split
    · exact h.crossoverProbability entries e p ‹_› he
    · exact he
  | setMutationProbability p =>
    have hentries : Call.entries e (.setMutationProbability p) = [] := rfl
    rw [hentries, List.append_nil, Call.perform_setMutationProbability]
    split
    · exact h.mutationProbability entries e p ‹_› he
    · exact he
  | addLimit l =>
    have hentries : Call.entries e (.addLimit l) = [] := rfl
    rw [hentries, List.append_nil]
    exact h.addLimit entries e l he

/-- Any acts preserve the property. -/
lemma chronicle (h : Recorded samplers P) (he : P entries e) (acts : List (Act V))
    (hsamplers : ∀ t, .fitting (.sampler t) ∈ acts → samplers t) :
    P (entries ++ Evolution.chronicle acts e) (e.afterActs acts) := by
  induction acts generalizing entries e with
  | nil =>
    rw [Evolution.chronicle, List.append_nil]
    exact he
  | cons act acts ih =>
    have hact : P (entries ++ act.entries e) (act.perform e) := by
      cases act with
      | call c => exact h.call he c
      | fitting f =>
        have hentries : Act.entries e (.fitting f) = [] := rfl
        rw [hentries, List.append_nil]
        refine h.fitting entries e f (fun t ht => hsamplers t ?_) he
        rw [ht]
        exact List.mem_cons_self
      | verdict v =>
        have hentries : Act.entries e (.verdict v) = [] := rfl
        rw [hentries, List.append_nil]
        exact h.judged entries e v he
    have hrest : ∀ t, .fitting (.sampler t) ∈ acts → samplers t :=
      fun t ht => hsamplers t (List.mem_cons_of_mem act ht)
    rw [Evolution.chronicle, ← List.append_assoc]
    exact ih hact hrest

end Recorded

/-! ### A small evolution that is set up by settings -/

/-- Two individuals with a function at the root, and limits that not every such program keeps. -/
def tightSettings : Settings where
  populationSize := 2
  tournamentSize := 1
  initMethod := .full
  initMaxDepth := 1
  depthLimit := some 1
  sizeLimit := some 2

/-- The evolution of these settings, with words listed for the first draws.  Programs of more than
two symbols are not scored with a valid fitness. -/
def tightEvolution : Evolution ListedWords Bool where
  settings := tightSettings
  vocabulary := smallVocabulary
  sampler := smallSampler
  selection := .tournament 1
  crossover := ⟨[.depth 1, .size 2]⟩
  mutation :=
    ⟨⟨.grow, smallVocabulary, 0, 2, Nat.zero_le 2, smallSampler.terminals_ne_nil⟩,
      [.depth 1, .size 2]⟩
  limits := [.depth 1, .size 2]
  scorer := Scoring.brevity 2
  seed := 0
  source :=
    ⟨[0, 0, 0x8000000000000000, 1, 0, 0x8000000000000000, 0, 0, 0x8000000000000000,
      0x8000000000000000, 0x8000000000000000, 0xffffffffffffffff, 0xffffffffffffffff,
      0xffffffffffffffff], 0⟩
  stage := .initial

/-- The evolution has been set up by the settings. -/
lemma tightEvolution_eq :
    Evolution.of (fun _ => tightEvolution.source) 0 tightSettings smallVocabulary
        (Scoring.brevity 2) =
      .ok (tightEvolution, [seedRecord 0]) :=
  rfl

/-- A population is sampled; a probability is refused; a tournament fails; and individuals that are
selected at random make up the next generation. -/
def actsWithFailures : List (Act Bool) :=
  [.call .step, .call (.setMutationProbability (0 / 0)), .call .step,
    .fitting (.selection .uniform), .call .step]

end Evolution

end TreeEvolution
