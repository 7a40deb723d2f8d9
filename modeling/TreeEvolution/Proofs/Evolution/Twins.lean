import TreeEvolution.Proofs.Evolution.Chronicle
import TreeEvolution.Proofs.Reliability

/-!
# Evolutions under other arrangements

How many workers score the individuals, whether every individual is told of, and when a run shall
end are no matter of the evolution itself.  `Settings.arranged` puts other values in the places of
these settings.

An arrangement is read in two places only.  The workers divide the pending individuals among
themselves, but if the scorer answers they bring back the same scores; and the records of what there
is to tell go elsewhere.  So an evolution under another arrangement answers every
request in the same way and is left with the same population (`Request.reply_arranged`), and the
whole history of calls is the same.
-/

namespace TreeEvolution

/-! ### Arrangements -/

/-- The settings that have to do with the circumstances of an evolution. -/
structure Arrangement where
  /-- The number of workers that score individuals. -/
  threads : Nat
  /-- The generation with which a run ends at the latest. -/
  maxGenerations : Nat
  /-- The fitness with which a run ends. -/
  targetFitness : Float
  /-- Whether every individual is told of after each scoring. -/
  verbose : Bool

/-- Settings under another arrangement. -/
def Settings.arranged (s : Settings) (a : Arrangement) : Settings :=
  { s with
    threads := a.threads
    maxGenerations := a.maxGenerations
    targetFitness := a.targetFitness
    verbose := a.verbose }

/-- Two observers give the same answers as long as their states agree, and the states agree
afterwards. -/
def Observer.Concurs {V ω υ : Type} (one : Observer V ω) (other : Observer V υ)
    (agree : ω → υ → Prop) : Prop :=
  ∀ state begin p generation scores, agree state begin →
    (one.observe state p generation scores).stop = (other.observe begin p generation scores).stop ∧
      agree (one.observe state p generation scores).state
        (other.observe begin p generation scores).state

/-- An observer concurs with itself. -/
lemma Observer.concurs_refl {V ω : Type} (observer : Observer V ω) :
    observer.Concurs observer Eq := by
  rintro state _ p generation scores rfl
  exact ⟨rfl, rfl⟩

namespace Evolution

variable {σ V ω υ : Type}

/-- An evolution under another arrangement. -/
def arranged (e : Evolution σ V) (a : Arrangement) : Evolution σ V :=
  { e with settings := e.settings.arranged a }

/-- Another arrangement that is accepted sets up the same evolution, under that arrangement.  If the
settings have a seed, no other seed matters. -/
lemma of_arranged {sourceOf : UInt64 → σ} {otherSeed : UInt64} {settings : Settings}
    {v : Vocabulary V} {scorer : Scorer V} {e : Evolution σ V} {records : List Record}
    (h : Evolution.of sourceOf otherSeed settings v scorer = .ok (e, records)) {seed : UInt64}
    (hseed : settings.seed = some seed) {a : Arrangement}
    (haccepted : (settings.arranged a).validate = .ok ()) (anotherSeed : UInt64) :
    ∃ records, Evolution.of sourceOf anotherSeed (settings.arranged a) v scorer =
      .ok (e.arranged a, records) := by
  obtain ⟨-, sampler, shoots, hsampler, hshoots, rfl⟩ := of_eq_ok h
  have hterminals := (TreeSampler.exists_of_eq_ok_iff.mp ⟨sampler, hsampler⟩).2
  obtain ⟨f, records, hf⟩ : ∃ f records,
      Evolution.of sourceOf anotherSeed (settings.arranged a) v scorer = .ok (f, records) :=
    exists_of_eq_ok_iff.mpr ⟨haccepted, hterminals⟩
  obtain ⟨-, sampler', shoots', hsampler', hshoots', rfl⟩ := of_eq_ok hf
  have hinit := hsampler.symm.trans hsampler'
  have hmutation := hshoots.symm.trans hshoots'
  cases hinit
  cases hmutation
  refine ⟨records, hf.trans ?_⟩
  have hseed' : (settings.arranged a).seed = some seed := hseed
  rw [hseed, hseed']
  rfl

/-! ### Scoring under another arrangement -/

section Scoring

variable [Printed V] {e : Evolution σ V}

/-- Another arrangement changes nothing in how a population is scored. -/
lemma install_arranged {p : Population V} (h : ∀ i ∈ p.members, ∃ s, e.scorer i.code = .ok s)
    (a : Arrangement) (generation : Nat) :
    ((e.arranged a).install p generation).answer = (e.install p generation).answer ∧
      ((e.arranged a).install p generation).evolution =
        (e.install p generation).evolution.arranged a := by
  obtain ⟨hcount, hcount', hindividuals⟩ :=
    Scoring.score_eq_of_answers h e.settings.threads a.threads
  have hscorer : (e.arranged a).scorer = e.scorer := rfl
  have hthreads : (e.arranged a).settings.threads = a.threads := rfl
  rw [install, install, hscorer, hthreads]
  dsimp only
  rw [hcount, hcount', hindividuals]
  exact ⟨rfl, rfl⟩

/-- Another arrangement changes nothing in how a population is drawn and scored. -/
lemma advance_arranged {draw : Draw σ (Population V)}
    (h : draw.Yields fun p => ∀ i ∈ p.members, ∃ s, e.scorer i.code = .ok s) (a : Arrangement)
    (generation : Nat) :
    ((e.arranged a).advance draw generation).answer = (e.advance draw generation).answer ∧
      ((e.arranged a).advance draw generation).evolution =
        (e.advance draw generation).evolution.arranged a := by
  have hsource : (e.arranged a).source = e.source := rfl
  rw [advance, advance, hsource]
  rcases houtcome : (draw >>= Population.kept).outcome e.source with ⟨f | p, source⟩
  · exact ⟨rfl, rfl⟩
  · have hdraw := (Population.outcome_bind_kept houtcome).1
    have hscores : ∀ i ∈ p.members,
        ∃ s, ({ e with source := source } : Evolution σ V).scorer i.code = .ok s :=
      h e.source p source hdraw
    exact install_arranged hscores a generation

end Scoring

/-! ### Calls that are alike -/

/-- The same call, where runs may be shown to different observers with the same answers. -/
inductive Call.Alike : Call V → Call V → Prop where
  /-- Both begin anew. -/
  | start : Alike .start .start
  /-- Both go on by one generation. -/
  | step : Alike .step .step
  /-- Both run, with observers that concur. -/
  | run {ω υ : Type} {one : Observer V ω} {other : Observer V υ} {agree : ω → υ → Prop}
    (hconcurs : one.Concurs other agree) {state : ω} {begin : υ} (hbegin : agree state begin)
    (steps : Nat) : Alike (.run one steps state) (.run other steps begin)
  /-- Both set the same probability of crossover. -/
  | setCrossoverProbability (p : Float) :
    Alike (.setCrossoverProbability p) (.setCrossoverProbability p)
  /-- Both set the same probability of mutation. -/
  | setMutationProbability (p : Float) :
    Alike (.setMutationProbability p) (.setMutationProbability p)
  /-- Both add the same limit. -/
  | addLimit (l : Limit) : Alike (.addLimit l) (.addLimit l)

/-- A call is like itself. -/
lemma Call.alike_refl (call : Call V) : call.Alike call := by
  cases call with
  | start => exact .start
  | step => exact .step
  | run observer steps state => exact .run observer.concurs_refl rfl steps
  | setCrossoverProbability p => exact .setCrossoverProbability p
  | setMutationProbability p => exact .setMutationProbability p
  | addLimit l => exact .addLimit l

/-! ### Histories -/

/-- What can be seen of a request: the reply, and the population and generation afterwards. -/
structure Sight (V : Type) where
  /-- The request. -/
  request : Request
  /-- The number of scores made, or why there is no new population. -/
  answer : Except Failure Nat
  /-- The population and the generation afterwards. -/
  stage : Stage V

/-- What can be seen of an entry of a chronicle. -/
def Entry.sight (entry : Entry σ V) : Sight V :=
  ⟨entry.request, entry.reply.answer, entry.reply.evolution.stage⟩

/-- The answer to a call. -/
inductive Call.Answer (V : Type) where
  /-- The number of scores made. -/
  | scores (answer : Except Failure Nat)
  /-- The last population of a run; nothing if the observer never said stop. -/
  | population (answer : Option (Except Failure (Population V)))
  /-- Whether a setting was accepted. -/
  | setting (answer : Except Error Unit)
  /-- A call that is not answered. -/
  | none

/-- What can be seen of a call. -/
structure Account (V : Type) where
  /-- The requests for new populations. -/
  sights : List (Sight V)
  /-- The answer to the call. -/
  answer : Call.Answer V
  /-- The population and the generation afterwards. -/
  stage : Stage V

variable [Printed V] [WordSource σ]

/-- The answer of an evolution to a call. -/
def Call.answer (e : Evolution σ V) : Call V → Call.Answer V
  | start => .scores e.start.answer
  | step => .scores e.step.answer
  | run observer steps state => .population (Evolution.run observer steps state e).answer
  | setCrossoverProbability p => .setting ((e.setCrossoverProbability p).map fun _ => ())
  | setMutationProbability p => .setting ((e.setMutationProbability p).map fun _ => ())
  | addLimit _ => .none

/-- What can be seen of a call that is a request. -/
def Request.account (e : Evolution σ V) (r : Request) : Account V :=
  ⟨[(r.entry e).sight], .scores (r.reply e).answer, (r.reply e).evolution.stage⟩

/-- What can be seen of a call to an evolution. -/
def Call.account (e : Evolution σ V) (call : Call V) : Account V :=
  ⟨(call.entries e).map Entry.sight, call.answer e, (call.perform e).stage⟩

/-- What can be seen of some calls, one after the other. -/
def history : List (Call V) → Evolution σ V → List (Account V)
  | [], _ => []
  | call :: calls, e => call.account e :: history calls (call.perform e)

/-! ### Evolutions whose scorer answers -/

/-- Whatever individuals an evolution makes, its scorer has a score for their programs. -/
structure Scores (e : Evolution σ V) (bred living : Individual V → Prop) : Prop where
  /-- These are the individuals it makes. -/
  lineage : e.Lineage bred living
  /-- Everyone lives. -/
  everyone : e.Everyone living
  /-- The scorer answers. -/
  scorer : ∀ i, bred i → ∃ s, e.scorer i.code = .ok s

variable {bred living : Individual V → Prop}

omit [WordSource σ] in
/-- The scorer stays the same. -/
lemma scorer_advance (e : Evolution σ V) (draw : Draw σ (Population V)) (generation : Nat) :
    (e.advance draw generation).evolution.scorer = e.scorer := by
  rcases e.advance_cases draw generation with ⟨f, source, -, hevolution⟩ |
    ⟨p, scored, source, -, -, -, -, hevolution⟩
  · rw [hevolution]
  · rw [hevolution]

/-- Every call preserves that the scorer answers. -/
lemma closed_scores : Closed fun e : Evolution σ V => e.Scores bred living := by
  have hclosed : Closed fun e : Evolution σ V => e.Lineage bred living ∧ e.Everyone living :=
    Lineage.closed
  constructor
  · intro e he
    obtain ⟨hlineage, heveryone⟩ := hclosed.start e ⟨he.lineage, he.everyone⟩
    refine ⟨hlineage, heveryone, ?_⟩
    rw [start, scorer_advance]
    exact he.scorer
  · intro e p generation he hstage
    obtain ⟨hlineage, heveryone⟩ :=
      hclosed.breed e p generation ⟨he.lineage, he.everyone⟩ hstage
    refine ⟨hlineage, heveryone, ?_⟩
    rw [scorer_advance]
    exact he.scorer
  · intro e settings he
    exact ⟨he.lineage.congr rfl rfl rfl, he.everyone, he.scorer⟩
  · intro e l he
    exact ⟨he.lineage.congr rfl rfl rfl, he.everyone, he.scorer⟩

/-! ### Requests under another arrangement -/

section Requests

variable {e : Evolution σ V}

/-- Another arrangement changes nothing in the reply to a request. -/
lemma Request.reply_arranged (h : e.Scores bred living) (a : Arrangement) (r : Request) :
    (r.reply (e.arranged a)).answer = (r.reply e).answer ∧
      (r.reply (e.arranged a)).evolution = (r.reply e).evolution.arranged a := by
  have hstart : Draw.Yields
      (Population.sample e.settings.populationSize e.sampler : Draw σ (Population V))
      fun p => ∀ i ∈ p.members, ∃ s, e.scorer i.code = .ok s :=
    (h.lineage.start_yields _).mono fun p hp i hi => h.scorer i (hp i hi)
  cases r with
  | start => exact advance_arranged hstart a 0
  | step =>
    have hstage : (e.arranged a).stage = e.stage := rfl
    rw [Request.reply, Request.reply, Evolution.step, Evolution.step, hstage]
    rcases hpresent : e.stage with _ | ⟨p, generation⟩
    · exact advance_arranged hstart a 0
    · have hp : e.population = some p := by rw [population, hpresent]
      have hbreed := (h.lineage.offspring_yields (h.everyone p hp)).mono
        fun q hq i hi => h.scorer i (hq i hi)
      exact advance_arranged hbreed a (generation + 1)

/-- Another arrangement changes nothing in what can be seen of a request. -/
lemma Request.sight_arranged (h : e.Scores bred living) (a : Arrangement)
    (r : Request) : (r.entry (e.arranged a)).sight = (r.entry e).sight := by
  obtain ⟨hanswer, hevolution⟩ := r.reply_arranged h a
  simp only [Entry.sight, Request.entry, hanswer, hevolution]
  rfl

/-- Another arrangement changes nothing in the account of a request. -/
lemma Request.account_arranged (h : e.Scores bred living) (a : Arrangement) (r : Request) :
    r.account (e.arranged a) = r.account e := by
  obtain ⟨hanswer, hevolution⟩ := r.reply_arranged h a
  rw [account, account, r.sight_arranged h a, hanswer, hevolution]
  rfl

/-- Another arrangement changes nothing in a run, and neither does another observer with the same
answers. -/
lemma stepUntil_arranged (h : e.Scores bred living) (a : Arrangement)
    {one : Observer V ω} {other : Observer V υ} {agree : ω → υ → Prop}
    (hconcurs : one.Concurs other agree) {state : ω} {begin : υ} (hbegin : agree state begin)
    (steps : Nat) :
    (stepEntries other steps begin (e.arranged a)).map Entry.sight =
        (stepEntries one steps state e).map Entry.sight ∧
      (stepUntil other steps begin (e.arranged a)).answer =
        (stepUntil one steps state e).answer ∧
      (stepUntil other steps begin (e.arranged a)).evolution =
        (stepUntil one steps state e).evolution.arranged a := by
  induction steps generalizing e state begin with
  | zero => exact ⟨rfl, rfl, rfl⟩
  | succ steps ih =>
    have hnext : e.step.evolution.Scores bred living := closed_scores.step h
    have hsight := Request.sight_arranged h a .step
    obtain ⟨hanswer, hevolution⟩ := Request.reply_arranged h a .step
    simp only [Request.reply] at hanswer hevolution
    have hstage : (e.arranged a).step.evolution.stage = e.step.evolution.stage := by
      rw [hevolution]
      rfl
    unfold stepEntries stepUntil
    dsimp only
    rw [List.map_cons, List.map_cons, hsight, hanswer, hstage]
    rcases e.step.answer with f | scores
    · exact ⟨rfl, rfl, hevolution⟩
    · rcases hpresent : e.step.evolution.stage with _ | ⟨p, generation⟩
      · obtain ⟨hsights, hanswers, hevolutions⟩ := ih hnext hbegin
        rw [hevolution]
        exact ⟨congrArg (_ :: ·) hsights, hanswers, hevolutions⟩
      · -- Both observers are shown the same, so both runs go on or both are over.
        obtain ⟨hstop, hagree⟩ := hconcurs state begin p generation scores hbegin
        dsimp only
        rw [← hstop]
        rcases (one.observe state p generation scores).stop with f | _ | _
        · exact ⟨rfl, rfl, hevolution⟩
        · obtain ⟨hsights, hanswers, hevolutions⟩ := ih hnext hagree
          dsimp only
          rw [hevolution]
          exact ⟨congrArg (_ :: ·) hsights, hanswers, hevolutions⟩
        · exact ⟨rfl, rfl, hevolution⟩

/-- Another arrangement changes nothing in what comes of a call and what can be seen of it. -/
lemma Call.account_arranged (h : e.Scores bred living) (a : Arrangement)
    {call other : Call V} (halike : call.Alike other) :
    other.account (e.arranged a) = call.account e ∧
      other.perform (e.arranged a) = (call.perform e).arranged a := by
  cases halike with
  | start => exact ⟨Request.account_arranged h a .start, (Request.reply_arranged h a .start).2⟩
  | step => exact ⟨Request.account_arranged h a .step, (Request.reply_arranged h a .step).2⟩
  | run hconcurs hbegin steps =>
    obtain ⟨hsights, hanswer, hevolution⟩ := stepUntil_arranged h a hconcurs hbegin steps
    refine ⟨?_, hevolution⟩
    simp only [account, entries, answer, perform, Evolution.run, Run.after, hsights, hanswer,
      hevolution]
    rfl
  | setCrossoverProbability p =>
    rw [account, account, answer, answer, perform_setCrossoverProbability,
      perform_setCrossoverProbability, Evolution.setCrossoverProbability,
      Evolution.setCrossoverProbability]
    by_cases hp : Settings.isProbability p = true
    · rw [if_pos hp, if_pos hp, if_pos hp, if_pos hp]
      exact ⟨rfl, rfl⟩
    · rw [if_neg hp, if_neg hp, if_neg hp, if_neg hp]
      exact ⟨rfl, rfl⟩
  | setMutationProbability p =>
    rw [account, account, answer, answer, perform_setMutationProbability,
      perform_setMutationProbability, Evolution.setMutationProbability,
      Evolution.setMutationProbability]
    by_cases hp : Settings.isProbability p = true
    · rw [if_pos hp, if_pos hp, if_pos hp, if_pos hp]
      exact ⟨rfl, rfl⟩
    · rw [if_neg hp, if_neg hp, if_neg hp, if_neg hp]
      exact ⟨rfl, rfl⟩
  | addLimit l => exact ⟨rfl, rfl⟩

/-- Another arrangement changes nothing in the history of calls. -/
lemma history_arranged (h : e.Scores bred living) (a : Arrangement)
    {calls others : List (Call V)} (halike : List.Forall₂ Call.Alike calls others) :
    (e.arranged a).history others = e.history calls := by
  induction halike generalizing e with
  | nil => rfl
  | cons hcall hcalls ih =>
    obtain ⟨haccount, hperform⟩ := Call.account_arranged h a hcall
    rw [history, history, haccount, hperform, ih (closed_scores.perform h _)]

end Requests

/-! ### One history -/

/-- **The arrangement does not matter.**  Take settings that are accepted under two arrangements and
have a seed, a vocabulary with a terminal, and a scorer that answers on the programs of the
vocabulary.  Both settings set an evolution up, and in the histories of the same calls the two
evolutions differ in nothing: the answers, the populations, the generations and the failures are the
same, also within runs, as long as the observers give the same answers. -/
theorem arrangement_does_not_matter {settings : Settings} {a : Arrangement} {seed : UInt64}
    (haccepted : settings.validate = .ok ()) (harranged : (settings.arranged a).validate = .ok ())
    (hseed : settings.seed = some seed) {inputs : Nat} {names : List String} {bare : Vocabulary V}
    (hbare : Vocabulary.ofInputs inputs names = .ok bare)
    (additions : List (Vocabulary.Addition V)) (hterminals : (bare.after additions).terminals ≠ [])
    {scorer : Scorer V} (hscorer : scorer.Answers (bare.after additions) fun _ => True)
    (sourceOf : UInt64 → σ) (oneSeed otherSeed : UInt64) :
    ∃ one other oneRecords otherRecords,
      Evolution.of sourceOf oneSeed settings (bare.after additions) scorer =
        .ok (one, oneRecords) ∧
      Evolution.of sourceOf otherSeed (settings.arranged a) (bare.after additions) scorer =
        .ok (other, otherRecords) ∧
      ∀ calls others : List (Call V), List.Forall₂ Call.Alike calls others →
        one.history calls = other.history others := by
  have hv : (bare.after additions).Proper inputs :=
    (Vocabulary.proper_of_ofInputs hbare).after additions
  obtain ⟨one, records, hone⟩ : ∃ one records,
      Evolution.of sourceOf oneSeed settings (bare.after additions) scorer = .ok (one, records) :=
    exists_of_eq_ok_iff.mpr ⟨haccepted, hterminals⟩
  obtain ⟨others, hother⟩ := of_arranged hone hseed harranged otherSeed
  have hfresh : one.Fresh (bare.after additions) := Fresh.of hone
  have hscores : one.Scores (fun i => i.code.Supplied (bare.after additions))
      (Sound (bare.after additions)) := by
    refine ⟨lineage_sound hv hfresh.sampler hfresh.shoots, everyone_of_initial hfresh.stage, ?_⟩
    obtain ⟨-, sampler, shoots, -, -, rfl⟩ := of_eq_ok hone
    intro i hi
    obtain ⟨s, hs, -⟩ := hscorer i.code hi
    exact ⟨s, hs⟩
  exact ⟨one, one.arranged a, records, others, hone, hother,
    fun calls others halike => (history_arranged hscores a halike).symm⟩

/-- A run up to the first generation that is bred, a probability that is refused, and one more
step. -/
def runAndStep : List (Call Bool) :=
  [.run (watcher 1) 2 [], .setMutationProbability (0 / 0), .step]

/-- Two small evolutions with the same seed and with one worker or three have one history, of three
generations. -/
theorem three_workers_have_the_history_of_one :
    ∃ one other : Evolution ListedWords Bool,
      one.settings.threads = 1 ∧ other.settings.threads = 3 ∧
      one.generation = none ∧ (one.after runAndStep).generation = some 2 ∧
      one.history runAndStep = other.history runAndStep := by
  have haccepted : ({ tightSettings with seed := some 0 } : Settings).validate = .ok () := rfl
  have harranged : (({ tightSettings with seed := some 0 } : Settings).arranged
      ⟨3, 0, 0, true⟩).validate = .ok () := rfl
  have hbare : Vocabulary.ofInputs 1 ["x"] = .ok (⟨1, [.input "x" 0], []⟩ : Vocabulary Bool) := rfl
  have hscorer : (Scoring.brevity 9 : Scorer Bool).Answers smallVocabulary fun _ => True :=
    fun p _ => ⟨_, rfl, True.intro⟩
  have halike : List.Forall₂ Call.Alike runAndStep runAndStep :=
    List.forall₂_same.mpr fun call _ => call.alike_refl
  obtain ⟨one, other, _, _, hone, hother, hhistory⟩ := arrangement_does_not_matter haccepted
    harranged rfl hbare smallAdditions smallSampler.terminals_ne_nil hscorer
    (fun _ => tightEvolution.source) 1 2
  cases hone
  cases hother
  exact ⟨_, _, rfl, rfl, rfl, by decide +kernel, hhistory runAndStep runAndStep halike⟩

end Evolution

end TreeEvolution
