import TreeEvolution.Proofs.Evolution.Chronicle

/-!
# Runs are iterated steps

A run has no way of its own to go on: it makes steps, and shows what they lead to.  So the
generations that any run shows are the beginning of one list, `generations`, in which no observer
has a part; an observer only says how much of the list there will be.

`Run.Follows` tells what a run comes to, and `stepUntil_follows` that every run comes to this.  From
it follow the order of the generations, that a run which is resumed goes on as if it had never
stopped, and that a run with a `Report` is over after a number of steps that the report and the
present generation determine.
-/

namespace TreeEvolution

/-! ### What observers are shown -/

/-- A generation as it is shown. -/
structure Showing (V : Type) where
  /-- The population. -/
  population : Population V
  /-- The number of the generation. -/
  generation : Nat
  /-- The number of scores it took. -/
  scores : Nat

namespace Observer

variable {V ω : Type}

/-- What an observer makes of a generation that is shown. -/
def see (observer : Observer V ω) (state : ω) (s : Showing V) : Observation ω :=
  observer.observe state s.population s.generation s.scores

/-- The state of an observer that has been shown some generations. -/
def after (observer : Observer V ω) (state : ω) (shown : List (Showing V)) : ω :=
  shown.foldl (fun state s => (observer.see state s).state) state

/-- An observer lets a run go on after each of some generations. -/
def LetsGoOn (observer : Observer V ω) : ω → List (Showing V) → Prop
  | _, [] => True
  | state, s :: shown =>
    (observer.see state s).stop = .ok false ∧ observer.LetsGoOn (observer.see state s).state shown

/-- An observer that lets a run go on after some generations does so after each of them. -/
lemma LetsGoOn.of_mem {observer : Observer V Unit} {shown : List (Showing V)}
    (h : observer.LetsGoOn () shown) {s : Showing V} (hs : s ∈ shown) :
    (observer.see () s).stop = .ok false := by
  induction shown with
  | nil => cases hs
  | cons first shown ih =>
    rcases List.mem_cons.mp hs with rfl | hs
    · exact h.1
    · exact ih h.2 hs

end Observer

namespace Report

variable {V : Type}

/-- A generation with which a reported run is over: it is the last one allowed or a later one, or
its best individual is fit enough. -/
def Ends (report : Report) (s : Showing V) : Prop :=
  report.maxGenerations ≤ s.generation ∨
    ∃ best, s.population.best = .ok best ∧ report.targetFitness ≤ best.fitness

/-- The number of steps after which a reported run is over, by the generation that it starts
from. -/
def stepsFrom (report : Report) : Option Nat → Nat
  | none => report.maxGenerations + 1
  | some generation => max 1 (report.maxGenerations - generation)

/-- A report that can be written says stop exactly with the generations that end the run. -/
lemma stop_iff_ends [Printed V] {report : Report} {s : Showing V} {stop : Bool}
    (h : (report.observer.see () s).stop = .ok stop) : stop = true ↔ report.Ends s := by
  rw [Observer.see, observer] at h
  dsimp only at h
  unfold onGeneration at h
  rw [Ends]
  rcases hbest : s.population.best with refused | best
  · rw [hbest] at h
    cases h
    simp
  · rw [hbest] at h
    dsimp only at h
    rcases htext : best.text with f | text
    · rw [htext] at h
      cases h
    · rw [htext] at h
      cases h
      simp [or_comm]

end Report

namespace Evolution

variable {σ V ω : Type}

/-- The number of the generation that a step leads to. -/
def nextGeneration (e : Evolution σ V) : Nat :=
  match e.generation with
  | none => 0
  | some generation => generation + 1

variable [Printed V] [WordSource σ]

/-! ### What steps lead to -/

/-- A step has success and leads to a generation. -/
structure Leads (e : Evolution σ V) (s : Showing V) : Prop where
  /-- The answer is the number of scores. -/
  answer : e.step.answer = .ok s.scores
  /-- The population is in its place, with the number of its generation. -/
  stage : e.step.evolution.stage = .stepping s.population s.generation

/-- The generations that steps lead to, as long as the steps have success. -/
def generations : Nat → Evolution σ V → List (Showing V)
  | 0, _ => []
  | steps + 1, e =>
    match e.step.answer, e.step.evolution.stage with
    | .ok scores, .stepping p generation =>
      ⟨p, generation, scores⟩ :: generations steps e.step.evolution
    | _, _ => []

/-- A step fails, or it leads to the next generation. -/
lemma step_cases (e : Evolution σ V) :
    (∃ f, e.step.answer = .error f) ∨ ∃ s, e.Leads s ∧ s.generation = e.nextGeneration := by
  rcases Request.reply_cases e .step with ⟨f, source, hanswer, -⟩ |
    ⟨p, scored, source, count, hbegins, -, -, hanswer, hevolution⟩ |
    ⟨parents, generation, p, scored, source, count, -, hstage, -, -, hanswer, hevolution⟩
  · exact Or.inl ⟨f, hanswer⟩
  · have hstage : e.stage = .initial := by
      rcases hbegins with hstart | hstage
      · cases hstart
      · exact hstage
    have hleads : e.Leads ⟨scored, 0, count⟩ := ⟨hanswer, congrArg Evolution.stage hevolution⟩
    refine Or.inr ⟨_, hleads, ?_⟩
    rw [nextGeneration, Evolution.generation, hstage]
  · have hleads : e.Leads ⟨scored, generation + 1, count⟩ :=
      ⟨hanswer, congrArg Evolution.stage hevolution⟩
    refine Or.inr ⟨_, hleads, ?_⟩
    rw [nextGeneration, Evolution.generation, hstage]

section Leads

variable {e : Evolution σ V} {s : Showing V}

/-- The generation of a step with success is the present one afterwards. -/
lemma Leads.nextGeneration (h : e.Leads s) :
    e.step.evolution.nextGeneration = s.generation + 1 := by
  rw [Evolution.nextGeneration, generation, h.stage]

/-- A step with success leads to the first generation. -/
lemma Leads.generations (h : e.Leads s) (steps : Nat) :
    generations (steps + 1) e = s :: Evolution.generations steps e.step.evolution := by
  rw [Evolution.generations, h.answer, h.stage]

/-- A step that fails leads to no generation. -/
lemma generations_of_error {f : Failure} (h : e.step.answer = .error f) (steps : Nat) :
    generations steps e = [] := by
  cases steps with
  | zero => rfl
  | succ steps => rw [generations, h]

/-- A run goes on after a step with success if the observer says so. -/
lemma Leads.stepUntil (h : e.Leads s) (observer : Observer V ω) (steps : Nat) (state : ω) :
    stepUntil observer (steps + 1) state e =
      let seen := observer.see state s
      let records := e.step.records ++ seen.records
      match seen.stop with
      | .ok true => ⟨e.step.evolution, seen.state, some (.ok s.population), records⟩
      | .ok false => (Evolution.stepUntil observer steps seen.state e.step.evolution).after records
      | .error f => ⟨e.step.evolution, seen.state, some (.error f), records⟩ := by
  rw [Evolution.stepUntil]
  dsimp only
  rw [h.answer, h.stage]
  rfl

/-- A run ends with a step that fails. -/
lemma stepUntil_of_error {f : Failure} (h : e.step.answer = .error f) (observer : Observer V ω)
    (steps : Nat) (state : ω) :
    stepUntil observer (steps + 1) state e =
      ⟨e.step.evolution, state, some (.error f), e.step.records⟩ := by
  rw [stepUntil]
  dsimp only
  rw [h]

end Leads

/-- The generations are what one step after the other leads to, and they are numbered one after the
other. -/
lemma leads_of_getElem? {steps k : Nat} {e : Evolution σ V} {s : Showing V}
    (h : (generations steps e)[k]? = some s) :
    (afterSteps k e).Leads s ∧ s.generation = e.nextGeneration + k := by
  induction k generalizing steps e with
  | zero =>
    rcases steps with _ | steps
    · cases h
    · rcases e.step_cases with ⟨f, hfails⟩ | ⟨first, hleads, hnumber⟩
      · rw [generations_of_error hfails] at h
        cases h
      · rw [hleads.generations] at h
        cases h
        exact ⟨hleads, hnumber⟩
  | succ k ih =>
    rcases steps with _ | steps
    · cases h
    · rcases e.step_cases with ⟨f, hfails⟩ | ⟨first, hleads, hnumber⟩
      · rw [generations_of_error hfails] at h
        cases h
      · rw [hleads.generations, List.getElem?_cons_succ] at h
        obtain ⟨hlater, hgeneration⟩ := ih h
        rw [hleads.nextGeneration, hnumber] at hgeneration
        exact ⟨hlater, by omega⟩

/-- The stage after some steps with success is the last generation that they have led to. -/
lemma stage_afterSteps {e : Evolution σ V} {before : List (Showing V)} {last : Showing V}
    (h : before ++ [last] = generations (before ++ [last]).length e) :
    (afterSteps (before ++ [last]).length e).stage = .stepping last.population last.generation := by
  have hlast : (generations (before ++ [last]).length e)[before.length]? = some last := by
    rw [← h]
    exact List.getElem?_concat_length
  have hafter : ∀ (k : Nat) (f : Evolution σ V),
      afterSteps (k + 1) f = (afterSteps k f).step.evolution := by
    intro k
    induction k with
    | zero => exact fun _ => rfl
    | succ k ih => exact fun f => ih f.step.evolution
  rw [List.length_append, List.length_singleton, hafter]
  exact (leads_of_getElem? hlast).1.stage

/-- Steps with success may be made in two parts. -/
lemma generations_append {e : Evolution σ V} {shown : List (Showing V)}
    (h : shown = generations shown.length e) (more : Nat) :
    shown ++ generations more (afterSteps shown.length e) =
      generations (shown.length + more) e := by
  induction shown generalizing e with
  | nil =>
    rw [List.nil_append, List.length_nil, Nat.zero_add]
    rfl
  | cons s shown ih =>
    rcases e.step_cases with ⟨f, hfails⟩ | ⟨first, hleads, -⟩
    · rw [generations_of_error hfails] at h
      cases h
    · rw [List.length_cons, hleads.generations] at h
      obtain ⟨rfl, hrest⟩ := List.cons.inj h
      have hmore := ih hrest
      rw [List.length_cons, Nat.add_right_comm, hleads.generations, List.cons_append, ← hmore]
      rfl

/-! ### What a run comes to -/

/-- The ways in which a run can end that has shown some generations. -/
inductive Run.Ending (r : Run σ V ω) (observer : Observer V ω) (steps : Nat) (state : ω)
    (e : Evolution σ V) (shown : List (Showing V)) : Prop where
  /-- The observer says stop with the last generation. -/
  | stopped (before : List (Showing V)) (last : Showing V) (hshown : shown = before ++ [last])
      (hbefore : observer.LetsGoOn state before)
      (hlast : (observer.see (observer.after state before) last).stop = .ok true)
      (hanswer : r.answer = some (.ok last.population))
      (hevolution : r.evolution = afterSteps shown.length e)
  /-- The observer breaks off with the last generation. -/
  | broken (before : List (Showing V)) (last : Showing V) (hshown : shown = before ++ [last])
      (f : Fault) (hbefore : observer.LetsGoOn state before)
      (hlast : (observer.see (observer.after state before) last).stop = .error f)
      (hanswer : r.answer = some (.error f))
      (hevolution : r.evolution = afterSteps shown.length e)
  /-- The step after the last generation fails. -/
  | failed (f : Failure) (hshown : observer.LetsGoOn state shown)
      (hfails : (afterSteps shown.length e).step.answer = .error f)
      (hanswer : r.answer = some (.error f))
      (hevolution : r.evolution = (afterSteps shown.length e).step.evolution)
  /-- All steps have been made. -/
  | unfinished (hshown : observer.LetsGoOn state shown) (hlength : shown.length = steps)
      (hanswer : r.answer = none) (hevolution : r.evolution = afterSteps shown.length e)

/-- A run makes steps and shows the generations that they lead to, each once. -/
structure Run.Follows (r : Run σ V ω) (observer : Observer V ω) (steps : Nat) (state : ω)
    (e : Evolution σ V) (shown : List (Showing V)) : Prop where
  /-- No step is made beyond those that are allowed. -/
  made : shown.length ≤ steps
  /-- The generations that are shown are those of the steps. -/
  trajectory : shown = generations shown.length e
  /-- The observer has been shown these generations and nothing else. -/
  observed : r.state = observer.after state shown
  /-- The run ends as its last step or the observer has it. -/
  ending : r.Ending observer steps state e shown

namespace Run.Follows

variable {observer : Observer V ω} {steps : Nat} {state : ω} {e : Evolution σ V} {r : Run σ V ω}
  {shown : List (Showing V)} {s : Showing V}

/-- Records before a run do not matter. -/
lemma after (h : r.Follows observer steps state e shown) (records : List Record) :
    (r.after records).Follows observer steps state e shown where
  made := h.made
  trajectory := h.trajectory
  observed := h.observed
  ending := by
    cases h.ending with
    | stopped before last hshown hbefore hlast hanswer hevolution =>
      exact .stopped before last hshown hbefore hlast hanswer hevolution
    | broken before last hshown f hbefore hlast hanswer hevolution =>
      exact .broken before last hshown f hbefore hlast hanswer hevolution
    | failed f hshown hfails hanswer hevolution => exact .failed f hshown hfails hanswer hevolution
    | unfinished hshown hlength hanswer hevolution =>
      exact .unfinished hshown hlength hanswer hevolution

/-- A step with success may come before a run if the observer lets it go on. -/
lemma cons (hleads : e.Leads s) (hgoes : (observer.see state s).stop = .ok false)
    (h : r.Follows observer steps (observer.see state s).state e.step.evolution shown) :
    r.Follows observer (steps + 1) state e (s :: shown) where
  made := Nat.succ_le_succ h.made
  trajectory := by
    rw [List.length_cons, hleads.generations, ← h.trajectory]
  observed := h.observed
  ending := by
    cases h.ending with
    | stopped before last hshown hbefore hlast hanswer hevolution =>
      exact .stopped (s :: before) last (congrArg (s :: ·) hshown) ⟨hgoes, hbefore⟩ hlast hanswer
        hevolution
    | broken before last hshown f hbefore hlast hanswer hevolution =>
      exact .broken (s :: before) last (congrArg (s :: ·) hshown) f ⟨hgoes, hbefore⟩ hlast hanswer
        hevolution
    | failed f hshown hfails hanswer hevolution =>
      exact .failed f ⟨hgoes, hshown⟩ hfails hanswer hevolution
    | unfinished hshown hlength hanswer hevolution =>
      exact .unfinished ⟨hgoes, hshown⟩ (congrArg Nat.succ hlength) hanswer hevolution

/-- The generation of one step with success. -/
lemma generations_one (hleads : e.Leads s) : [s] = generations [s].length e := by
  rw [List.length_singleton, hleads.generations]
  rfl

/-- An answer without failure is the present population. -/
lemma stage_of_ok (h : r.Follows observer steps state e shown) {p : Population V}
    (hp : r.answer = some (.ok p)) :
    ∃ before last, shown = before ++ [last] ∧ observer.LetsGoOn state before ∧
      (observer.see (observer.after state before) last).stop = .ok true ∧ p = last.population ∧
      r.evolution.stage = .stepping last.population last.generation := by
  cases h.ending with
  | stopped before last hshown hbefore hlast hanswer hevolution =>
    have hgenerations := h.trajectory
    subst hshown
    have hstage := stage_afterSteps hgenerations
    rw [← hevolution] at hstage
    rw [hanswer] at hp
    cases hp
    exact ⟨before, last, rfl, hbefore, hlast, rfl, hstage⟩
  | broken before last hshown f hbefore hlast hanswer hevolution =>
    rw [hanswer] at hp
    cases hp
  | failed f hshown hfails hanswer hevolution =>
    rw [hanswer] at hp
    cases hp
  | unfinished hshown hlength hanswer hevolution =>
    rw [hanswer] at hp
    cases hp

/-- A run leaves the evolution as after its steps, or after another one that fails. -/
lemma evolution_cases (h : r.Follows observer steps state e shown) :
    r.evolution = afterSteps shown.length e ∨
      r.evolution = (afterSteps shown.length e).step.evolution := by
  cases h.ending with
  | stopped before last hshown hbefore hlast hanswer hevolution => exact Or.inl hevolution
  | broken before last hshown f hbefore hlast hanswer hevolution => exact Or.inl hevolution
  | failed f hshown hfails hanswer hevolution => exact Or.inr hevolution
  | unfinished hshown hlength hanswer hevolution => exact Or.inl hevolution

/-- A run that does not fail leaves the evolution as after its steps. -/
lemma evolution_eq (h : r.Follows observer steps state e shown)
    (hr : ∀ f, r.answer ≠ some (.error f)) : r.evolution = afterSteps shown.length e := by
  cases h.ending with
  | stopped before last hshown hbefore hlast hanswer hevolution => exact hevolution
  | broken before last hshown f hbefore hlast hanswer hevolution => exact absurd hanswer (hr f)
  | failed f hshown hfails hanswer hevolution => exact absurd hanswer (hr f)
  | unfinished hshown hlength hanswer hevolution => exact hevolution

end Run.Follows

/-- Every run makes steps and shows the generations that they lead to. -/
lemma stepUntil_follows (observer : Observer V ω) (steps : Nat) (state : ω) (e : Evolution σ V) :
    ∃ shown, (stepUntil observer steps state e).Follows observer steps state e shown := by
  induction steps generalizing state e with
  | zero => exact ⟨[], Nat.le_refl 0, rfl, rfl, .unfinished True.intro rfl rfl rfl⟩
  | succ steps ih =>
    rcases e.step_cases with ⟨f, hfails⟩ | ⟨s, hleads, -⟩
    · rw [stepUntil_of_error hfails]
      exact ⟨[], Nat.zero_le _, rfl, rfl, .failed f True.intro hfails rfl rfl⟩
    · have hmade : [s].length ≤ steps + 1 := Nat.succ_le_succ (Nat.zero_le steps)
      have hone := Run.Follows.generations_one hleads
      rw [hleads.stepUntil]
      dsimp only
      rcases hstop : (observer.see state s).stop with f | _ | _
      · exact ⟨[s], hmade, hone, rfl, .broken [] s rfl f True.intro hstop rfl rfl⟩
      · obtain ⟨shown, hshown⟩ := ih (observer.see state s).state e.step.evolution
        exact ⟨s :: shown, (hshown.after _).cons hleads hstop⟩
      · exact ⟨[s], hmade, hone, rfl, .stopped [] s rfl True.intro hstop rfl rfl⟩

/-- Every run with its parameters makes steps and shows the generations that they lead to. -/
lemma run_follows (observer : Observer V ω) (steps : Nat) (state : ω) (e : Evolution σ V) :
    ∃ shown, (run observer steps state e).Follows observer steps state e shown := by
  obtain ⟨shown, hshown⟩ := stepUntil_follows observer steps state e
  exact ⟨shown, hshown.after _⟩

/-- A run that has an answer is the same if more steps are allowed. -/
lemma stepUntil_add {observer : Observer V ω} {steps : Nat} {state : ω} {e : Evolution σ V}
    (h : (stepUntil observer steps state e).answer.isSome = true) (more : Nat) :
    stepUntil observer (steps + more) state e = stepUntil observer steps state e := by
  induction steps generalizing state e with
  | zero => cases h
  | succ steps ih =>
    rw [Nat.add_right_comm]
    rcases e.step_cases with ⟨f, hfails⟩ | ⟨s, hleads, -⟩
    · rw [stepUntil_of_error hfails, stepUntil_of_error hfails]
    · rw [hleads.stepUntil] at h
      rw [hleads.stepUntil, hleads.stepUntil]
      dsimp only at h ⊢
      rcases hstop : (observer.see state s).stop with f | _ | _
      · rfl
      · rw [hstop] at h
        dsimp only
        rw [ih h]
      · rfl

/-! ### Runs with a report -/

/-- A reported run that is still going on has not come as far as its last generation. -/
lemma answer_isSome_of_report (report : Report) (e : Evolution σ V) :
    (run report.observer (report.stepsFrom e.generation) () e).answer.isSome = true := by
  obtain ⟨shown, hfollows⟩ := run_follows report.observer (report.stepsFrom e.generation) () e
  cases hfollows.ending with
  | stopped before last hshown hbefore hlast hanswer hevolution =>
    rw [hanswer]
    rfl
  | broken before last hshown f hbefore hlast hanswer hevolution =>
    rw [hanswer]
    rfl
  | failed f hshown hfails hanswer hevolution =>
    rw [hanswer]
    rfl
  | unfinished hshown hlength hanswer hevolution =>
    -- The number of the last generation shown shows that the report has said stop.
    exfalso
    have hsteps : 1 ≤ report.stepsFrom e.generation ∧
        report.maxGenerations + 1 ≤ e.nextGeneration + report.stepsFrom e.generation := by
      rw [nextGeneration]
      rcases e.generation with _ | generation
      · simp only [Report.stepsFrom]
        omega
      · simp only [Report.stepsFrom]
        omega
    have hbound : shown.length - 1 < shown.length := by omega
    obtain ⟨last, hlast⟩ : ∃ last, shown[shown.length - 1]? = some last :=
      ⟨_, List.getElem?_eq_getElem hbound⟩
    have hgenerations : (generations shown.length e)[shown.length - 1]? = some last := by
      rw [← hfollows.trajectory]
      exact hlast
    have hnumber := (leads_of_getElem? hgenerations).2
    have hgoes := hshown.of_mem (List.mem_of_getElem? hlast)
    have hends : report.Ends last := Or.inl (by omega)
    exact Bool.false_ne_true ((Report.stop_iff_ends hgoes).mpr hends)

/-- What becomes of the reported runs of an evolution. -/
structure Concludes (report : Report) (e : Evolution σ V) : Prop where
  /-- A run has an answer after so many steps at the latest. -/
  answers : (run report.observer (report.stepsFrom e.generation) () e).answer.isSome = true
  /-- An answer without failure is the first generation that ends the run. -/
  first : ∀ steps p, (run report.observer steps () e).answer = some (.ok p) →
    ∃ before last,
      (run report.observer steps () e).Follows report.observer steps () e (before ++ [last]) ∧
      report.Ends last ∧ (∀ s ∈ before, ¬ report.Ends s) ∧ p = last.population ∧
      (run report.observer steps () e).evolution.stage = .stepping last.population last.generation

/-- Reported runs are concluded. -/
lemma concludes (report : Report) (e : Evolution σ V) : Concludes report e where
  answers := answer_isSome_of_report report e
  first steps p hp := by
    obtain ⟨shown, hfollows⟩ := run_follows report.observer steps () e
    obtain ⟨before, last, rfl, hbefore, hlast, hpopulation, hstage⟩ := hfollows.stage_of_ok hp
    refine ⟨before, last, hfollows, (Report.stop_iff_ends hlast).mp rfl, ?_, hpopulation, hstage⟩
    intro s hs hends
    have hgoes := hbefore.of_mem hs
    exact Bool.false_ne_true ((Report.stop_iff_ends hgoes).mpr hends)

/-! ### Runs of an evolution -/

/-- What the runs of an evolution have in common. -/
structure Iterates (e : Evolution σ V) : Prop where
  /-- The generations are what one step after the other leads to, and they are numbered one after
  the other. -/
  numbers : ∀ steps k s, (generations steps e)[k]? = some s →
    (afterSteps k e).Leads s ∧ s.generation = e.nextGeneration + k
  /-- A run shows the generations of its steps, until the observer says stop or a step fails. -/
  follows : ∀ {ω : Type} (observer : Observer V ω) (steps : Nat) (state : ω),
    ∃ shown, (run observer steps state e).Follows observer steps state e shown
  /-- An answer without failure is the present population. -/
  returns : ∀ {ω : Type} (observer : Observer V ω) (steps : Nat) (state : ω) (p : Population V),
    (run observer steps state e).answer = some (.ok p) →
      (run observer steps state e).evolution.population = some p
  /-- A run that has an answer is the same if more steps are allowed. -/
  settles : ∀ {ω : Type} (observer : Observer V ω) (steps : Nat) (state : ω),
    (run observer steps state e).answer.isSome = true →
      ∀ more, run observer (steps + more) state e = run observer steps state e
  /-- A run that has stopped and one that comes after it show what a single run shows. -/
  resumes : ∀ {ω υ : Type} (one : Observer V ω) (steps : Nat) (state : ω) (other : Observer V υ)
    (others : Nat) (begin : υ), (∀ f, (run one steps state e).answer ≠ some (.error f)) →
      ∃ shown more, (run one steps state e).Follows one steps state e shown ∧
        (run other others begin (run one steps state e).evolution).Follows other others begin
          (run one steps state e).evolution more ∧
        shown ++ more = generations (shown ++ more).length e
  /-- A run with a report is over in time. -/
  reports : ∀ report : Report, Concludes report e

/-- **Runs are iterated steps.**  In whatever state an evolution is, and whoever observes it: a run
makes one step after the other, shows each generation once, in the order of the numbers, and answers
with the present population at the first generation with which the observer says stop, or with the
failure of the first step that fails.  The observer has no influence on the generations, so a run
that is resumed goes on as a single run would.  A run with a report is over after one step more than
the last generation allowed if the evolution has yet to begin, and otherwise after as many steps as
are left up to this generation, or after one. -/
theorem runs_are_iterated_steps (e : Evolution σ V) : Iterates e where
  numbers _ _ _ h := leads_of_getElem? h
  follows observer steps state := run_follows observer steps state e
  returns observer steps state p hp := by
    obtain ⟨shown, hfollows⟩ := run_follows observer steps state e
    obtain ⟨before, last, -, -, -, rfl, hstage⟩ := hfollows.stage_of_ok hp
    rw [population, hstage]
  settles observer steps state h more := by
    rw [run, run, stepUntil_add h]
  resumes one steps state other others begin hone := by
    obtain ⟨shown, hshown⟩ := run_follows one steps state e
    obtain ⟨more, hmore⟩ := run_follows other others begin (run one steps state e).evolution
    refine ⟨shown, more, hshown, hmore, ?_⟩
    have htrajectory := hmore.trajectory
    rw [hshown.evolution_eq hone] at htrajectory
    rw [List.length_append, ← generations_append hshown.trajectory, ← htrajectory]
  reports report := concludes report e

/-- The report of a run up to the first generation that is bred, with a fitness that nobody has. -/
def briefReport : Report :=
  ⟨1, 2⟩

/-- A small evolution that has yet to begin is over after two steps with such a report, and shows
the generations zero and one. -/
theorem smallEvolution_run_is_over :
    briefReport.stepsFrom smallEvolution.generation = 2 ∧
      ∃ (before : List (Showing Bool)) (last : Showing Bool), briefReport.Ends last ∧
        (∀ s ∈ before, ¬ briefReport.Ends s) ∧ last.generation = 1 ∧
        (run briefReport.observer 2 () smallEvolution).answer = some (.ok last.population) := by
  refine ⟨rfl, ?_⟩
  have hiterates := runs_are_iterated_steps smallEvolution
  have hgeneration :
      (run briefReport.observer 2 () smallEvolution).evolution.generation = some 1 := by
    decide +kernel
  have hok : (run briefReport.observer 2 () smallEvolution).answer.any Except.isOk = true := by
    decide +kernel
  rcases hanswer : (run briefReport.observer 2 () smallEvolution).answer with _ | f | p
  · rw [hanswer] at hok
    cases hok
  · rw [hanswer] at hok
    cases hok
  · obtain ⟨before, last, -, hends, hbefore, rfl, hstage⟩ :=
      (hiterates.reports briefReport).first 2 p hanswer
    rw [generation, hstage] at hgeneration
    exact ⟨before, last, hends, hbefore, Option.some.inj hgeneration, rfl⟩

end Evolution

end TreeEvolution
