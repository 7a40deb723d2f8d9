import TreeEvolution.Proofs.Evolution.History
import TreeEvolution.Proofs.Program.Meaning
import TreeEvolution.Proofs.Program.Surgery
import TreeEvolution.Proofs.TreeSampler

/-!
# Evolved programs are sound

The programs of an evolution are listings of one tree each, out of symbols that the vocabulary of
its samplers supplies (`Program.Supplied`): this holds of random programs, and cutting and putting
in subtrees preserves it.  The evaluation of such a program on enough inputs can only fail at a
sensor, since every other leaf has a value and every function is applied to as many arguments as it
takes (`Program.Supplied.exists_sensor`).

None of this has to do with scores.  So the scorer of the evolution may even have a memory of its
own, and score the same program differently from one time to the next; `Verdict` is what such a
scorer may have changed by the next call.
-/

namespace TreeEvolution

open Places

namespace Program.Supplied

variable {V : Type} {v : Vocabulary V} {p : Program V}

/-! ### Programs that are supplied -/

/-- A subtree of a supplied program is supplied. -/
lemma subtree (h : p.Supplied v) {sub : Program V} {position : Nat}
    (hsub : p.subtree position = .ok sub) : sub.Supplied v where
  fills := (subtree_eq_ok hsub).1
  supplies s hs := h.supplies s (mem_of_subtree_eq_ok hsub hs)

/-- A supplied program with another one in the place of a subtree is supplied. -/
lemma replaceSubtree (h : p.Supplied v) {replacement child : Program V} {position : Nat}
    (hreplacement : replacement.Supplied v)
    (hchild : p.replaceSubtree position replacement = .ok child) : child.Supplied v where
  fills := fills_of_replaceSubtree_eq_ok hchild h.fills hreplacement.fills
  supplies s hs := by
    rcases mem_of_replaceSubtree_eq_ok hchild hs with hs | hs
    · exact h.supplies s hs
    · exact hreplacement.supplies s hs

/-- A supplied program fails on enough inputs only with the fault of a sensor, if the functions of
the vocabulary answer. -/
lemma exists_sensor {inputs : Nat} (h : p.Supplied v) (hv : v.Proper inputs)
    (hanswers : ∀ s ∈ v.functions, s.Answers) {values : List V} (hvalues : inputs ≤ values.length)
    {f : Fault} (hf : p.evaluate values = .error f) :
    ∃ name, .sensor name (.error f) ∈ v.terminals := by
  obtain ⟨t, ht, hlisting⟩ := Tree.fills_one_iff.mp h.fills
  have hp : p = ⟨t.listing⟩ := by rw [hlisting]
  rw [hp, evaluate_listing ht, Tree.value_eq_error_iff] at hf
  obtain ⟨before, u, after, hsplit, -, arguments, harguments, happly⟩ := hf
  have hu : u ∈ t.postorder := by
    rw [hsplit]
    exact List.mem_append_right before List.mem_cons_self
  obtain ⟨hsound, hmem⟩ := ht.of_mem_postorder hu
  rw [hlisting] at hmem
  have hsupplies := h.supplies u.symbol hmem
  obtain ⟨s, children⟩ := u
  cases hsound with
  | node harity heach =>
    cases children with
    | nil => exact hsupplies.exists_sensor hv harity hvalues happly
    | cons c children =>
      have hinner : s.arity ≠ 0 := by
        rw [harity]
        exact Nat.succ_ne_zero children.length
      have hlength : arguments.length = s.arity := by
        rw [harity]
        exact harguments.length_eq.symm
      obtain ⟨value, hvalue⟩ :=
        hanswers s (hsupplies.mem_functions hv hinner) arguments hlength
      rw [show s.apply arguments = _ from happly] at hvalue
      cases hvalue

end Program.Supplied

namespace Evolution

variable {σ V : Type}

/-! ### Evolutions over a vocabulary -/

/-- An evolution that has not begun and whose samplers take their symbols from a vocabulary. -/
structure Fresh (e : Evolution σ V) (v : Vocabulary V) : Prop where
  /-- There is no population yet. -/
  stage : e.stage = .initial
  /-- Initial programs are made of the vocabulary. -/
  sampler : e.sampler.vocabulary = v
  /-- Mutation makes its trees of the vocabulary. -/
  shoots : e.mutation.sampler.vocabulary = v

namespace Fresh

variable {e : Evolution σ V} {v : Vocabulary V}

/-- An evolution that is set up by settings and a vocabulary has not begun, and takes its symbols
from the vocabulary. -/
lemma of {sourceOf : UInt64 → σ} {otherSeed : UInt64} {settings : Settings} {scorer : Scorer V}
    {records : List Record}
    (h : Evolution.of sourceOf otherSeed settings v scorer = .ok (e, records)) : e.Fresh v := by
  obtain ⟨-, sampler, shoots, hsampler, hshoots, rfl⟩ := of_eq_ok h
  exact ⟨rfl, (TreeSampler.of_eq_ok hsampler).2.1, (TreeSampler.of_eq_ok hshoots).2.1⟩

end Fresh

/-! ### Scorers with a memory -/

/-- What a scorer with a memory of its own may have changed by the next call: how it scores, and the
scores it has given to the individuals, by their position. -/
structure Verdict (V : Type) where
  /-- The rule from now on. -/
  scorer : Scorer V
  /-- The scores that were given. -/
  scores : Nat → Individual V → Score

/-- The evolution with other scores. -/
def judged (e : Evolution σ V) (verdict : Verdict V) : Evolution σ V :=
  { e with
    scorer := verdict.scorer
    stage := match e.stage with
      | .initial => .initial
      | .stepping p generation =>
        .stepping ⟨p.members.mapIdx fun k i => { i with score := verdict.scores k i }⟩ generation }

/-- The evolution after some calls, each of them followed by a verdict. -/
def afterJudged [Printed V] [WordSource σ] (history : List (Call V × Verdict V))
    (e : Evolution σ V) : Evolution σ V :=
  history.foldl (fun e (call, verdict) => (call.perform e).judged verdict) e

/-! ### Everyone is sound -/

/-- The program of an individual is supplied by a vocabulary, and is not longer than a list can
be. -/
def Sound (v : Vocabulary V) (i : Individual V) : Prop :=
  i.code.Supplied v ∧ Extent.fits i.size = true

/-- Scoring does not change programs. -/
lemma sound_of_judged {v : Vocabulary V} {scorer : Scorer V} {i j : Individual V}
    (hi : i.code.Supplied v) (hfits : Extent.fits i.size = true)
    (hjudged : Scoring.Judged scorer i j) : Sound v j := by
  rw [Sound, Individual.size, hjudged.code_eq]
  exact ⟨hi, hfits⟩

/-- A verdict does not change programs. -/
lemma everyone_judged {e : Evolution σ V} {v : Vocabulary V} (h : e.Everyone (Sound v))
    (verdict : Verdict V) : (e.judged verdict).Everyone (Sound v) := by
  intro p hp j hj
  rcases hstage : e.stage with _ | ⟨q, generation⟩
  · rw [population, judged, hstage] at hp
    cases hp
  · rw [population, judged, hstage] at hp
    cases hp
    obtain ⟨k, hk, rfl⟩ := List.mem_mapIdx.mp hj
    have hq : e.population = some q := by rw [population, hstage]
    exact h q hq q.members[k] (List.getElem_mem hk)

variable [WordSource σ]

/-- Sampling and breeding make supplied programs. -/
lemma lineage_sound {e : Evolution σ V} {v : Vocabulary V} {inputs : Nat} (hv : v.Proper inputs)
    (hsampler : e.sampler.vocabulary = v) (hshoots : e.mutation.sampler.vocabulary = v) :
    e.Lineage (fun i => i.code.Supplied v) (Sound v) where
  sampled := by
    subst hsampler
    exact TreeSampler.sample_yields hv
  inherits :=
    { crossed := fun a b ha hb here there sub child hsub hchild =>
        ha.replaceSubtree (hb.subtree hsub) hchild
      mutated := fun a ha => by
        subst hshoots
        exact (TreeSampler.sample_yields hv).mono fun tree htree here child hchild =>
          ha.replaceSubtree htree hchild }
  bred_of_living i hi := hi.1
  living_of_judged i j hi hfits hjudged := sound_of_judged hi hfits hjudged

/-- Everyone is sound after calls and verdicts. -/
lemma everyone_sound [Printed V] {e : Evolution σ V} {v : Vocabulary V}
    (h : e.Lineage (fun i => i.code.Supplied v) (Sound v)) (heveryone : e.Everyone (Sound v))
    (history : List (Call V × Verdict V)) : (e.afterJudged history).Everyone (Sound v) := by
  induction history generalizing e with
  | nil => exact heveryone
  | cons entry history ih =>
    obtain ⟨call, verdict⟩ := entry
    obtain ⟨hcall, hliving⟩ := Lineage.closed.perform ⟨h, heveryone⟩ call
    refine ih ?_ (everyone_judged hliving verdict)
    exact ⟨hcall.sampled, hcall.inherits, hcall.bred_of_living,
      fun i j hi hfits hjudged => sound_of_judged hi hfits hjudged⟩

/-- **Evolved programs are sound.**  Take a vocabulary of inputs and any additions whose functions
answer, and any evolution over it that has not begun.  After any calls, also with a scorer that has
a memory of its own, every program of the population is well formed and not empty; its inner symbols
are functions of the vocabulary and its leaves come from terminals; and on enough inputs it has a
value if the sensors of the vocabulary have readings, while it can fail at nothing but a sensor. -/
theorem everyone_is_sound [Printed V] {inputs : Nat} {names : List String} {bare : Vocabulary V}
    (hbare : Vocabulary.ofInputs inputs names = .ok bare)
    (additions : List (Vocabulary.Addition V))
    (hanswers : ∀ s ∈ (bare.after additions).functions, s.Answers) {e : Evolution σ V}
    (hfresh : e.Fresh (bare.after additions)) (history : List (Call V × Verdict V))
    {p : Population V} (hp : (e.afterJudged history).population = some p) {i : Individual V}
    (hi : i ∈ p.members) :
    i.code.symbols ≠ [] ∧ i.code.isWellFormed = .ok true ∧
      (∀ s ∈ i.code.symbols, if s.arity = 0 then
        ∃ terminal ∈ (bare.after additions).terminals, s.Realises terminal
        else s ∈ (bare.after additions).functions) ∧
      ∀ values : List V, inputs ≤ values.length →
        ((∀ name reading, .sensor name reading ∈ (bare.after additions).terminals →
          ∃ value, reading = .ok value) → ∃ value, i.code.evaluate values = .ok value) ∧
        ∀ f, i.code.evaluate values = .error f →
          ∃ name, .sensor name (.error f) ∈ (bare.after additions).terminals := by
  have hv : (bare.after additions).Proper inputs :=
    (Vocabulary.proper_of_ofInputs hbare).after additions
  have hlineage := lineage_sound hv hfresh.sampler hfresh.shoots
  obtain ⟨hsupplied, hfits⟩ :=
    everyone_sound hlineage (everyone_of_initial hfresh.stage) history p hp i hi
  have hpos : 0 < i.code.symbols.length := hsupplied.fills.length_pos
  have hsize : i.code.size ≤ UInt64.size := by
    have hlt : i.code.size < Extent.bound := of_decide_eq_true hfits
    exact Nat.le_of_lt (Nat.lt_trans hlt (by decide))
  refine ⟨List.length_pos_iff.mp hpos, Program.isWellFormed_of_fills hsupplied.fills hsize,
    fun s hs => ?_, fun values hvalues => ⟨fun hsensors => ?_, fun f hf =>
      hsupplied.exists_sensor hv hanswers hvalues hf⟩⟩
  · have hsupplies := hsupplied.supplies s hs
    split
    · exact hsupplies.exists_terminal hv ‹_›
    · exact hsupplies.mem_functions hv ‹_›
  · rcases hevaluate : i.code.evaluate values with f | value
    · obtain ⟨name, hmem⟩ := hsupplied.exists_sensor hv hanswers hvalues hevaluate
      obtain ⟨value, hvalue⟩ := hsensors name (.error f) hmem
      cases hvalue
    · exact ⟨value, rfl⟩

/-- The additions that lead from one input to the vocabulary of the small evolution; the second of
them is refused. -/
def smallAdditions : List (Vocabulary.Addition Bool) :=
  [.add (.random "coin" (.ask32 fun word => .done (word == 0)) none), .add (.input "y" 1),
    .addAll [Boolean.negation, Boolean.conjunction]]

/-- A scorer that has come to like every program, after it found only the first individual of a
population valid. -/
def onlyFirstValid : Verdict Bool :=
  ⟨Scoring.fixed ⟨1, true⟩, fun k _ => ⟨0, k == 0⟩⟩

/-- A limit is added, and individuals are sampled in a run. -/
def limitAndRun : List (Call Bool × Verdict Bool) :=
  [(.addLimit (.depth 3), onlyFirstValid), (.run (watcher 0) 1 [], onlyFirstValid)]

/-- Both individuals of the small evolution are sound, and have a value on one input. -/
theorem smallEvolution_is_sound :
    ∃ p, (smallEvolution.afterJudged limitAndRun).population = some p ∧ p.size = 2 ∧
      ∀ i ∈ p.members, i.code.isWellFormed = .ok true ∧
        ∀ x : Bool, ∃ value, i.code.evaluate [x] = .ok value := by
  have hbare : Vocabulary.ofInputs 1 ["x"] = .ok (⟨1, [.input "x" 0], []⟩ : Vocabulary Bool) := rfl
  have hanswers : ∀ s ∈ [Boolean.negation, Boolean.conjunction], s.Answers := by
    refine List.forall_mem_cons.mpr ⟨?_, List.forall_mem_singleton.mpr ?_⟩
    · intro arguments hlength
      obtain ⟨a, rfl⟩ := List.length_eq_one_iff.mp hlength
      exact ⟨!a, rfl⟩
    · intro arguments hlength
      obtain ⟨a, b, rfl⟩ := List.length_eq_two.mp hlength
      exact ⟨a && b, rfl⟩
  have hsensors : ∀ name reading, Symbol.sensor name reading ∈ smallVocabulary.terminals →
      ∃ value, reading = .ok value := by
    intro name reading hmem
    simp [smallVocabulary] at hmem
  rcases hp : (smallEvolution.afterJudged limitAndRun).population with _ | p
  · exact absurd (congrArg Option.isSome hp) (by decide +kernel)
  · have hsize :
        (smallEvolution.afterJudged limitAndRun).population.map Population.size = some 2 := by
      decide +kernel
    rw [hp] at hsize
    refine ⟨p, rfl, Option.some.inj hsize, fun i hi => ?_⟩
    obtain ⟨-, hwellFormed, -, hvalue⟩ :=
      everyone_is_sound hbare smallAdditions hanswers ⟨rfl, rfl, rfl⟩ limitAndRun hp hi
    exact ⟨hwellFormed, fun x => (hvalue [x] (Nat.le_refl 1)).1 hsensors⟩

end Evolution

end TreeEvolution
