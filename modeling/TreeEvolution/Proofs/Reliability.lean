import TreeEvolution.Proofs.Breeding
import TreeEvolution.Proofs.Evolution.Soundness
import TreeEvolution.Proofs.Tournament

/-!
# Operations that do not fail

Sampling, selecting and breeding are full of steps that can fail: choices from lists that may be
empty, coins, the values of random constants, and all that breeding does with subtrees and limits.
Nothing of this happens as long as the programs are supplied by a vocabulary that can be relied on
(`Vocabulary.Reliable`), and there are individuals to choose from.  The one thing that can still go
wrong is a tournament among individuals without a valid fitness.

The lemmas are about `Draw.FailsOnly` with any property of failures, so that they also say what an
operation fails with if one of its parts does.
-/

namespace TreeEvolution

variable {V σ : Type} {inputs : Nat} {v : Vocabulary V} {Q : Failure → Prop}

/-! ### Vocabularies and scorers that can be relied on -/

/-- Nothing goes wrong when trees are made of the symbols of a vocabulary. -/
structure Vocabulary.Reliable (v : Vocabulary V) : Prop where
  /-- Random constants get a value, whatever the words are. -/
  lasting : ∀ name recipe value, .random name recipe value ∈ v.terminals → recipe.Lasting
  /-- The share of the terminals is a probability. -/
  ratio : 0 ≤ v.terminalRatio ∧ v.terminalRatio ≤ 1
  /-- A list can hold the arguments of each function. -/
  arity : ∀ s ∈ v.functions, Extent.fits s.arity = true

/-- The leaves of a vocabulary can be drawn, and the coins with which branches end. -/
structure Vocabulary.Drawable (v : Vocabulary V) : Prop where
  /-- Random constants get a value, whatever the words are. -/
  lasting : ∀ name recipe value, .random name recipe value ∈ v.terminals → recipe.Lasting
  /-- The share of the terminals is a probability. -/
  ratio : 0 ≤ v.terminalRatio ∧ v.terminalRatio ≤ 1

/-- There is a function with more arguments than a list can hold. -/
def Vocabulary.Overflows (v : Vocabulary V) : Prop :=
  ∃ s ∈ v.functions, Extent.fits s.arity = false

/-- Only the arguments of the functions matter to a vocabulary from which one can draw. -/
lemma Vocabulary.Reliable.drawable (h : v.Reliable) : v.Drawable :=
  ⟨h.lasting, h.ratio⟩

/-- No function is too wide for a list. -/
lemma Vocabulary.Reliable.not_overflows (h : v.Reliable) : ¬ v.Overflows := by
  rintro ⟨s, hs, hwide⟩
  rw [h.arity s hs] at hwide
  cases hwide

/-- A scorer has a score, of some kind, for every program that a vocabulary supplies. -/
def Scorer.Answers (scorer : Scorer V) (v : Vocabulary V) (kind : Score → Prop) : Prop :=
  ∀ p : Program V, p.Supplied v → ∃ s, scorer p = .ok s ∧ kind s

/-- The places below each symbol of a program can be kept in a list. -/
lemma Program.Supplied.storable {p : Program V} (h : p.Supplied v) (hv : v.Proper inputs)
    (hreliable : v.Reliable) : Program.Storable p.symbols := by
  intro s hs
  by_cases harity : s.arity = 0
  · rw [harity]
    rfl
  · exact hreliable.arity s ((h.supplies s hs).mem_functions hv harity)

/-! ### Sampling -/

namespace TreeSampler

variable [WordSource σ] {t : TreeSampler V}

/-- A random leaf can always be drawn. -/
lemma leaf_failsOnly (h : t.vocabulary.Drawable) :
    Draw.FailsOnly (t.leaf : Draw σ (Symbol V)) Q := by
  refine (Random.element_failsOnly _ _ Q).bind fun ⟨terminal, hterminal⟩ => ?_
  refine Draw.FailsOnly.bind ?_ fun _ => Draw.FailsOnly.pure _
  cases terminal with
  | random name recipe value =>
    have hlasting : recipe.Lasting := h.lasting name recipe value hterminal
    exact hlasting.follow_failsOnly.bind fun _ => Draw.FailsOnly.pure _
  | _ => exact Draw.FailsOnly.pure none

/-- It can always be settled whether a branch ends. -/
lemma stops_failsOnly (h : t.vocabulary.Drawable) (grows : Bool) (depth : Nat) :
    Draw.FailsOnly (t.stops grows depth : Draw σ Bool) Q := by
  unfold stops
  split
  · exact Random.coin_failsOnly h.ratio Q
  · exact Draw.FailsOnly.pure false

/-- Subtrees can be listed, but for a function that is too wide for a list. -/
lemma expand_failsOnly (h : t.vocabulary.Drawable)
    (hmemory : t.vocabulary.Overflows → Q (.fault .beyondMemory)) (grows : Bool) (height : Nat)
    (pending : List Nat) :
    Draw.FailsOnly (t.expand grows height pending : Draw σ (List (Symbol V))) Q := by
  have hleaf : ∀ {rest : Draw σ (List (Symbol V))}, rest.FailsOnly Q →
      Draw.FailsOnly (do let s ← t.leaf; let rest ← rest; pure (s :: rest)) Q :=
    fun hrest => (leaf_failsOnly h).bind fun _ => hrest.bind fun _ => Draw.FailsOnly.pure _
  induction pending using expand.induct t height with
  | case1 =>
    rw [expand]
    exact Draw.FailsOnly.pure []
  | case2 depth pending hends ih =>
    rw [expand, dif_pos hends]
    exact hleaf ih
  | case3 depth pending hends ih ihbelow =>
    rw [expand, dif_neg hends]
    refine (stops_failsOnly h grows depth).bind fun stops => ?_
    cases stops with
    | true => exact hleaf ih
    | false =>
      refine (Random.element_failsOnly _ _ Q).bind fun s => Draw.FailsOnly.bind ?_ fun _ =>
        (ihbelow s).bind fun _ => Draw.FailsOnly.pure _
      rcases hfits : Extent.fits s.val.arity with _ | _
      · exact Draw.FailsOnly.require (hmemory ⟨s.val, s.property, hfits⟩)
      · exact Draw.FailsOnly.require_of rfl

/-- It can always be settled how the branches of a tree end. -/
lemma grows_failsOnly (t : TreeSampler V) : Draw.FailsOnly (t.grows : Draw σ Bool) Q := by
  have hhalf : (0 : Float) ≤ 0.5 ∧ (0.5 : Float) ≤ 1 := by decide +kernel
  unfold grows
  split
  · exact Draw.FailsOnly.pure false
  · exact Draw.FailsOnly.pure true
  · exact Random.coin_failsOnly hhalf Q

/-- It can always be settled how a tree is listed. -/
lemma plan_failsOnly (t : TreeSampler V) : Draw.FailsOnly (t.plan : Draw σ (Bool × Nat)) Q :=
  t.grows_failsOnly.bind fun _ => (Random.between_failsOnly _ _ Q).bind fun _ =>
    Draw.FailsOnly.pure _

/-- From every source something allowed is settled. -/
lemma exists_plan (t : TreeSampler V) (source : σ) :
    ∃ grows height rest,
      (t.plan : Draw σ (Bool × Nat)).outcome source = (.ok (grows, height), rest) ∧
        t.Allows grows height := by
  obtain ⟨settled, rest, hplan⟩ :=
    (t.plan_failsOnly (σ := σ) (Q := fun _ => False)).exists_outcome_eq_ok source
  exact ⟨settled.1, settled.2, rest, hplan, t.plan_yields source settled rest hplan⟩

/-- A random program can be drawn, but for a function that is too wide for a list. -/
lemma sample_failsOnly_of_drawable (h : t.vocabulary.Drawable)
    (hmemory : t.vocabulary.Overflows → Q (.fault .beyondMemory)) :
    Draw.FailsOnly (t.sample : Draw σ (Program V)) Q :=
  t.grows_failsOnly.bind fun _ => (Random.between_failsOnly _ _ Q).bind fun _ =>
    (expand_failsOnly h hmemory _ _ _).bind fun _ => Draw.FailsOnly.pure _

/-- A random program can always be drawn. -/
lemma sample_failsOnly (h : t.vocabulary.Reliable) :
    Draw.FailsOnly (t.sample : Draw σ (Program V)) Q :=
  sample_failsOnly_of_drawable h.drawable fun hwide => absurd hwide h.not_overflows

end TreeSampler

namespace Population

variable {p : Population V}

/-- A population of random programs can be drawn if a list can hold it. -/
lemma sample_failsOnly [WordSource σ] {t : TreeSampler V} (h : t.vocabulary.Reliable) {size : Nat}
    (hsize : Extent.fits size = true) :
    Draw.FailsOnly (Population.sample size t : Draw σ (Population V)) Q := by
  have hone : Draw.FailsOnly
      (do let code ← t.sample; pure { code := code } : Draw σ (Individual V)) Q :=
    (TreeSampler.sample_failsOnly h).bind fun _ => Draw.FailsOnly.pure _
  exact (Draw.FailsOnly.require_of hsize).bind fun _ =>
    (hone.times size).bind fun _ => Draw.FailsOnly.pure _

/-- A population is not kept only if one of its programs is longer than a list can be. -/
lemma exists_of_kept_eq_error {source rest : σ} {f : Failure}
    (h : (p.kept : Draw σ (Population V)).outcome source = (.error f, rest)) :
    f = .fault .beyondMemory ∧ ∃ i ∈ p.members, Extent.fits i.size = false := by
  have hmemory : Draw.FailsOnly (p.kept : Draw σ (Population V)) (· = .fault .beyondMemory) := by
    have hrequire : Draw.FailsOnly (Draw.require (p.members.all fun i => Extent.fits i.size)
        .beyondMemory : Draw σ Unit) (· = .fault .beyondMemory) := Draw.FailsOnly.require rfl
    exact hrequire.bind fun _ => Draw.FailsOnly.pure p
  refine ⟨hmemory source f rest h, ?_⟩
  by_contra hnone
  have hall : (p.members.all fun i => Extent.fits i.size) = true := by
    rw [List.all_eq_true]
    intro i hi
    by_contra hlong
    exact hnone ⟨i, hi, Bool.eq_false_iff.mpr hlong⟩
  rw [kept, hall] at h
  cases h

/-- The only failure to find the best of some individuals is that none has a valid fitness. -/
lemma eq_noValidIndividual_of_best (hp : p.members ≠ []) {e : Error} (h : p.best = .error e) :
    e = .noValidIndividual := by
  unfold best at h
  rw [if_neg (by rwa [List.isEmpty_iff])] at h
  split at h
  · cases h
  · exact (Except.error.inj h).symm

end Population

/-! ### Selecting -/

namespace Selection

variable [WordSource σ] {p : Population V}

/-- A list can hold the groups of a tournament. -/
def Fits : Selection → Prop
  | uniform => True
  | tournament size => Extent.fits (max size 1) = true

/-- Individuals can be picked from a population in which there are some. -/
lemma picks_failsOnly_of_ne_nil (hp : p.members ≠ []) {count : Nat}
    (hcount : Extent.fits count = true) :
    Draw.FailsOnly (picks p count : Draw σ (Population V)) Q := by
  rw [picks_eq hp]
  have hpick : Draw.FailsOnly
      (do let i ← Random.element p.members hp; pure i.val : Draw σ (Individual V)) Q :=
    (Random.element_failsOnly _ _ Q).bind fun _ => Draw.FailsOnly.pure _
  exact (Draw.FailsOnly.require_of hcount).bind fun _ =>
    (hpick.times count).bind fun _ => Draw.FailsOnly.pure _

/-- A tournament fails only for lack of a valid fitness, and not if everyone has one. -/
lemma winner_failsOnly (hp : p.members ≠ []) {size : Nat}
    (hsize : Extent.fits (max size 1) = true)
    (hQ : Q (.error .noValidIndividual) ∨ ∀ i ∈ p.members, i.valid = true) :
    Draw.FailsOnly (winner p size : Draw σ (Individual V)) Q := by
  refine (picks_failsOnly_of_ne_nil hp hsize).bind_of_yields (picks_yields p (max size 1))
    fun group hgroup => ?_
  have hmembers : group.members ≠ [] := by
    rw [← List.length_pos_iff, show group.members.length = max size 1 from hgroup.1]
    exact Nat.lt_of_lt_of_le Nat.one_pos (Nat.le_max_right size 1)
  rcases hbest : group.best with e | i
  · -- Nobody in the group has a valid fitness, though they are all of the population.
    have he : e = .noValidIndividual := Population.eq_noValidIndividual_of_best hmembers hbest
    subst he
    refine Draw.FailsOnly.error (hQ.resolve_right fun hvalid => ?_)
    obtain ⟨i, hi⟩ := List.exists_mem_of_ne_nil _ hmembers
    have hnone := (Population.best_eq_noValidIndividual_iff.mp hbest).2 i hi
    rw [hvalid i (hgroup.2 i hi)] at hnone
    cases hnone
  · exact Draw.FailsOnly.pure i

/-- A selection fails only for lack of a valid fitness, and not if everyone has one. -/
lemma select_failsOnly {s : Selection} (hs : s.Fits) (hp : p.members ≠ []) {count : Nat}
    (hcount : Extent.fits count = true)
    (hQ : Q (.error .noValidIndividual) ∨ ∀ i ∈ p.members, i.valid = true) :
    Draw.FailsOnly (s.select p count : Draw σ (Population V)) Q := by
  cases s with
  | uniform => exact picks_failsOnly_of_ne_nil hp hcount
  | tournament size =>
    exact ((winner_failsOnly hp hs hQ).times count).bind fun _ => Draw.FailsOnly.pure _

end Selection

/-! ### Breeding -/

namespace Variation

variable [WordSource σ]

/-- Nothing impedes the breeding of individuals with supplied programs. -/
lemma unimpeded_of_reliable (hv : v.Proper inputs) (hreliable : v.Reliable) {m : Mutation V}
    (hm : m.sampler.vocabulary = v)
    (hinherits : Inherits σ m.sampler fun i => i.code.Supplied v) :
    Unimpeded σ m.sampler (fun i => i.code.Supplied v) Q where
  toInherits := hinherits
  fills i hi := hi.fills
  storable := Or.inr fun i hi => hi.storable hv hreliable
  sample := by
    subst hm
    exact TreeSampler.sample_failsOnly hreliable

end Variation

end TreeEvolution
