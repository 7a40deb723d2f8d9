import TreeEvolution.Proofs.Variation

/-!
# Breeding that is not broken off

Breeding consists of many steps that can fail.  Subtrees have to be complete, operations take a
certain number of individuals, and limits look for the depth of a program.  Nothing of this happens
when the programs are listings of trees.  So breeding fails only where the sampler of new subtrees
does, or where the depth of a program is asked for that has a symbol with more arguments than a list
can hold (`Variation.Unimpeded.breed_failsOnly`).
-/

namespace TreeEvolution

open Places

variable {V σ : Type} {Q : Failure → Prop}

namespace Variation

variable [WordSource σ]

/-! ### Operations that are not impeded -/

/-- What it takes that individuals with a property can be bred from, but for some failures. -/
structure Unimpeded (σ : Type) [WordSource σ] (sampler : TreeSampler V)
    (bred : Individual V → Prop) (Q : Failure → Prop) : Prop extends Inherits σ sampler bred where
  /-- The programs of the individuals are listings of trees. -/
  fills : ∀ i, bred i → Fills i.code.symbols 1
  /-- Lists can hold the places below their symbols, or else memory may run out. -/
  storable : Q (.fault .beyondMemory) ∨ ∀ i, bred i → Program.Storable i.code.symbols
  /-- New subtrees can be drawn, but for the failures. -/
  sample : Draw.FailsOnly (sampler.sample : Draw σ (Program V)) Q

namespace Unimpeded

variable {m : Mutation V} {bred : Individual V → Prop}

/-- Limits can be applied to the individuals. -/
lemma enforceAll_failsOnly (h : Unimpeded σ m.sampler bred Q) (limits : List Limit)
    {parents children : List (Individual V)} (hparents : ∀ i ∈ parents, bred i)
    (hchildren : ∀ i ∈ children, bred i) :
    Draw.FailsOnly (Draw.settled (Limit.enforceAll limits parents children) :
      Draw σ (List (Individual V))) Q := by
  refine Draw.FailsOnly.settled_of fun f hf => ?_
  obtain ⟨limit, i, hi, hadmits⟩ := Limit.exists_of_enforceAll_eq_error hf
  have hbred : bred i := hi.elim (hparents i) (hchildren i)
  obtain ⟨rfl, hwide⟩ := Limit.eq_beyondMemory_of_admits (h.fills i hbred) hadmits
  exact h.storable.resolve_right fun hstorable => hwide (hstorable i hbred)

/-- Two of the individuals can be crossed. -/
lemma crossover_failsOnly (h : Unimpeded σ m.sampler bred Q) (c : Crossover) {a b : Individual V}
    (ha : bred a) (hb : bred b) :
    Draw.FailsOnly (c.vary [a, b] : Draw σ (List (Individual V))) Q := by
  have hparents : ∀ i ∈ [a, b], bred i :=
    List.forall_mem_cons.mpr ⟨ha, List.forall_mem_singleton.mpr hb⟩
  refine Crossover.vary_failsOnly c (h.fills a ha) (h.fills b hb) ?_
  intro here there left right hexchange
  obtain ⟨fromA, fromB, hfromA, hfromB, hleft, hright⟩ := Program.exchange_eq_ok_iff.mp hexchange
  refine h.enforceAll_failsOnly _ hparents (List.forall_mem_cons.mpr ⟨?_,
    List.forall_mem_singleton.mpr ?_⟩)
  · exact h.crossed a b ha hb here there fromB left hfromB hleft
  · exact h.crossed b a hb ha there here fromA right hfromA hright

/-- One of the individuals can be mutated. -/
lemma mutation_failsOnly (h : Unimpeded σ m.sampler bred Q) {a : Individual V} (ha : bred a) :
    Draw.FailsOnly (m.vary [a] : Draw σ (List (Individual V))) Q := by
  have hparents : ∀ i ∈ [a], bred i := List.forall_mem_singleton.mpr ha
  have hpos : 0 < a.size := (h.fills a ha).length_pos
  rw [Mutation.vary, dif_pos hpos]
  refine (Random.below_failsOnly _ _ Q).bind fun position => ?_
  refine h.sample.bind_of_yields (h.mutated a ha) fun tree htree => ?_
  have hchild := Program.exists_replaceSubtree_eq_ok (h.fills a ha) position.isLt tree
  refine Draw.FailsOnly.bind_settled hchild fun child hchild => ?_
  exact h.enforceAll_failsOnly _ hparents
    (List.forall_mem_singleton.mpr (htree position child hchild))

/-- Neighbours among the individuals can be crossed. -/
lemma crossPairs_failsOnly (h : Unimpeded σ m.sampler bred Q) (c : Crossover)
    (probability : Float) {individuals : List (Individual V)}
    (hindividuals : ∀ i ∈ individuals, bred i) :
    Draw.FailsOnly (crossPairs c probability individuals : Draw σ (List (Individual V))) Q := by
  induction individuals using crossPairs.induct with
  | case1 a b rest ih =>
    obtain ⟨ha, hindividuals⟩ := List.forall_mem_cons.mp hindividuals
    obtain ⟨hb, hrest⟩ := List.forall_mem_cons.mp hindividuals
    have hothers : ∀ pair, Draw.FailsOnly
        (do let others ← crossPairs c probability rest; pure (pair ++ others) :
          Draw σ (List (Individual V))) Q :=
      fun pair => (ih hrest).bind fun _ => Draw.FailsOnly.pure _
    rw [crossPairs]
    refine (Random.unit_failsOnly Q).bind fun chance => ?_
    split
    · exact (h.crossover_failsOnly c ha hb).bind fun _ => hothers _
    · exact hothers _
  | case2 rest hrest =>
    rw [crossPairs]
    · exact Draw.FailsOnly.pure _
    · exact hrest

/-- The individuals can be mutated. -/
lemma mutateEach_failsOnly (h : Unimpeded σ m.sampler bred Q) (probability : Float)
    {individuals : List (Individual V)} (hindividuals : ∀ i ∈ individuals, bred i) :
    Draw.FailsOnly (mutateEach m probability individuals : Draw σ (List (Individual V))) Q := by
  induction individuals with
  | nil => exact Draw.FailsOnly.pure _
  | cons a rest ih =>
    obtain ⟨ha, hrest⟩ := List.forall_mem_cons.mp hindividuals
    have hothers : ∀ kept, Draw.FailsOnly
        (do let others ← mutateEach m probability rest; pure (kept :: others) :
          Draw σ (List (Individual V))) Q :=
      fun kept => (ih hrest).bind fun _ => Draw.FailsOnly.pure _
    rw [mutateEach]
    refine (Random.unit_failsOnly Q).bind fun chance => ?_
    split
    · exact (h.mutation_failsOnly ha).bind fun _ => hothers _
    · exact hothers _

/-- A population of the individuals can be bred from. -/
lemma breed_failsOnly (h : Unimpeded σ m.sampler bred Q) (c : Crossover)
    (crossoverProbability mutationProbability : Float) {p : Population V}
    (hp : ∀ i ∈ p.members, bred i) :
    Draw.FailsOnly (breed c m crossoverProbability mutationProbability p : Draw σ (Population V))
      Q := by
  refine (h.crossPairs_failsOnly c _ hp).bind_of_yields
    (h.crossPairs_yields c crossoverProbability hp) fun crossed hcrossed => ?_
  exact (h.mutateEach_failsOnly _ hcrossed).bind fun _ => Draw.FailsOnly.pure _

end Unimpeded

end Variation

end TreeEvolution
