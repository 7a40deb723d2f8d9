import Mathlib.Data.List.Basic
import TreeEvolution.Proofs.Choices
import TreeEvolution.Proofs.Limits
import TreeEvolution.Proofs.Program.Surgery
import TreeEvolution.Variation

/-!
# What breeding preserves

Everyone in a bred population is a selected individual or a child that variation has made.  So a
property of individuals is preserved by breeding if the children that crossover and mutation make
of individuals with the property have it again (`Variation.Inherits`).  Limits do not matter here,
since they only choose between a child and an individual that was there before
(`Limit.mem_of_enforceAll`).

What a single operation comes to is said by `Crossover.vary_yields` and `Mutation.vary_yields`, and
the steps of the operations are not looked at any more after that.
-/

namespace TreeEvolution

namespace Program

variable {V σ : Type} [WordSource σ]

/-- A random subtree is the one at the position that comes with it. -/
lemma randomSubtree_yields (p : Program V) :
    Draw.Yields (p.randomSubtree : Draw σ (Nat × Program V)) fun (position, sub) =>
      p.subtree position = .ok sub := by
  unfold randomSubtree
  split
  · refine Draw.Yields.bind_any fun position => ?_
    exact Draw.Yields.bind_settled fun sub hsub => Draw.Yields.pure hsub
  · exact Draw.Yields.fault _

/-- A random subtree can always be cut out of the listing of a tree. -/
lemma randomSubtree_failsOnly {p : Program V} (h : Places.Fills p.symbols 1)
    (Q : Failure → Prop) : Draw.FailsOnly (p.randomSubtree : Draw σ (Nat × Program V)) Q := by
  have hpos : 0 < p.size := h.length_pos
  unfold randomSubtree
  rw [dif_pos hpos]
  refine (Random.below_failsOnly _ _ Q).bind fun position => ?_
  exact (Draw.FailsOnly.settled (exists_subtree_eq_ok h position.isLt)).bind fun _ =>
    Draw.FailsOnly.pure _

end Program

/-! ### What the operations come to -/

section Operations

variable {V σ : Type} [WordSource σ]

/-- Crossover leaves parents that are leaves as they are.  From others it makes children by an
exchange of subtrees, which are held against the limits. -/
lemma Crossover.vary_yields (c : Crossover) (a b : Individual V) :
    Draw.Yields (c.vary [a, b] : Draw σ (List (Individual V))) fun children =>
      (a.size < 2 ∨ b.size < 2) ∧ children = [a, b] ∨
      ¬ (a.size < 2 ∨ b.size < 2) ∧ ∃ here there left right,
        a.code.exchange b.code here there = .ok (left, right) ∧
          Limit.enforceAll c.limits [a, b] [{ code := left }, { code := right }] =
            .ok children := by
  rw [vary]
  split
  · rename_i hsmall
    exact Draw.Yields.pure (Or.inl ⟨by simpa using hsmall, rfl⟩)
  · rename_i hlarge
    refine a.code.randomSubtree_yields.bind fun (here, fromA) hfromA => ?_
    refine b.code.randomSubtree_yields.bind fun (there, fromB) hfromB => ?_
    refine Draw.Yields.bind_settled fun left hleft => ?_
    refine Draw.Yields.bind_settled fun right hright => ?_
    refine Draw.Yields.settled fun children hchildren => Or.inr ⟨by simpa using hlarge, ?_⟩
    exact ⟨here, there, left, right,
      Program.exchange_eq_ok_iff.mpr ⟨fromA, fromB, hfromA, hfromB, hleft, hright⟩, hchildren⟩

/-- Crossover of listings of trees fails only where the children cannot be held against the
limits. -/
lemma Crossover.vary_failsOnly (c : Crossover) {a b : Individual V}
    (ha : Places.Fills a.code.symbols 1) (hb : Places.Fills b.code.symbols 1)
    {Q : Failure → Prop}
    (h : ∀ here there left right, a.code.exchange b.code here there = .ok (left, right) →
      Draw.FailsOnly (Draw.settled
        (Limit.enforceAll c.limits [a, b] [{ code := left }, { code := right }]) :
          Draw σ (List (Individual V))) Q) :
    Draw.FailsOnly (c.vary [a, b] : Draw σ (List (Individual V))) Q := by
  rw [vary]
  split
  · exact Draw.FailsOnly.pure _
  · refine (Program.randomSubtree_failsOnly ha Q).bind_of_yields a.code.randomSubtree_yields ?_
    rintro ⟨here, fromA⟩ hfromA
    refine (Program.randomSubtree_failsOnly hb Q).bind_of_yields b.code.randomSubtree_yields ?_
    rintro ⟨there, fromB⟩ hfromB
    refine Draw.FailsOnly.bind_settled (Program.exists_replaceSubtree_of_subtree hfromA fromB)
      fun left hleft => ?_
    refine Draw.FailsOnly.bind_settled (Program.exists_replaceSubtree_of_subtree hfromB fromA)
      fun right hright => ?_
    exact h here there left right
      (Program.exchange_eq_ok_iff.mpr ⟨fromA, fromB, hfromA, hfromB, hleft, hright⟩)

/-- Mutation leaves a program without symbols as it is.  From others it makes a child with a tree of
its sampler in the place of a subtree, which is held against the limits. -/
lemma Mutation.vary_yields (m : Mutation V) (a : Individual V) :
    Draw.Yields (m.vary [a] : Draw σ (List (Individual V))) fun children =>
      children = [a] ∨ ∃ position tree child,
        (m.sampler.sample : Draw σ (Program V)).CanBe tree ∧
          a.code.replaceSubtree position tree = .ok child ∧
            Limit.enforceAll m.limits [a] [{ code := child }] = .ok children := by
  rw [vary]
  split
  · refine Draw.Yields.bind_any fun position => ?_
    refine (Draw.Yields.canBe m.sampler.sample).bind fun tree htree => ?_
    refine Draw.Yields.bind_settled fun child hchild => ?_
    refine Draw.Yields.settled fun children hchildren => Or.inr ?_
    exact ⟨position, tree, child, htree, hchild, hchildren⟩
  · exact Draw.Yields.pure (Or.inl rfl)

end Operations

namespace Variation

variable {V σ : Type} [WordSource σ]

/-! ### Bred individuals -/

/-- The children of individuals with a property have it, where mutation takes its trees from a
sampler. -/
structure Inherits (σ : Type) [WordSource σ] (sampler : TreeSampler V)
    (bred : Individual V → Prop) : Prop where
  /-- A child with a subtree of another individual has the property. -/
  crossed : ∀ a b, bred a → bred b → ∀ here there (sub child : Program V),
    b.code.subtree there = .ok sub → a.code.replaceSubtree here sub = .ok child →
      bred { code := child }
  /-- A child with a random tree has the property. -/
  mutated : ∀ a, bred a → Draw.Yields (sampler.sample : Draw σ (Program V)) fun tree =>
    ∀ here (child : Program V), a.code.replaceSubtree here tree = .ok child →
      bred { code := child }

namespace Inherits

variable {sampler : TreeSampler V} {bred : Individual V → Prop}

/-- Crossover preserves the property. -/
lemma crossover_yields (h : Inherits σ sampler bred) (c : Crossover) {a b : Individual V}
    (ha : bred a) (hb : bred b) :
    Draw.Yields (c.vary [a, b] : Draw σ (List (Individual V)))
      fun children => ∀ i ∈ children, bred i := by
  have hparents : ∀ i ∈ [a, b], bred i :=
    List.forall_mem_cons.mpr ⟨ha, List.forall_mem_singleton.mpr hb⟩
  refine (Crossover.vary_yields c a b).mono fun children hchildren => ?_
  rcases hchildren with ⟨-, rfl⟩ | ⟨-, here, there, left, right, hexchange, hkept⟩
  · exact hparents
  · obtain ⟨fromA, fromB, hfromA, hfromB, hleft, hright⟩ :=
      Program.exchange_eq_ok_iff.mp hexchange
    refine Limit.forall_mem_of_enforceAll hparents (List.forall_mem_cons.mpr ⟨?_,
      List.forall_mem_singleton.mpr ?_⟩) hkept
    · exact h.crossed a b ha hb here there fromB left hfromB hleft
    · exact h.crossed b a hb ha there here fromA right hfromA hright

/-- Mutation preserves the property. -/
lemma mutation_yields {m : Mutation V} (h : Inherits σ m.sampler bred) {a : Individual V}
    (ha : bred a) :
    Draw.Yields (m.vary [a] : Draw σ (List (Individual V)))
      fun children => ∀ i ∈ children, bred i := by
  have hparents : ∀ i ∈ [a], bred i := List.forall_mem_singleton.mpr ha
  refine (Mutation.vary_yields m a).mono fun children hchildren => ?_
  rcases hchildren with rfl | ⟨position, tree, child, ⟨source, rest, htree⟩, hchild, hkept⟩
  · exact hparents
  · exact Limit.forall_mem_of_enforceAll hparents (List.forall_mem_singleton.mpr
      (h.mutated a ha source tree rest htree position child hchild)) hkept

/-- Individuals are replaced by others with the property. -/
lemma overwrite_mem {slots replacements : List (Individual V)} (hslots : ∀ i ∈ slots, bred i)
    (hreplacements : ∀ i ∈ replacements, bred i) : ∀ i ∈ overwrite slots replacements, bred i := by
  induction slots generalizing replacements with
  | nil => cases replacements <;> exact hslots
  | cons slot slots ih =>
    cases replacements with
    | nil => exact hslots
    | cons a replacements =>
      obtain ⟨ha, hreplacements⟩ := List.forall_mem_cons.mp hreplacements
      obtain ⟨-, hslots⟩ := List.forall_mem_cons.mp hslots
      exact List.forall_mem_cons.mpr ⟨ha, ih hslots hreplacements⟩

/-- Crossing neighbours preserves the property. -/
lemma crossPairs_yields (h : Inherits σ sampler bred) (c : Crossover) (probability : Float)
    {individuals : List (Individual V)} (hindividuals : ∀ i ∈ individuals, bred i) :
    Draw.Yields (crossPairs c probability individuals : Draw σ (List (Individual V)))
      fun crossed => ∀ i ∈ crossed, bred i := by
  induction individuals using crossPairs.induct with
  | case1 a b rest ih =>
    obtain ⟨ha, hb⟩ := List.forall_mem_cons.mp hindividuals
    obtain ⟨hb, hrest⟩ := List.forall_mem_cons.mp hb
    have hparents : ∀ i ∈ [a, b], bred i :=
      List.forall_mem_cons.mpr ⟨ha, List.forall_mem_singleton.mpr hb⟩
    rw [crossPairs]
    refine Draw.Yields.bind_any fun chance => ?_
    have hothers : ∀ pair, (∀ i ∈ pair, bred i) → Draw.Yields
        (do let others ← crossPairs c probability rest; pure (pair ++ others) :
          Draw σ (List (Individual V))) fun crossed => ∀ i ∈ crossed, bred i :=
      fun pair hpair => (ih hrest).bind fun others hothers =>
        Draw.Yields.pure (List.forall_mem_append.mpr ⟨hpair, hothers⟩)
    split
    · refine (h.crossover_yields c ha hb).bind fun children hchildren => ?_
      exact hothers _ (overwrite_mem hparents hchildren)
    · exact hothers _ hparents
  | case2 rest hrest =>
    rw [crossPairs]
    · exact Draw.Yields.pure hindividuals
    · exact hrest

/-- Mutating individuals preserves the property. -/
lemma mutateEach_yields {m : Mutation V} (h : Inherits σ m.sampler bred) (probability : Float)
    {individuals : List (Individual V)} (hindividuals : ∀ i ∈ individuals, bred i) :
    Draw.Yields (mutateEach m probability individuals : Draw σ (List (Individual V)))
      fun mutated => ∀ i ∈ mutated, bred i := by
  induction individuals with
  | nil => exact Draw.Yields.pure hindividuals
  | cons a rest ih =>
    obtain ⟨ha, hrest⟩ := List.forall_mem_cons.mp hindividuals
    rw [mutateEach]
    refine Draw.Yields.bind_any fun chance => ?_
    have hothers : ∀ kept, bred kept → Draw.Yields
        (do let others ← mutateEach m probability rest; pure (kept :: others) :
          Draw σ (List (Individual V))) fun mutated => ∀ i ∈ mutated, bred i :=
      fun kept hkept => (ih hrest).bind fun others hothers =>
        Draw.Yields.pure (List.forall_mem_cons.mpr ⟨hkept, hothers⟩)
    split
    · refine (h.mutation_yields ha).bind fun children hchildren => hothers _ ?_
      have hmem : children.getLastD a ∈ a :: children := List.getLastD_mem_cons
      rcases List.mem_cons.mp hmem with hlast | hlast
      · rw [hlast]
        exact ha
      · exact hchildren _ hlast
    · exact hothers _ ha

/-- Breeding preserves the property. -/
lemma breed_yields {m : Mutation V} (h : Inherits σ m.sampler bred) (c : Crossover)
    (crossoverProbability mutationProbability : Float) {p : Population V}
    (hp : ∀ i ∈ p.members, bred i) :
    Draw.Yields (breed c m crossoverProbability mutationProbability p : Draw σ (Population V))
      fun q => ∀ i ∈ q.members, bred i := by
  refine (h.crossPairs_yields c crossoverProbability hp).bind fun crossed hcrossed => ?_
  refine (h.mutateEach_yields mutationProbability hcrossed).bind fun mutated hmutated => ?_
  exact Draw.Yields.pure hmutated

end Inherits

end Variation

end TreeEvolution
