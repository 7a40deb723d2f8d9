import Mathlib.Data.List.Basic
import TreeEvolution.Proofs.Variation

/-!
# The course of breeding

A bred population does not tell where its individuals come from.  So breeding is done here once
more, with the same random words, and what happens in each place is written down: which individual
was selected for it, which child of crossover took its place, which random tree mutation put in, and
which child of mutation was accepted (`Course`).  Whoever holds a place at the end can be read off
its course, and this is what breeding comes to (`Variation.breed_eq_courses`).

A child is new only if it has been accepted by all limits of the operation that made it, and its
symbols come from those that took part in it: crossover stays within a pair of places, and mutation
within a place (`Variation.courses_yields`).
-/

namespace TreeEvolution

variable {V σ : Type}

/-! ### Accepted programs -/

/-- The individual, unless a new program takes its place. -/
def Individual.orNew (i : Individual V) : Option (Program V) → Individual V
  | none => i
  | some p => { code := p }

namespace Limit

variable {limits : List Limit} {p q : Program V}

/-- A program that passes all limits. -/
def accepted (limits : List Limit) (p : Program V) : Option (Program V) :=
  if limits.all fun limit => limit.passes p then some p else none

/-- A program is accepted as it is, and if an individual with it is within the limits. -/
lemma accepted_eq_some_iff :
    accepted limits p = some q ↔ q = p ∧ ({ code := p } : Individual V).Within limits := by
  have hwithin : (limits.all fun limit => limit.passes p) = true ↔
      ({ code := p } : Individual V).Within limits := all_passes_iff (i := { code := p })
  rw [accepted, Option.ite_none_right_eq_some, hwithin, Option.some.injEq, eq_comm, and_comm]

/-- An accepted program takes the place of an individual if a child with it survives. -/
lemma survivor_eq_orNew (i : Individual V) :
    survivor limits i { code := p } = i.orNew (accepted limits p) := by
  unfold survivor accepted
  split
  · rfl
  · rfl

end Limit

/-! ### Crossover and mutation with an account -/

/-- Exchange random subtrees of two individuals.  The values are the children that are accepted in
the place of each of them. -/
def Crossover.attempt [WordSource σ] (c : Crossover) (a b : Individual V) :
    Draw σ (Option (Program V) × Option (Program V)) :=
  if a.size < 2 || b.size < 2 then pure (none, none)
  else do
    let (here, fromA) ← a.code.randomSubtree
    let (there, fromB) ← b.code.randomSubtree
    let left ← Draw.settled (a.code.replaceSubtree here fromB)
    let right ← Draw.settled (b.code.replaceSubtree there fromA)
    let _ ← Draw.settled (Limit.enforceAll c.limits [a, b] [{ code := left }, { code := right }])
    pure (Limit.accepted c.limits left, Limit.accepted c.limits right)

/-- Replace a random subtree of an individual by a random tree.  The values are the tree and the
child, if it is accepted. -/
def Mutation.attempt [WordSource σ] (m : Mutation V) (a : Individual V) :
    Draw σ (Option (Program V) × Option (Program V)) :=
  if h : 0 < a.size then do
    let position ← Random.below a.size h
    let tree ← m.sampler.sample
    let child ← Draw.settled (a.code.replaceSubtree position tree)
    let _ ← Draw.settled (Limit.enforceAll m.limits [a] [{ code := child }])
    pure (some tree, Limit.accepted m.limits child)
  else pure (none, none)

/-- Crossover puts the accepted children in the places of the parents. -/
lemma Crossover.vary_eq_attempt [WordSource σ] (c : Crossover) (a b : Individual V) :
    (c.vary [a, b] : Draw σ (List (Individual V))) = (do
      let (left, right) ← c.attempt a b
      pure [a.orNew left, b.orNew right]) := by
  rw [vary, attempt]
  split
  · rfl
  · rw [bind_assoc]
    refine bind_congr fun cut => ?_
    obtain ⟨here, fromA⟩ := cut
    rw [bind_assoc]
    refine bind_congr fun cut => ?_
    obtain ⟨there, fromB⟩ := cut
    rw [bind_assoc]
    refine bind_congr fun left => ?_
    rw [bind_assoc]
    refine bind_congr fun right => ?_
    rw [bind_assoc]
    refine Draw.settled_eq_bind fun kept hkept => ?_
    have hsurvivors : kept = [Limit.survivor c.limits a { code := left },
        Limit.survivor c.limits b { code := right }] :=
      Limit.eq_zipWith_of_enforceAll (Eq.refl 2) hkept
    rw [hsurvivors, Limit.survivor_eq_orNew, Limit.survivor_eq_orNew]

/-- Mutation puts the accepted child in the place of the parent. -/
lemma Mutation.vary_eq_attempt [WordSource σ] (m : Mutation V) (a : Individual V) :
    (m.vary [a] : Draw σ (List (Individual V))) = (do
      let (_, child) ← m.attempt a
      pure [a.orNew child]) := by
  rw [vary, attempt]
  split
  · rw [bind_assoc]
    refine bind_congr fun position => ?_
    rw [bind_assoc]
    refine bind_congr fun tree => ?_
    rw [bind_assoc]
    refine bind_congr fun child => ?_
    rw [bind_assoc]
    refine Draw.settled_eq_bind fun kept hkept => ?_
    have hsurvivors : kept = [Limit.survivor m.limits a { code := child }] :=
      Limit.eq_zipWith_of_enforceAll (Eq.refl 1) hkept
    rw [hsurvivors, Limit.survivor_eq_orNew]
  · rfl

namespace Variation

/-! ### Courses -/

/-- What crossover does with a place of a population. -/
structure Crossing (V : Type) where
  /-- The individual that was selected for the place. -/
  selected : Individual V
  /-- The child that has taken its place. -/
  crossed : Option (Program V)

/-- What breeding does with a place of a population. -/
structure Course (V : Type) extends Crossing V where
  /-- The random tree that mutation has drawn. -/
  shoot : Option (Program V)
  /-- The child of mutation that has taken the place. -/
  mutated : Option (Program V)

/-- The individual in a place after crossover. -/
def Crossing.holder (x : Crossing V) : Individual V :=
  x.selected.orNew x.crossed

namespace Course

/-- The individual in a place after breeding. -/
def holder (course : Course V) : Individual V :=
  course.toCrossing.holder.orNew course.mutated

/-- Whether a child has taken the place of the selected individual. -/
def isNew (course : Course V) : Bool :=
  course.crossed.isSome || course.mutated.isSome

/-- Without a child the selected individual keeps its place. -/
lemma holder_of_not_isNew {course : Course V} (h : course.isNew = false) :
    course.holder = course.selected := by
  obtain ⟨hcrossed, hmutated⟩ := Bool.or_eq_false_iff.mp h
  rw [Option.isSome_eq_false_iff, Option.isNone_iff_eq_none] at hcrossed hmutated
  rw [holder, hmutated, Crossing.holder, hcrossed]
  rfl

/-- A child has no score. -/
lemma score_of_isNew {course : Course V} (h : course.isNew = true) :
    course.holder.score = .pending := by
  obtain ⟨⟨selected, crossed⟩, shoot, mutated⟩ := course
  cases mutated with
  | some p => rfl
  | none =>
    cases crossed with
    | some p => rfl
    | none => cases h

/-- A child has no valid fitness, and anybody else is valid if the selected individual is. -/
lemma isNew_eq_not_valid {course : Course V} (h : course.selected.valid = true) :
    course.isNew = !course.holder.valid := by
  cases hnew : course.isNew with
  | false => rw [holder_of_not_isNew hnew, h, Bool.not_true]
  | true => rw [Individual.valid, score_of_isNew hnew, Score.pending, Bool.not_false]

end Course

variable [WordSource σ]

/-- Cross neighbours with an account, pair by pair, each pair with a probability. -/
def crossings (c : Crossover) (probability : Float) :
    List (Individual V) → Draw σ (List (Crossing V))
  | a :: b :: rest => do
    let chance ← Random.unit
    let pair ←
      if chance < probability then do
        let (left, right) ← c.attempt a b
        pure [⟨a, left⟩, ⟨b, right⟩]
      else pure [⟨a, none⟩, ⟨b, none⟩]
    let others ← crossings c probability rest
    pure (pair ++ others)
  | rest => pure (rest.map fun a => ⟨a, none⟩)

/-- Mutate individuals with an account, each with a probability. -/
def mutations (m : Mutation V) (probability : Float) :
    List (Crossing V) → Draw σ (List (Course V))
  | [] => pure []
  | x :: rest => do
    let chance ← Random.unit
    let course ←
      if chance < probability then do
        let (shoot, child) ← m.attempt x.holder
        pure ⟨x, shoot, child⟩
      else pure ⟨x, none, none⟩
    let others ← mutations m probability rest
    pure (course :: others)

/-- Breed a population with an account of each place. -/
def courses (c : Crossover) (m : Mutation V) (crossoverProbability mutationProbability : Float)
    (p : Population V) : Draw σ (List (Course V)) := do
  let crossed ← crossings c crossoverProbability p.members
  mutations m mutationProbability crossed

/-! ### Breeding is what the courses come to -/

/-- Crossing neighbours leaves the holders of the places. -/
lemma crossPairs_eq_crossings (c : Crossover) (probability : Float)
    (individuals : List (Individual V)) :
    (crossPairs c probability individuals : Draw σ (List (Individual V))) = (do
      let crossed ← crossings c probability individuals
      pure (crossed.map Crossing.holder)) := by
  induction individuals using crossPairs.induct with
  | case1 a b rest ih =>
    rw [crossPairs, crossings, bind_assoc]
    refine bind_congr fun chance => ?_
    split
    · simp only [Crossover.vary_eq_attempt, ih, bind_assoc, pure_bind, overwrite, List.map_append,
        List.map_cons, List.map_nil, Crossing.holder]
    · simp only [ih, bind_assoc, pure_bind, List.map_append, List.map_cons, List.map_nil,
        Crossing.holder, Individual.orNew]
  | case2 rest hrest =>
    rw [crossPairs, crossings]
    · rw [pure_bind, List.map_map]
      exact congrArg pure (List.map_id rest).symm
    · exact hrest
    · exact hrest

/-- Mutating individuals leaves the holders of the places. -/
lemma mutateEach_eq_mutations (m : Mutation V) (probability : Float)
    (crossed : List (Crossing V)) :
    (mutateEach m probability (crossed.map Crossing.holder) : Draw σ (List (Individual V))) = (do
      let courses ← mutations m probability crossed
      pure (courses.map Course.holder)) := by
  induction crossed with
  | nil => rfl
  | cons x rest ih =>
    rw [List.map_cons, mutateEach, mutations, bind_assoc]
    refine bind_congr fun chance => ?_
    split
    · simp only [Mutation.vary_eq_attempt, ih, bind_assoc, pure_bind, List.getLastD_cons,
        List.getLastD_nil, List.map_cons, Course.holder]
    · simp only [ih, bind_assoc, pure_bind, List.map_cons, Course.holder, Individual.orNew]

/-- Breeding leaves the holders of the places, draws the same words, and fails in the same way. -/
lemma breed_eq_courses (c : Crossover) (m : Mutation V)
    (crossoverProbability mutationProbability : Float) (p : Population V) :
    (breed c m crossoverProbability mutationProbability p : Draw σ (Population V)) = (do
      let courses ← courses c m crossoverProbability mutationProbability p
      pure ⟨courses.map Course.holder⟩) := by
  simp only [breed, courses, crossPairs_eq_crossings, mutateEach_eq_mutations, bind_assoc,
    pure_bind]

/-! ### Where children come from -/

/-- The place of the other individual of a pair. -/
def partner (place : Nat) : Nat :=
  if place % 2 = 0 then place + 1 else place - 1

/-- The pairs repeat after two places. -/
lemma partner_add_two (place : Nat) : partner (place + 2) = partner place + 2 := by
  unfold partner
  split <;> split <;> omega

/-- A child of crossover is accepted by all limits, and consists of symbols of the selected
individual and of its mate. -/
def Crossing.Made (c : Crossover) (mate? : Option (Individual V)) (x : Crossing V) : Prop :=
  ∀ p, x.crossed = some p → ({ code := p } : Individual V).Within c.limits ∧
    ∃ mate, mate? = some mate ∧
      ∀ s ∈ p.symbols, s ∈ x.selected.code.symbols ∨ s ∈ mate.code.symbols

/-- Mutation draws its trees from its sampler, and a child of it is accepted by all limits and
consists of symbols of the individual in the place and of the tree. -/
structure Course.Made (σ : Type) [WordSource σ] (m : Mutation V) (course : Course V) : Prop where
  /-- The tree is one that the sampler can draw. -/
  shoot : ∀ tree, course.shoot = some tree → (m.sampler.sample : Draw σ (Program V)).CanBe tree
  /-- The child is made with the tree. -/
  mutated : ∀ p, course.mutated = some p → ({ code := p } : Individual V).Within m.limits ∧
    ∃ tree, course.shoot = some tree ∧
      ∀ s ∈ p.symbols, s ∈ course.toCrossing.holder.code.symbols ∨ s ∈ tree.symbols

/-- Without a child nothing has to be said of crossover. -/
lemma Crossing.made_none (c : Crossover) (mate? : Option (Individual V)) (a : Individual V) :
    (⟨a, none⟩ : Crossing V).Made c mate? :=
  fun p hp => by cases hp

/-- Without mutation nothing has to be said of it. -/
lemma Course.made_none (m : Mutation V) (x : Crossing V) :
    (⟨x, none, none⟩ : Course V).Made σ m where
  shoot tree htree := by cases htree
  mutated p hp := by cases hp

/-- A child with a subtree of its mate is made by crossover, if it is accepted. -/
lemma Crossing.made_of_replaceSubtree {c : Crossover} {a b : Individual V} {here there : Nat}
    {sub child : Program V} (hsub : b.code.subtree there = .ok sub)
    (hchild : a.code.replaceSubtree here sub = .ok child) :
    (⟨a, Limit.accepted c.limits child⟩ : Crossing V).Made c (some b) := by
  intro p hp
  obtain ⟨rfl, hwithin⟩ := Limit.accepted_eq_some_iff.mp hp
  refine ⟨hwithin, b, rfl, fun s hs => ?_⟩
  exact (Program.mem_of_replaceSubtree_eq_ok hchild hs).imp_right
    (Program.mem_of_subtree_eq_ok hsub)

/-- A child keeps within the limits that both operations have. -/
lemma Course.within_of_isNew {c : Crossover} {m : Mutation V} {mate? : Option (Individual V)}
    {course : Course V} {guard : List Limit} (hcrossed : course.toCrossing.Made c mate?)
    (h : course.Made σ m) (hnew : course.isNew = true) (hc : guard ⊆ c.limits)
    (hm : guard ⊆ m.limits) : course.holder.Within guard := by
  obtain ⟨⟨selected, crossed⟩, shoot, mutated⟩ := course
  cases mutated with
  | some p => exact (h.mutated p rfl).1.mono hm
  | none =>
    cases crossed with
    | some p => exact (hcrossed p rfl).1.mono hc
    | none => cases hnew

/-- Crossover makes the children that are accepted. -/
lemma attempt_crossover_yields (c : Crossover) (a b : Individual V) :
    Draw.Yields (c.attempt a b : Draw σ (Option (Program V) × Option (Program V)))
      fun (left, right) => (⟨a, left⟩ : Crossing V).Made c (some b) ∧
        (⟨b, right⟩ : Crossing V).Made c (some a) := by
  rw [Crossover.attempt]
  split
  · exact Draw.Yields.pure ⟨Crossing.made_none c _ a, Crossing.made_none c _ b⟩
  · refine a.code.randomSubtree_yields.bind fun (here, fromA) hfromA => ?_
    refine b.code.randomSubtree_yields.bind fun (there, fromB) hfromB => ?_
    refine Draw.Yields.bind_settled fun left hleft => ?_
    refine Draw.Yields.bind_settled fun right hright => ?_
    exact Draw.Yields.bind_any fun _ => Draw.Yields.pure
      ⟨Crossing.made_of_replaceSubtree hfromB hleft, Crossing.made_of_replaceSubtree hfromA hright⟩

/-- Mutation makes the child that is accepted. -/
lemma attempt_mutation_yields (m : Mutation V) (x : Crossing V) :
    Draw.Yields (m.attempt x.holder : Draw σ (Option (Program V) × Option (Program V)))
      fun (shoot, child) => (⟨x, shoot, child⟩ : Course V).Made σ m := by
  rw [Mutation.attempt]
  split
  · refine Draw.Yields.bind_any fun position => ?_
    refine (Draw.Yields.canBe m.sampler.sample).bind fun tree htree => ?_
    refine Draw.Yields.bind_settled fun child hchild => ?_
    refine Draw.Yields.bind_any fun _ => Draw.Yields.pure ⟨fun t ht => ?_, fun p hp => ?_⟩
    · cases ht
      exact htree
    · obtain ⟨rfl, hwithin⟩ := Limit.accepted_eq_some_iff.mp hp
      exact ⟨hwithin, tree, rfl, fun s hs => Program.mem_of_replaceSubtree_eq_ok hchild hs⟩
  · exact Draw.Yields.pure (Course.made_none m x)

/-- Crossover of neighbours stays within the pairs. -/
lemma crossings_yields (c : Crossover) (probability : Float) (individuals : List (Individual V)) :
    Draw.Yields (crossings c probability individuals : Draw σ (List (Crossing V)))
      fun crossed => crossed.map Crossing.selected = individuals ∧
        ∀ (k : Nat) (x : Crossing V), crossed[k]? = some x →
          x.Made c individuals[partner k]? := by
  induction individuals using crossPairs.induct with
  | case1 a b rest ih =>
    rw [crossings]
    refine Draw.Yields.bind_any fun chance => ?_
    have hothers : ∀ left right, (⟨a, left⟩ : Crossing V).Made c (some b) →
        (⟨b, right⟩ : Crossing V).Made c (some a) → Draw.Yields
          (do let others ← crossings c probability rest; pure ([⟨a, left⟩, ⟨b, right⟩] ++ others) :
            Draw σ (List (Crossing V)))
          fun crossed => crossed.map Crossing.selected = a :: b :: rest ∧
            ∀ (k : Nat) (x : Crossing V), crossed[k]? = some x →
              x.Made c (a :: b :: rest)[partner k]? := by
      refine fun left right hleft hright => ih.bind fun others hothers => Draw.Yields.pure ?_
      refine ⟨congrArg (a :: b :: ·) hothers.1, fun k x hx => ?_⟩
      -- the two places of the first pair, and those of the pairs after it
      obtain _ | _ | k := k
      · cases hx
        exact hleft
      · cases hx
        exact hright
      · rw [partner_add_two]
        exact hothers.2 k x hx
    split
    · refine (attempt_crossover_yields c a b).bind fun accepted hmade => ?_
      obtain ⟨left, right⟩ := accepted
      exact hothers left right hmade.1 hmade.2
    · exact hothers none none (Crossing.made_none c _ a) (Crossing.made_none c _ b)
  | case2 rest hrest =>
    rw [crossings]
    · refine Draw.Yields.pure ⟨?_, fun k x hx => ?_⟩
      · rw [List.map_map]
        exact List.map_id rest
      · obtain ⟨a, -, rfl⟩ := List.mem_map.mp (List.mem_of_getElem? hx)
        exact Crossing.made_none c _ a
    · exact hrest

/-- Mutation of individuals stays within the places. -/
lemma mutations_yields (m : Mutation V) (probability : Float) (crossed : List (Crossing V)) :
    Draw.Yields (mutations m probability crossed : Draw σ (List (Course V)))
      fun courses => courses.map Course.toCrossing = crossed ∧
        ∀ course ∈ courses, course.Made σ m := by
  induction crossed with
  | nil => exact Draw.Yields.pure ⟨rfl, fun course hcourse => by cases hcourse⟩
  | cons x rest ih =>
    rw [mutations]
    refine Draw.Yields.bind_any fun chance => ?_
    have hothers : ∀ shoot mutated, (⟨x, shoot, mutated⟩ : Course V).Made σ m → Draw.Yields
        (do let others ← mutations m probability rest; pure (⟨x, shoot, mutated⟩ :: others) :
          Draw σ (List (Course V)))
        fun courses => courses.map Course.toCrossing = x :: rest ∧
          ∀ course ∈ courses, course.Made σ m :=
      fun shoot mutated hmade => ih.bind fun others hothers => Draw.Yields.pure
        ⟨congrArg (x :: ·) hothers.1, List.forall_mem_cons.mpr ⟨hmade, hothers.2⟩⟩
    split
    · refine (attempt_mutation_yields m x).bind fun (shoot, child) hmade => ?_
      exact hothers shoot child hmade
    · exact hothers none none (Course.made_none m x)

/-- Breeding stays within the places and their pairs. -/
lemma courses_yields (c : Crossover) (m : Mutation V)
    (crossoverProbability mutationProbability : Float) (p : Population V) :
    Draw.Yields (courses c m crossoverProbability mutationProbability p : Draw σ (List (Course V)))
      fun courses => courses.map (fun course => course.selected) = p.members ∧
        ∀ (k : Nat) (course : Course V), courses[k]? = some course →
          course.toCrossing.Made c p.members[partner k]? ∧ course.Made σ m := by
  refine (crossings_yields c crossoverProbability p.members).bind fun crossed hcrossed => ?_
  refine (mutations_yields m mutationProbability crossed).mono fun courses hcourses => ⟨?_, ?_⟩
  · rw [← hcrossed.1, ← hcourses.1, List.map_map]
    rfl
  · intro k course hcourse
    refine ⟨hcrossed.2 k _ ?_, hcourses.2 course (List.mem_of_getElem? hcourse)⟩
    rw [← hcourses.1, List.getElem?_map, hcourse, Option.map_some]

end Variation

end TreeEvolution
