import TreeEvolution.Proofs.Breeding
import TreeEvolution.Proofs.Courses
import TreeEvolution.Proofs.TreeSampler
import TreeEvolution.Symbol.Boolean

/-!
# Offspring

What may stand in a place of a bred population is told by the course of the place (`Offspring`).  It
is the individual that was there before, score included, or a child without a score, within the
limits of the operation that made it and out of symbols of the pair of the place and of a tree that
was drawn for it.  `breeding_keeps_places` adds that breeding comes to an end, as far as the sampler
of new subtrees and the memory for lists allow it.
-/

namespace TreeEvolution

open Places

namespace Variation

variable {V σ : Type} [WordSource σ]

/-! ### Offspring -/

/-- What may stand in a place after breeding, when it was the place of an individual before, and of
a mate in the other place of the pair, if there is one. -/
structure Offspring (σ : Type) [WordSource σ] (c : Crossover) (m : Mutation V)
    (mate? : Option (Individual V)) (course : Course V) (a child : Individual V) : Prop where
  /-- The course of the place begins with the individual. -/
  selected : course.selected = a
  /-- The course ends with the child. -/
  holder : course.holder = child
  /-- Only the individual itself has a valid fitness. -/
  eq_of_valid : child.valid = true → child = a
  /-- Only the individual itself breaks a limit of both operations. -/
  eq_of_limit : ∀ limit ∈ c.limits, limit ∈ m.limits → limit.admits child ≠ .ok true → child = a
  /-- Every symbol comes from the individual, from its mate, or from the tree of the mutation. -/
  symbols : ∀ s ∈ child.code.symbols, s ∈ a.code.symbols ∨
    (∃ mate, mate? = some mate ∧ s ∈ mate.code.symbols) ∨
      ∃ tree, course.shoot = some tree ∧ s ∈ tree.symbols
  /-- The tree of the mutation is one that its sampler can draw. -/
  shoot : ∀ tree, course.shoot = some tree → (m.sampler.sample : Draw σ (Program V)).CanBe tree

section Offspring

variable {c : Crossover} {m : Mutation V} {mate? : Option (Individual V)} {course : Course V}

/-- After crossover the symbols come from the individual and from its mate. -/
lemma Crossing.mem_of_made {x : Crossing V} (h : x.Made c mate?) {s : Symbol V}
    (hs : s ∈ x.holder.code.symbols) : s ∈ x.selected.code.symbols ∨
      ∃ mate, mate? = some mate ∧ s ∈ mate.code.symbols := by
  obtain ⟨selected, crossed⟩ := x
  cases crossed with
  | none => exact Or.inl hs
  | some p =>
    obtain ⟨-, mate, hmate, hsymbols⟩ := h p rfl
    exact (hsymbols s hs).imp_right fun hs => ⟨mate, hmate, hs⟩

/-- After breeding the symbols may also come from the tree of the mutation. -/
lemma Course.mem_of_made (hcrossed : course.toCrossing.Made c mate?) (h : course.Made σ m)
    {s : Symbol V} (hs : s ∈ course.holder.code.symbols) : s ∈ course.selected.code.symbols ∨
      (∃ mate, mate? = some mate ∧ s ∈ mate.code.symbols) ∨
        ∃ tree, course.shoot = some tree ∧ s ∈ tree.symbols := by
  obtain ⟨x, shoot, mutated⟩ := course
  cases mutated with
  | none => exact (Crossing.mem_of_made hcrossed hs).imp_right Or.inl
  | some p =>
    obtain ⟨-, tree, htree, hsymbols⟩ := h.mutated p rfl
    rcases hsymbols s hs with hs | hs
    · exact (Crossing.mem_of_made hcrossed hs).imp_right Or.inl
    · exact Or.inr (Or.inr ⟨tree, htree, hs⟩)

/-- Whoever holds a place at the end of its course is an offspring. -/
lemma Course.offspring_of_made (hcrossed : course.toCrossing.Made c mate?) (h : course.Made σ m) :
    Offspring σ c m mate? course course.selected course.holder where
  selected := rfl
  holder := rfl
  eq_of_valid hvalid := by
    cases hnew : course.isNew with
    | false => exact holder_of_not_isNew hnew
    | true =>
      rw [Individual.valid, score_of_isNew hnew] at hvalid
      cases hvalid
  eq_of_limit limit hc hm hbreaks := by
    cases hnew : course.isNew with
    | false => exact holder_of_not_isNew hnew
    | true =>
      have hwithin : course.holder.Within [limit] :=
        within_of_isNew hcrossed h hnew (List.cons_subset.mpr ⟨hc, List.nil_subset _⟩)
          (List.cons_subset.mpr ⟨hm, List.nil_subset _⟩)
      exact absurd (hwithin limit List.mem_cons_self) hbreaks
  symbols _ := mem_of_made hcrossed h
  shoot := h.shoot

end Offspring

/-- Listings of trees can be bred from with a sampler over a proper vocabulary.  What can fail is
the sampler, and memory may run out if lists are not enough for one of the programs. -/
lemma unimpeded_of_proper {inputs : Nat} {m : Mutation V}
    (hv : m.sampler.vocabulary.Proper inputs) (wide : Prop) :
    Unimpeded σ m.sampler
      (fun i => Fills i.code.symbols 1 ∧ (wide ∨ Program.Storable i.code.symbols))
      fun f => (m.sampler.sample : Draw σ (Program V)).CanFail f ∨
        f = .fault .beyondMemory ∧ wide where
  crossed a b ha hb here there sub child hsub hchild := by
    refine ⟨Program.fills_of_replaceSubtree_eq_ok hchild ha.1 (Program.subtree_eq_ok hsub).1, ?_⟩
    refine or_iff_not_imp_left.mpr fun hwide s hs => ?_
    rcases Program.mem_of_replaceSubtree_eq_ok hchild hs with hs | hs
    · exact ha.2.resolve_left hwide s hs
    · exact hb.2.resolve_left hwide s (Program.mem_of_subtree_eq_ok hsub hs)
  mutated a ha := by
    refine ((TreeSampler.sample_yields hv).and (TreeSampler.sample_depth_yields hv)).mono ?_
    rintro tree ⟨htree, d, hd, -⟩ here child hchild
    refine ⟨Program.fills_of_replaceSubtree_eq_ok hchild ha.1 htree.fills, ?_⟩
    refine or_iff_not_imp_left.mpr fun hwide s hs => ?_
    rcases Program.mem_of_replaceSubtree_eq_ok hchild hs with hs | hs
    · exact ha.2.resolve_left hwide s hs
    · exact Program.storable_of_depth htree.fills hd s hs
  fills i hi := hi.1
  storable := by
    by_cases hwide : wide
    · exact Or.inl (Or.inr ⟨rfl, hwide⟩)
    · exact Or.inr fun i hi => hi.2.resolve_left hwide
  sample := (Draw.FailsOnly.canFail m.sampler.sample).mono fun f hf => Or.inl hf

/-- **Breeding keeps places apart.**  A population of well-formed individuals can be bred from,
unless the sampler of new subtrees fails, or the depth is asked for of a program with a symbol whose
arguments no list can hold.  The bred population has as many places.  Whoever has a valid fitness in
one of them, or breaks a limit that crossover and mutation share, is the individual that was there
before, score included.  And all symbols in a place come from this individual, from the other one
of its pair, or from a tree that mutation has drawn for this place. -/
theorem breeding_keeps_places {inputs : Nat} {names : List String} {bare : Vocabulary V}
    {additions : List (Vocabulary.Addition V)} {m : Mutation V} {p : Population V}
    (hbare : Vocabulary.ofInputs inputs names = .ok bare)
    (hm : m.sampler.vocabulary = bare.after additions) (c : Crossover)
    (crossoverProbability mutationProbability : Float)
    (hp : ∀ i ∈ p.members, i.code.isWellFormed = .ok true) (source : σ) :
    (∃ q places rest,
      (breed c m crossoverProbability mutationProbability p).outcome source = (.ok q, rest) ∧
      (courses c m crossoverProbability mutationProbability p).outcome source =
        (.ok places, rest) ∧
      q.size = p.size ∧
      ∀ (k : Nat) (child : Individual V), q.members[k]? = some child →
        ∃ a course, p.members[k]? = some a ∧ places[k]? = some course ∧
          Offspring σ c m p.members[partner k]? course a child) ∨
    ∃ f rest,
      (breed c m crossoverProbability mutationProbability p).outcome source = (.error f, rest) ∧
      ((m.sampler.sample : Draw σ (Program V)).CanFail f ∨
        f = .fault .beyondMemory ∧ ∃ i ∈ p.members, ¬ Program.Storable i.code.symbols) := by
  have hv : m.sampler.vocabulary.Proper inputs := by
    rw [hm]
    exact (Vocabulary.proper_of_ofInputs hbare).after additions
  rcases houtcome : (breed c m crossoverProbability mutationProbability p).outcome source with
    ⟨f | q, rest⟩
  · have hbred : ∀ i ∈ p.members, Fills i.code.symbols 1 ∧
        ((∃ j ∈ p.members, ¬ Program.Storable j.code.symbols) ∨
          Program.Storable i.code.symbols) := by
      refine fun i hi => ⟨Program.fills_of_listsTrees (hp i hi), ?_⟩
      exact or_iff_not_imp_right.mpr fun hwide => ⟨i, hi, hwide⟩
    exact Or.inr ⟨f, rest, rfl, (unimpeded_of_proper hv _).breed_failsOnly c crossoverProbability
      mutationProbability hbred source f rest houtcome⟩
  · have hcourses := houtcome
    rw [breed_eq_courses] at hcourses
    obtain ⟨places, between, hplaces, hq⟩ := Draw.outcome_bind_eq_ok.mp hcourses
    cases hq
    obtain ⟨hselected, hmade⟩ := courses_yields c m crossoverProbability mutationProbability p
      source places rest hplaces
    refine Or.inl ⟨_, places, rest, rfl, hplaces, ?_, fun k child hchild => ?_⟩
    · rw [Population.size, Population.size, ← hselected, List.length_map, List.length_map]
    · rw [List.getElem?_map] at hchild
      obtain ⟨course, hcourse, rfl⟩ := Option.map_eq_some_iff.mp hchild
      obtain ⟨hcrossed, hmutated⟩ := hmade k course hcourse
      refine ⟨course.selected, course, ?_, hcourse, Course.offspring_of_made hcrossed hmutated⟩
      rw [← hselected, List.getElem?_map, hcourse, Option.map_some]

/-- Mutation by negations of an input, for children of at most three symbols and depth one. -/
def negatingMutation : Mutation Bool where
  sampler := ⟨.grow, ⟨1, [.input "x" 0], [Boolean.negation]⟩, 1, 2, Nat.le_succ 1,
    List.cons_ne_nil _ _⟩
  limits := [.size 3, .depth 1]

/-- A pair of individuals, and one without a partner. -/
def pairAndSingle : Population Bool where
  members :=
    [⟨⟨[Boolean.conjunction, .input "x" 0, .input "x" 0]⟩, ⟨0.75, true⟩⟩,
      ⟨⟨[Boolean.negation, .input "x" 0]⟩, ⟨0.5, true⟩⟩,
      ⟨⟨[.input "x" 0]⟩, ⟨0.25, true⟩⟩]

/-- The three places are kept apart when crossover and mutation are certain. -/
theorem pairAndSingle_keep_places :
    Vocabulary.ofInputs 1 ["x"] = .ok (⟨1, [.input "x" 0], []⟩ : Vocabulary Bool) ∧
      (∀ i ∈ pairAndSingle.members, i.code.isWellFormed = .ok true) ∧
      ∃ q places rest,
        (breed ⟨[.size 3]⟩ negatingMutation 1 1 pairAndSingle).outcome (⟨[], 0⟩ : ListedWords) =
          (.ok q, rest) ∧
        (courses ⟨[.size 3]⟩ negatingMutation 1 1 pairAndSingle).outcome (⟨[], 0⟩ : ListedWords) =
          (.ok places, rest) ∧
        q.size = 3 ∧
        ∀ (k : Nat) (child : Individual Bool), q.members[k]? = some child →
          ∃ a course, pairAndSingle.members[k]? = some a ∧ places[k]? = some course ∧
            Offspring ListedWords ⟨[.size 3]⟩ negatingMutation
              pairAndSingle.members[partner k]? course a child := by
  have hbare : Vocabulary.ofInputs 1 ["x"] = .ok (⟨1, [.input "x" 0], []⟩ : Vocabulary Bool) := rfl
  have hvocabulary : negatingMutation.sampler.vocabulary =
      (⟨1, [.input "x" 0], []⟩ : Vocabulary Bool).after [.add Boolean.negation] := rfl
  have hwellFormed : ∀ i ∈ pairAndSingle.members, i.code.isWellFormed = .ok true :=
    List.forall_mem_cons.mpr
      ⟨rfl, List.forall_mem_cons.mpr ⟨rfl, List.forall_mem_singleton.mpr rfl⟩⟩
  have hok : ((breed ⟨[.size 3]⟩ negatingMutation 1 1 pairAndSingle).outcome
      (⟨[], 0⟩ : ListedWords)).1.isOk = true := by
    decide +kernel
  refine ⟨hbare, hwellFormed, ?_⟩
  rcases breeding_keeps_places hbare hvocabulary ⟨[.size 3]⟩ 1 1 hwellFormed
    (⟨[], 0⟩ : ListedWords) with h | ⟨f, rest, h, -⟩
  · exact h
  · rw [h] at hok
    cases hok

end Variation

end TreeEvolution
