import Mathlib.Data.List.Basic
import Mathlib.Data.List.Induction
import TreeEvolution.Population
import TreeEvolution.Proofs.Numbers

/-!
# The best individual

Going through a population, one keeps the best individual so far unless another one is not at most
as fit.  As long as fitnesses are numbers, what is kept is always the first individual of greatest
valid fitness among those seen (`Population.foldl_better_foremost`), and so is the best individual
of a population (`Population.best_is_first_of_greatest`).

A fitness that is not a number compares with nothing.  An individual with such a fitness takes the
place of the best individual so far, whoever that is, and gives it up to the next one: what has been
seen before does not matter any more (`Population.notANumber_hides_earlier`).
-/

namespace TreeEvolution

namespace Population

variable {V : Type} {p : Population V} {individuals : List (Individual V)} {i j : Individual V}
  {position : Nat}

/-! ### The search for the best individual -/

/-- The better of two is one of them. -/
lemma better_eq_or (start : Option (Individual V)) (i : Individual V) :
    better start i = start ∨ better start i = some i := by
  unfold better
  split
  · split
    · exact Or.inl rfl
    · exact Or.inr rfl
  · exact Or.inr rfl

/-- Going through individuals one keeps the first or takes over one of them. -/
lemma foldl_better_mem (individuals : List (Individual V)) (start : Option (Individual V))
    {i : Individual V} (h : individuals.foldl better start = some i) :
    start = some i ∨ i ∈ individuals := by
  induction individuals generalizing start with
  | nil => exact Or.inl h
  | cons j individuals ih =>
    rw [List.foldl_cons] at h
    rcases ih (better start j) h with hbetter | hmem
    · rcases better_eq_or start j with hstart | hj
      · exact Or.inl (hstart.symm.trans hbetter)
      · cases hj.symm.trans hbetter
        exact Or.inr List.mem_cons_self
    · exact Or.inr (List.mem_cons_of_mem j hmem)

/-- Going through individuals one finds nobody only if there is nobody. -/
lemma foldl_better_eq_none_iff {individuals : List (Individual V)} {start : Option (Individual V)} :
    individuals.foldl better start = none ↔ start = none ∧ individuals = [] := by
  induction individuals generalizing start with
  | nil => simp
  | cons i individuals ih =>
    have hbetter : better start i ≠ none := by
      unfold better
      split
      · split <;> exact Option.some_ne_none _
      · exact Option.some_ne_none _
    rw [List.foldl_cons, ih]
    simp [hbetter]

/-- The best individual is the one that is kept in the end. -/
lemma best_eq_ok_iff :
    p.best = .ok i ↔ (p.members.filter Individual.valid).foldl better none = some i := by
  unfold best
  split
  · rename_i hempty
    rw [List.isEmpty_iff.mp hempty]
    simp
  · split
    · rename_i hbest
      rw [hbest]
      simp
    · rename_i hbest
      rw [hbest]
      simp

/-- The best individual is a member with a valid fitness. -/
lemma mem_filter_of_best (h : p.best = .ok i) : i ∈ p.members.filter Individual.valid :=
  (foldl_better_mem _ none (best_eq_ok_iff.mp h)).resolve_left (Option.some_ne_none i).symm

/-- The best individual is a member. -/
lemma mem_of_best (h : p.best = .ok i) : i ∈ p.members :=
  List.mem_of_mem_filter (mem_filter_of_best h)

/-- The best individual has a valid fitness. -/
lemma valid_of_best (h : p.best = .ok i) : i.valid = true :=
  List.of_mem_filter (mem_filter_of_best h)

/-- There is a best individual if there is one with a valid fitness. -/
lemma exists_best (hi : i ∈ p.members) (hvalid : i.valid = true) : ∃ j, p.best = .ok j := by
  simp only [best_eq_ok_iff]
  rw [← Option.ne_none_iff_exists', Ne, foldl_better_eq_none_iff]
  rintro ⟨-, hnil⟩
  exact List.filter_eq_nil_iff.mp hnil i hi hvalid

/-! ### Populations without a best individual -/

/-- There is no best individual for lack of individuals exactly if there are none. -/
lemma best_eq_emptyPopulation_iff : p.best = .error .emptyPopulation ↔ p.members = [] := by
  unfold best
  split
  · rename_i hempty
    simpa using hempty
  · rename_i hempty
    rw [List.isEmpty_iff] at hempty
    split <;> simp [hempty]

/-- There is no best individual for lack of a valid fitness exactly if there are individuals and
none of them has one. -/
lemma best_eq_noValidIndividual_iff :
    p.best = .error .noValidIndividual ↔ p.members ≠ [] ∧ ∀ i ∈ p.members, i.valid = false := by
  unfold best
  split
  · rename_i hempty
    rw [List.isEmpty_iff] at hempty
    simp [hempty]
  · rename_i hempty
    rw [List.isEmpty_iff] at hempty
    have hnone : (p.members.filter Individual.valid).foldl better none = none ↔
        ∀ i ∈ p.members, i.valid = false := by
      rw [foldl_better_eq_none_iff, List.filter_eq_nil_iff]
      simp
    rw [← hnone, and_iff_right hempty]
    split
    · rename_i hbest
      rw [hbest]
      simp
    · rename_i hbest
      rw [hbest]
      simp

/-- Only individuals with a valid fitness matter, as long as there are any individuals. -/
lemma best_congr {q : Population V} (hp : p.members ≠ []) (hq : q.members ≠ [])
    (h : q.members.filter Individual.valid = p.members.filter Individual.valid) :
    q.best = p.best := by
  unfold best
  rw [if_neg (by rwa [List.isEmpty_iff]), if_neg (by rwa [List.isEmpty_iff]), h]

/-! ### The first of the fittest -/

/-- The valid fitnesses are numbers. -/
def Comparable (individuals : List (Individual V)) : Prop :=
  ∀ i ∈ individuals, i.valid = true → i.fitness.isNaN = false

/-- At a position there is the first of the individuals of greatest valid fitness: whoever stands
before it and has a valid fitness is less fit, and whoever stands after it and has one is at most as
fit. -/
def Foremost (individuals : List (Individual V)) (position : Nat) (i : Individual V) : Prop :=
  ∃ before after, individuals = before ++ i :: after ∧ before.length = position ∧
    i.valid = true ∧ (∀ j ∈ before, j.valid = true → j.fitness < i.fitness) ∧
    ∀ j ∈ after, j.valid = true → j.fitness ≤ i.fitness

namespace Foremost

/-- The first of the fittest is one of the individuals. -/
lemma mem (h : Foremost individuals position i) : i ∈ individuals := by
  obtain ⟨before, after, rfl, -⟩ := h
  exact List.mem_append_right before List.mem_cons_self

/-- The first of the fittest has a valid fitness. -/
lemma valid (h : Foremost individuals position i) : i.valid = true := by
  obtain ⟨_, _, -, -, hvalid, -⟩ := h
  exact hvalid

/-- The first of the fittest stands at its position. -/
lemma getElem?_eq (h : Foremost individuals position i) : individuals[position]? = some i := by
  obtain ⟨before, after, rfl, rfl, -⟩ := h
  rw [List.getElem?_append_right (Nat.le_refl _), Nat.sub_self, List.getElem?_cons_zero]

/-- Nobody with a valid fitness is fitter than the first of the fittest. -/
lemma fitness_le (h : Foremost individuals position i) (hi : i.fitness.isNaN = false)
    (hj : j ∈ individuals) (hvalid : j.valid = true) : j.fitness ≤ i.fitness := by
  obtain ⟨before, after, rfl, -, -, hbefore, hafter⟩ := h
  rcases List.mem_append.mp hj with hj | hj
  · exact Number.le_of_lt (hbefore j hj hvalid)
  · rcases List.mem_cons.mp hj with rfl | hj
    · exact Number.le_refl hi
    · exact hafter j hj hvalid

/-- Whoever has a valid fitness at an earlier position is less fit. -/
lemma fitness_lt_of_getElem? {k : Nat} (h : Foremost individuals position i) (hk : k < position)
    (hj : individuals[k]? = some j) (hvalid : j.valid = true) : j.fitness < i.fitness := by
  obtain ⟨before, after, rfl, rfl, -, hbefore, -⟩ := h
  rw [List.getElem?_append_left hk] at hj
  exact hbefore j (List.mem_of_getElem? hj) hvalid

/-- Whoever has a valid fitness at a later position is at most as fit. -/
lemma fitness_le_of_getElem? {k : Nat} (h : Foremost individuals position i) (hk : position < k)
    (hj : individuals[k]? = some j) (hvalid : j.valid = true) : j.fitness ≤ i.fitness := by
  obtain ⟨before, after, rfl, rfl, -, -, hafter⟩ := h
  obtain ⟨distance, rfl⟩ := Nat.exists_eq_add_of_lt hk
  rw [Nat.add_assoc, List.getElem?_append_right (Nat.le_add_right _ _), Nat.add_sub_cancel_left,
    List.getElem?_cons_succ] at hj
  exact hafter j (List.mem_of_getElem? hj) hvalid

/-- Nobody who stands further on is the first of the fittest as well. -/
lemma not_lt {other : Nat} (h : Foremost individuals position i)
    (h' : Foremost individuals other j) : ¬ position < other := fun hlt =>
  Number.not_le_of_lt (h'.fitness_lt_of_getElem? hlt h.getElem?_eq h.valid)
    (h.fitness_le_of_getElem? hlt h'.getElem?_eq h'.valid)

/-- There is only one first of the fittest. -/
lemma unique {other : Nat} (h : Foremost individuals position i)
    (h' : Foremost individuals other j) : other = position ∧ j = i := by
  have heq : other = position :=
    Nat.le_antisymm (Nat.le_of_not_lt (h.not_lt h')) (Nat.le_of_not_lt (h'.not_lt h))
  subst heq
  exact ⟨rfl, Option.some.inj (h'.getElem?_eq.symm.trans h.getElem?_eq)⟩

/-- The first of the fittest stays so when somebody follows who is not fitter. -/
lemma append_le (h : Foremost individuals position i)
    (hj : j.valid = true → j.fitness ≤ i.fitness) :
    Foremost (individuals ++ [j]) position i := by
  obtain ⟨before, after, rfl, hposition, hvalid, hbefore, hafter⟩ := h
  refine ⟨before, after ++ [j], by simp, hposition, hvalid, hbefore, ?_⟩
  intro other hother
  rcases List.mem_append.mp hother with hother | hother
  · exact hafter other hother
  · rw [List.mem_singleton.mp hother]
    exact hj

/-- Somebody fitter who follows is the first of the fittest. -/
lemma append_lt (h : Foremost individuals position i) (hvalid : j.valid = true)
    (hlt : i.fitness < j.fitness) : Foremost (individuals ++ [j]) individuals.length j := by
  refine ⟨individuals, [], rfl, rfl, hvalid, fun other hother hother' => ?_, by simp⟩
  exact Number.lt_of_le_of_lt
    (h.fitness_le (Number.isNaN_eq_false_of_lt hlt).1 hother hother') hlt

/-- Somebody with a valid fitness who follows others without one is the first of the fittest. -/
lemma append_first (hnone : ∀ k ∈ individuals, k.valid = false) (hvalid : j.valid = true) :
    Foremost (individuals ++ [j]) individuals.length j := by
  refine ⟨individuals, [], rfl, rfl, hvalid, fun k hk hkvalid => ?_, by simp⟩
  rw [hnone k hk] at hkvalid
  cases hkvalid

end Foremost

/-- Going through individuals whose fitnesses are numbers, one keeps the first of the fittest. -/
lemma foldl_better_foremost (hnumber : Comparable individuals)
    (h : (individuals.filter Individual.valid).foldl better none = some i) :
    ∃ position, Foremost individuals position i := by
  induction individuals using List.reverseRecOn generalizing i with
  | nil => cases h
  | append_singleton individuals j ih =>
    have hseen : Comparable individuals := fun k hk => hnumber k (List.mem_append_left _ hk)
    rw [List.filter_append, List.foldl_append] at h
    cases hvalid : j.valid with
    | false =>
      rw [List.filter_singleton, hvalid] at h
      obtain ⟨position, hi⟩ := ih hseen h
      refine ⟨position, hi.append_le fun hj => ?_⟩
      rw [hvalid] at hj
      cases hj
    | true =>
      rw [List.filter_singleton, hvalid] at h
      rcases hbest : (individuals.filter Individual.valid).foldl better none with _ | b
      · rw [hbest] at h
        cases h
        refine ⟨_, Foremost.append_first (fun k hk => ?_) hvalid⟩
        have hnil := (foldl_better_eq_none_iff.mp hbest).2
        simpa using List.filter_eq_nil_iff.mp hnil k hk
      · obtain ⟨position, hb⟩ := ih hseen hbest
        rw [hbest] at h
        have hb' : b.fitness.isNaN = false := hseen b hb.mem hb.valid
        have hj' : j.fitness.isNaN = false := hnumber j (by simp) hvalid
        by_cases hle : j.fitness ≤ b.fitness
        · have hkept : better (some b) j = some b := if_pos hle
          cases hkept.symm.trans h
          exact ⟨position, hb.append_le fun _ => hle⟩
        · have htaken : better (some b) j = some j := if_neg hle
          cases htaken.symm.trans h
          exact ⟨_, hb.append_lt hvalid (Number.lt_of_not_le hj' hb' hle)⟩

/-! ### The best individual -/

/-- If the valid fitnesses are numbers, the best individual is the first of the fittest. -/
lemma best_eq_ok_iff_foremost (hnumber : Comparable p.members) :
    p.best = .ok i ↔ ∃ position, Foremost p.members position i := by
  constructor
  · intro h
    exact foldl_better_foremost hnumber (best_eq_ok_iff.mp h)
  · rintro ⟨position, hi⟩
    obtain ⟨j, hj⟩ := exists_best hi.mem hi.valid
    obtain ⟨other, hj'⟩ := foldl_better_foremost hnumber (best_eq_ok_iff.mp hj)
    rw [hj, (hi.unique hj').2]

/-- **The best individual is the first of the fittest.**  There is none exactly if there are no
individuals or none with a valid fitness, and the errors tell the two apart.  Otherwise, if the
valid fitnesses are numbers, exactly one position holds the first of the fittest, and the best
individual is the one at this position.  Individuals without a valid fitness might as well be
others, or not be there. -/
theorem best_is_first_of_greatest (p : Population V) (hnumber : Comparable p.members) :
    (p.best = .error .emptyPopulation ↔ p.members = []) ∧
    (p.best = .error .noValidIndividual ↔
      p.members ≠ [] ∧ ∀ i ∈ p.members, i.valid = false) ∧
    ((∃ i ∈ p.members, i.valid = true) → ∃ position i, p.best = .ok i ∧
      ∀ k j, Foremost p.members k j ↔ k = position ∧ j = i) ∧
    ∀ q : Population V, p.members ≠ [] → q.members ≠ [] →
      q.members.filter Individual.valid = p.members.filter Individual.valid →
      q.best = p.best := by
  refine ⟨best_eq_emptyPopulation_iff, best_eq_noValidIndividual_iff, ?_,
    fun q hp hq h => best_congr hp hq h⟩
  rintro ⟨i, hi, hvalid⟩
  obtain ⟨j, hbest⟩ := exists_best hi hvalid
  obtain ⟨position, hj⟩ := (best_eq_ok_iff_foremost hnumber).mp hbest
  refine ⟨position, j, hbest, fun k other => ⟨hj.unique, ?_⟩⟩
  rintro ⟨rfl, rfl⟩
  exact hj

/-- Four programs: the second one has a great fitness that is not valid, and the last two have zeros
of different signs. -/
def withTwoZeros : Population Bool :=
  ⟨[⟨⟨[.input "x" 0]⟩, ⟨-1, true⟩⟩, ⟨⟨[.input "y" 1]⟩, ⟨7, false⟩⟩,
    ⟨⟨[.input "x" 0]⟩, ⟨-0.0, true⟩⟩, ⟨⟨[.input "y" 1]⟩, ⟨0, true⟩⟩]⟩

/-- The best of them is the first one with a zero. -/
theorem first_zero_is_best :
    Comparable withTwoZeros.members ∧ withTwoZeros.best = .ok ⟨⟨[.input "x" 0]⟩, ⟨-0.0, true⟩⟩ := by
  have hnumber : Comparable withTwoZeros.members := by
    simp only [Comparable, withTwoZeros, List.forall_mem_cons]
    decide +kernel
  have hthird : Foremost withTwoZeros.members 2 ⟨⟨[.input "x" 0]⟩, ⟨-0.0, true⟩⟩ := by
    refine ⟨withTwoZeros.members.take 2, withTwoZeros.members.drop 3, rfl, rfl, rfl, ?_, ?_⟩
    · simp only [withTwoZeros, List.take, List.forall_mem_cons]
      decide +kernel
    · simp only [withTwoZeros, List.drop, List.forall_mem_cons]
      decide +kernel
  obtain ⟨position, i, hbest, hi⟩ :=
    (best_is_first_of_greatest withTwoZeros hnumber).2.2.1 ⟨_, hthird.mem, rfl⟩
  rw [((hi 2 _).mp hthird).2]
  exact ⟨hnumber, hbest⟩

/-! ### Fitnesses that are not numbers -/

/-- Somebody whose fitness is not a number takes any place. -/
lemma better_of_isNaN (start : Option (Individual V)) (h : i.fitness.isNaN = true) :
    better start i = some i := by
  cases start with
  | none => rfl
  | some b =>
    refine if_neg fun hle => ?_
    rw [(Number.isNaN_eq_false_of_le hle).1] at h
    cases h

/-- Somebody whose fitness is not a number gives the place up to anybody. -/
lemma better_some_of_isNaN (h : i.fitness.isNaN = true) (j : Individual V) :
    better (some i) j = better none j := by
  refine if_neg fun hle => ?_
  rw [(Number.isNaN_eq_false_of_le hle).2] at h
  cases h

/-- What stands before a valid fitness that is not a number does not matter. -/
lemma best_of_notANumber {before after : List (Individual V)}
    (hp : p.members = before ++ i :: after) (hvalid : i.valid = true) (h : i.fitness.isNaN = true) :
    p.best = if after.any Individual.valid then best ⟨after⟩ else .ok i := by
  have hfold : (p.members.filter Individual.valid).foldl better none =
      (after.filter Individual.valid).foldl better (some i) := by
    rw [hp, List.filter_append, List.filter_cons_of_pos hvalid, List.foldl_append,
      List.foldl_cons, better_of_isNaN _ h]
  cases hafter : after.filter Individual.valid with
  | nil =>
    have hnone : after.any Individual.valid = false := by
      rw [List.any_eq_false]
      exact List.filter_eq_nil_iff.mp hafter
    rw [hnone]
    rw [hafter] at hfold
    exact best_eq_ok_iff.mpr hfold
  | cons j others =>
    have hmem : j ∈ after.filter Individual.valid := hafter ▸ List.mem_cons_self
    have hj : j ∈ after := List.mem_of_mem_filter hmem
    have hvalidj : j.valid = true := List.of_mem_filter hmem
    rw [if_pos (List.any_eq_true.mpr ⟨j, hj, hvalidj⟩)]
    obtain ⟨k, hk⟩ := exists_best (p := ⟨after⟩) hj hvalidj
    rw [hk]
    rw [best_eq_ok_iff] at hk ⊢
    rw [hfold, hafter, List.foldl_cons, better_some_of_isNaN h, ← List.foldl_cons, ← hafter]
    exact hk

/-- The valid fitnesses are numbers, or there is a last one that is not. -/
lemma comparable_or_exists_last (individuals : List (Individual V)) :
    Comparable individuals ∨ ∃ before i after, individuals = before ++ i :: after ∧
      i.valid = true ∧ i.fitness.isNaN = true ∧ Comparable after := by
  induction individuals with
  | nil => exact Or.inl fun i hi => by cases hi
  | cons i individuals ih =>
    rcases ih with h | ⟨before, j, after, rfl, hj⟩
    · by_cases hi : i.valid = true → i.fitness.isNaN = false
      · exact Or.inl (List.forall_mem_cons.mpr ⟨hi, h⟩)
      · rw [Classical.not_imp, Bool.not_eq_false] at hi
        exact Or.inr ⟨[], i, individuals, rfl, hi.1, hi.2, h⟩
    · exact Or.inr ⟨i :: before, j, after, rfl, hj⟩

/-- A fitness that is a number, and at least as great as all valid ones that are numbers. -/
def Unsurpassed (individuals : List (Individual V)) (i : Individual V) : Prop :=
  i.fitness.isNaN = false ∧
    ∀ j ∈ individuals, j.valid = true → j.fitness.isNaN = false → j.fitness ≤ i.fitness

/-- The best of individuals whose fitnesses are numbers is unsurpassed. -/
lemma unsurpassed_of_best (hnumber : Comparable p.members) (h : p.best = .ok i) :
    Unsurpassed p.members i := by
  obtain ⟨position, hi⟩ := (best_eq_ok_iff_foremost hnumber).mp h
  have hi' := hnumber i hi.mem hi.valid
  exact ⟨hi', fun j hj hvalid _ => hi.fitness_le hi' hj hvalid⟩

/-- If no valid fitness after a number is anything else, the search for the best individual may
begin at some place before it, such that only numbers are seen. -/
lemma exists_best_eq {before after : List (Individual V)} (hp : p.members = before ++ i :: after)
    (hvalid : i.valid = true) (hi : i.fitness.isNaN = false) (hnumber : Comparable after) :
    ∃ passed, Comparable (passed ++ i :: after) ∧ p.best = best ⟨passed ++ i :: after⟩ := by
  have hfrom : ∀ {passed}, Comparable passed → Comparable (passed ++ i :: after) := fun hpassed =>
    List.forall_mem_append.mpr ⟨hpassed, List.forall_mem_cons.mpr ⟨fun _ => hi, hnumber⟩⟩
  rcases comparable_or_exists_last before with hbefore | ⟨seen, n, passed, rfl, hn, hnan, hpassed⟩
  · refine ⟨before, hfrom hbefore, ?_⟩
    rw [← hp]
  · refine ⟨passed, hfrom hpassed, ?_⟩
    have hsplit : p.members = seen ++ n :: (passed ++ i :: after) := by
      rw [hp, List.append_assoc, List.cons_append]
    rw [best_of_notANumber hsplit hn hnan, if_pos]
    exact List.any_eq_true.mpr ⟨i, List.mem_append_right passed List.mem_cons_self, hvalid⟩

/-- **What is not a number hides what stands before it.**  After a valid fitness that is not a
number the search for the best individual begins anew; if no valid fitness follows, the best
individual is the one whose fitness is not a number.  So the best individual is unsurpassed exactly
if an unsurpassed individual with a valid fitness stands behind all valid fitnesses that are not
numbers. -/
theorem notANumber_hides_earlier (p : Population V) :
    (∀ before i after, p.members = before ++ i :: after → i.valid = true →
      i.fitness.isNaN = true →
      p.best = if after.any Individual.valid then best ⟨after⟩ else .ok i) ∧
    ((∃ i, p.best = .ok i ∧ Unsurpassed p.members i) ↔
      ∃ before i after, p.members = before ++ i :: after ∧ i.valid = true ∧
        Unsurpassed p.members i ∧ Comparable after) := by
  refine ⟨fun before i after hp hvalid h => best_of_notANumber hp hvalid h, ?_, ?_⟩
  · rintro ⟨i, hbest, hi⟩
    have hvalid := valid_of_best hbest
    rcases comparable_or_exists_last p.members with
      hnumber | ⟨before, n, after, hp, hn, hnan, hnumber⟩
    · obtain ⟨before, after, hp⟩ := List.append_of_mem (mem_of_best hbest)
      refine ⟨before, i, after, hp, hvalid, hi, fun j hj => hnumber j ?_⟩
      rw [hp]
      exact List.mem_append_right before (List.mem_cons_of_mem i hj)
    · rw [best_of_notANumber hp hn hnan] at hbest
      split at hbest
      · have hmem : i ∈ after := mem_of_best hbest
        obtain ⟨passed, others, rfl⟩ := List.append_of_mem hmem
        refine ⟨before ++ n :: passed, i, others, ?_, hvalid, hi, fun j hj => hnumber j ?_⟩
        · rw [hp, List.append_assoc, List.cons_append]
        · exact List.mem_append_right passed (List.mem_cons_of_mem i hj)
      · cases hbest
        rw [hi.1] at hnan
        cases hnan
  · rintro ⟨before, i, after, hp, hvalid, hi, hnumber⟩
    obtain ⟨passed, hnumber, hbest⟩ := exists_best_eq hp hvalid hi.1 hnumber
    have hmem : i ∈ passed ++ i :: after := List.mem_append_right passed List.mem_cons_self
    obtain ⟨j, hj⟩ := exists_best (p := ⟨passed ++ i :: after⟩) hmem hvalid
    obtain ⟨hj', hle⟩ := unsurpassed_of_best hnumber hj
    refine ⟨j, hbest.trans hj, hj', fun k hk hkvalid hk' => ?_⟩
    exact Number.le_trans (hi.2 k hk hkvalid hk') (hle i hmem hvalid hi.1)

/-- Three programs, of which the second one has a fitness that is not a number. -/
def withNotANumber : Population Bool :=
  ⟨[⟨⟨[.input "x" 0]⟩, ⟨0.9, true⟩⟩, ⟨⟨[.input "y" 1]⟩, ⟨Float.ofBits 0x7ff8000000000000, true⟩⟩,
    ⟨⟨[.input "z" 2]⟩, ⟨0.1, true⟩⟩]⟩

/-- The best of them is the last one, though it is surpassed by the first. -/
theorem last_is_best_after_notANumber :
    withNotANumber.best = .ok ⟨⟨[.input "z" 2]⟩, ⟨0.1, true⟩⟩ ∧ ¬ (0.9 : Float) ≤ 0.1 :=
  ⟨(notANumber_hides_earlier withNotANumber).1 (withNotANumber.members.take 1) _
    (withNotANumber.members.drop 2) rfl rfl (by decide +kernel), by decide +kernel⟩

/-- A fitness that is a number, and valid, does not keep the best individual from being surpassed by
others with such a fitness. -/
theorem best_can_be_surpassed :
    ¬ ∀ p : Population Bool, (∃ i ∈ p.members, i.valid = true ∧ i.fitness.isNaN = false) →
      ∃ i, p.best = .ok i ∧ Unsurpassed p.members i := by
  intro h
  obtain ⟨i, hbest, -, hle⟩ := h withNotANumber ⟨_, List.mem_cons_self, rfl, by decide +kernel⟩
  have hsplit : withNotANumber.members = withNotANumber.members.take 1 ++
      ⟨⟨[.input "y" 1]⟩, ⟨Float.ofBits 0x7ff8000000000000, true⟩⟩ ::
        withNotANumber.members.drop 2 := rfl
  have hlast : withNotANumber.best = .ok ⟨⟨[.input "z" 2]⟩, ⟨0.1, true⟩⟩ :=
    best_of_notANumber hsplit rfl (by decide +kernel)
  cases hlast.symm.trans hbest
  exact absurd (hle _ List.mem_cons_self rfl (by decide +kernel)) (by decide +kernel)

end Population

end TreeEvolution
