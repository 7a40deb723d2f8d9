import Mathlib.Data.List.Forall2
import TreeEvolution.Proofs.Tournament

/-!
# Who wins a tournament

Selecting comes down to drawing positions of the population, one after the other.  Tournaments cut
the positions into blocks of equal length and take the first of the fittest of each block
(`Selection.tournaments_take_first_of_greatest`); blocks of one position leave no choice, and then
tournaments are uniform picks (`Selection.tournament_of_one_is_uniform`).
-/

namespace TreeEvolution

variable {σ V α β : Type}

namespace Draw

/-! ### Repeated draws -/

/-- Repeated draws with something done to each value. -/
lemma times_map (draw : Draw σ α) (f : α → β) (count : Nat) :
    times (do let a ← draw; pure (f a)) count =
      (do let values ← times draw count; pure (values.map f)) := by
  induction count with
  | zero => rfl
  | succ count ih =>
    rw [times, times, ih]
    simp only [bind_assoc, pure_bind, List.map_cons]

/-- More draws are draws and others after them. -/
lemma times_add (draw : Draw σ α) (count more : Nat) :
    times draw (count + more) =
      (do
        let values ← times draw count
        let others ← times draw more
        pure (values ++ others)) := by
  induction count with
  | zero =>
    rw [Nat.zero_add, times]
    simp only [pure_bind, List.nil_append, bind_pure]
  | succ count ih =>
    rw [Nat.succ_add, times, times, ih]
    simp only [bind_assoc, pure_bind, List.cons_append]

/-- Blocks of draws are draws one after the other. -/
lemma flatten_times_times (draw : Draw σ α) (size count : Nat) :
    (do let blocks ← times (times draw size) count; pure blocks.flatten) =
      times draw (count * size) := by
  induction count with
  | zero =>
    rw [Nat.zero_mul]
    rfl
  | succ count ih =>
    rw [Nat.succ_mul, Nat.add_comm (count * size), times_add draw size, ← ih, times]
    simp only [bind_assoc, pure_bind, List.flatten_cons]

/-- Blocks of one length have been drawn exactly if their entries have, one after the other. -/
lemma outcome_times_times_eq_ok_iff {draw : Draw σ α} {size count : Nat} {blocks : List (List α)}
    {source rest : σ} :
    (times (times draw size) count).outcome source = (.ok blocks, rest) ↔
      (times draw (count * size)).outcome source = (.ok blocks.flatten, rest) ∧
        blocks.length = count ∧ ∀ block ∈ blocks, block.length = size := by
  have hlengths : Yields (times (times draw size) count) fun blocks =>
      blocks.length = count ∧ ∀ block ∈ blocks, block.length = size :=
    (((Yields.trivial draw).times size).mono fun _ hblock => hblock.1).times count
  rw [← flatten_times_times, outcome_bind_eq_ok]
  constructor
  · intro h
    exact ⟨⟨blocks, rest, h, rfl⟩, hlengths _ _ _ h⟩
  · rintro ⟨⟨drawn, between, hdrawn, hflatten⟩, hcount, hsize⟩
    rw [outcome_pure, Prod.mk.injEq, Except.ok.injEq] at hflatten
    obtain ⟨hflatten, rfl⟩ := hflatten
    obtain ⟨hcount', hsize'⟩ := hlengths _ _ _ hdrawn
    -- lists of blocks of one length are the same if their entries are
    have hsame : drawn.map List.length = blocks.map List.length := by
      rw [List.map_eq_replicate_iff.mpr hsize, List.map_eq_replicate_iff.mpr hsize', hcount,
        hcount']
    rw [← List.eq_iff_flatten_eq.mpr ⟨hflatten, hsame⟩]
    exact hdrawn

/-- If a draw has a value exactly if another one has a related value, then repeated draws have
values exactly if the others have, and the values are related one by one. -/
lemma outcome_times_eq_ok_iff {draw : Draw σ α} {other : Draw σ β} {R : β → α → Prop}
    (h : ∀ source a rest, draw.outcome source = (.ok a, rest) ↔
      ∃ b, other.outcome source = (.ok b, rest) ∧ R b a)
    {count : Nat} {values : List α} {source rest : σ} :
    (times draw count).outcome source = (.ok values, rest) ↔
      ∃ others, (times other count).outcome source = (.ok others, rest) ∧
        List.Forall₂ R others values := by
  induction count generalizing source values rest with
  | zero =>
    constructor
    · intro hvalues
      cases hvalues
      exact ⟨[], rfl, .nil⟩
    · rintro ⟨others, hothers, hrelated⟩
      cases hothers
      cases hrelated
      rfl
  | succ count ih =>
    simp only [times, outcome_bind_eq_ok, h, ih]
    constructor
    · rintro ⟨a, between, ⟨b, hb, hab⟩, tail, after, ⟨others, hothers, hrelated⟩, hvalues⟩
      cases hvalues
      exact ⟨b :: others, ⟨b, between, hb, others, rest, hothers, rfl⟩, .cons hab hrelated⟩
    · rintro ⟨_, ⟨b, between, hb, others, after, hothers, hall⟩, hrelated⟩
      cases hall
      cases hrelated with
      | cons hab hrelated =>
        exact ⟨_, between, ⟨b, hb, hab⟩, _, rest, ⟨others, hothers, hrelated⟩, rfl⟩

end Draw

namespace Selection

variable [WordSource σ] {p : Population V} {size count : Nat} {source rest : σ}

/-! ### Positions -/

/-- Uniformly random positions of a population, drawn one after the other. -/
def positions (p : Population V) (hp : p.members ≠ []) (count : Nat) :
    Draw σ (List (Fin p.members.length)) :=
  Draw.times (Random.below p.members.length (List.length_pos_iff.mpr hp)) count

/-- Picks are the individuals at random positions. -/
lemma picks_eq_positions (hp : p.members ≠ []) (count : Nat) :
    (picks p count : Draw σ (Population V)) = (do
      Draw.require (Extent.fits count) .beyondMemory
      let draws ← positions p hp count
      pure ⟨draws.map p.members.get⟩) := by
  have hpick : (do let i ← Random.element p.members hp; pure i.val : Draw σ (Individual V)) =
      (do let d ← Random.below p.members.length (List.length_pos_iff.mpr hp)
          pure (p.members.get d)) := by
    rw [Random.element, bind_assoc]
    rfl
  rw [picks_eq hp, hpick, Draw.times_map, positions]
  simp only [bind_assoc, pure_bind]

/-- In a block of draws, a position is the first one with an individual of greatest valid
fitness. -/
def Wins (p : Population V) (block : List (Fin p.members.length)) (d : Fin p.members.length) :
    Prop :=
  ∃ k, block[k]? = some d ∧
    Population.Foremost (block.map p.members.get) k (p.members.get d)

/-- If the valid fitnesses are numbers, the best of a group is the individual at the position that
wins the block. -/
lemma best_map_get_eq_ok_iff (hnumber : Population.Comparable p.members)
    {block : List (Fin p.members.length)} {i : Individual V} :
    Population.best ⟨block.map p.members.get⟩ = .ok i ↔
      ∃ d, Wins p block d ∧ p.members.get d = i := by
  have hblock : Population.Comparable (block.map p.members.get) := by
    intro j hj
    obtain ⟨d, -, rfl⟩ := List.mem_map.mp hj
    exact hnumber _ (List.get_mem p.members d)
  rw [Population.best_eq_ok_iff_foremost hblock]
  constructor
  · rintro ⟨k, hk⟩
    obtain ⟨d, hd, rfl⟩ := Option.map_eq_some_iff.mp (List.getElem?_map.symm.trans hk.getElem?_eq)
    exact ⟨d, ⟨k, hd, hk⟩, rfl⟩
  · rintro ⟨d, ⟨k, -, hk⟩, rfl⟩
    exact ⟨k, hk⟩

/-! ### Winners -/

/-- A tournament has a winner exactly if its group can be drawn and has a best individual. -/
lemma outcome_winner_eq_ok_iff (hp : p.members ≠ []) {i : Individual V} :
    (winner p size).outcome source = (.ok i, rest) ↔
      ∃ block, (positions p hp (max size 1)).outcome source = (.ok block, rest) ∧
        Extent.fits (max size 1) = true ∧ Population.best ⟨block.map p.members.get⟩ = .ok i := by
  rw [winner, picks_eq_positions hp, Draw.require]
  cases hfits : Extent.fits (max size 1) with
  | false =>
    constructor
    · intro h
      cases h
    · rintro ⟨_, _, h, _⟩
      cases h
  | true =>
    simp only [if_pos, pure_bind, bind_assoc, true_and]
    rw [Draw.outcome_bind_eq_ok]
    constructor
    · rintro ⟨block, between, hblock, h⟩
      rcases hbest : Population.best ⟨block.map p.members.get⟩ with e | j
      · rw [hbest] at h
        cases h
      · rw [hbest] at h
        cases h
        exact ⟨block, hblock, hbest⟩
    · rintro ⟨block, hblock, hbest⟩
      refine ⟨block, rest, hblock, ?_⟩
      rw [hbest]
      rfl

/-- Whoever wins a tournament has a valid fitness. -/
lemma winner_yields_valid (p : Population V) (size : Nat) :
    Draw.Yields (winner p size : Draw σ (Individual V)) fun i => i.valid = true := by
  refine Draw.Yields.bind_any fun group => ?_
  rcases hbest : group.best with e | i
  · exact Draw.Yields.error e
  · exact Draw.Yields.pure (Population.valid_of_best hbest)

/-- Selection by tournaments has winners of blocks of positions for its values. -/
lemma outcome_tournaments_eq_ok_iff (hp : p.members ≠ []) {q : Population V} :
    (select (.tournament size) p count).outcome source = (.ok q, rest) ↔
      ∃ blocks : List (List (Fin p.members.length)),
        (Draw.times (positions p hp (max size 1)) count).outcome source = (.ok blocks, rest) ∧
        List.Forall₂ (fun block i => Extent.fits (max size 1) = true ∧
          Population.best ⟨block.map p.members.get⟩ = .ok i) blocks q.members := by
  rw [← Draw.outcome_times_eq_ok_iff (fun _ _ _ => outcome_winner_eq_ok_iff hp), select,
    Draw.outcome_bind_eq_ok]
  constructor
  · rintro ⟨members, between, hmembers, hq⟩
    cases hq
    exact hmembers
  · intro h
    exact ⟨q.members, rest, h, rfl⟩

/-- **Tournaments are won by the first of the fittest of each block.**  Who is selected has a valid
fitness, and there are as many as were asked for.  If the valid fitnesses are numbers, tournaments
select exactly those whose positions win the blocks into which the positions that are drawn are cut:
one block for each tournament, and in it one position for each entrant. -/
theorem tournaments_take_first_of_greatest (p : Population V)
    (hnumber : Population.Comparable p.members) (size count : Nat) (source rest : σ)
    (q : Population V) :
    ((select (.tournament size) p count).outcome source = (.ok q, rest) →
      q.size = count ∧ (0 < count → p.members ≠ []) ∧ ∀ i ∈ q.members, i.valid = true) ∧
    ∀ hp : p.members ≠ [],
      (select (.tournament size) p count).outcome source = (.ok q, rest) ↔
        (0 < count → Extent.fits (max size 1) = true) ∧
        ∃ blocks : List (List (Fin p.members.length)),
          (positions p hp (count * max size 1)).outcome source = (.ok blocks.flatten, rest) ∧
          blocks.length = count ∧ (∀ block ∈ blocks, block.length = max size 1) ∧
          List.Forall₂ (fun block i => ∃ d, Wins p block d ∧ p.members.get d = i)
            blocks q.members := by
  constructor
  · intro h
    obtain ⟨hsize, hmem⟩ := select_yields (.tournament size) p count source q rest h
    refine ⟨hsize, fun hcount => ?_, ?_⟩
    · obtain ⟨i, hi⟩ := List.length_pos_iff_exists_mem.mp (hsize.symm ▸ hcount)
      exact List.ne_nil_of_mem (hmem i hi)
    · obtain ⟨members, between, hmembers, hq⟩ := Draw.outcome_bind_eq_ok.mp h
      cases hq
      exact ((winner_yields_valid p size).times count source members _ hmembers).2
  · intro hp
    rw [outcome_tournaments_eq_ok_iff hp]
    simp only [List.forall₂_and_left, best_map_get_eq_ok_iff hnumber, positions,
      Draw.outcome_times_times_eq_ok_iff]
    constructor
    · rintro ⟨blocks, ⟨hdraws, hcount, hsize⟩, hfits, hwins⟩
      refine ⟨fun hpos => ?_, blocks, hdraws, hcount, hsize, hwins⟩
      obtain ⟨block, hblock⟩ := List.length_pos_iff_exists_mem.mp (hcount.symm ▸ hpos)
      exact hfits block hblock
    · rintro ⟨hfits, blocks, hdraws, hcount, hsize, hwins⟩
      refine ⟨blocks, ⟨hdraws, hcount, hsize⟩, fun block hblock => hfits ?_, hwins⟩
      rw [← hcount]
      exact List.length_pos_of_mem hblock

/-- In a tournament of two a program with a fitness below zero wins against one without a valid
fitness, and in the next one the zero that is drawn first wins against the other. -/
theorem zero_drawn_first_wins :
    Population.Comparable Population.withTwoZeros.members ∧
    ∃ rest : ListedWords, (select (.tournament 2) Population.withTwoZeros 2).outcome
      ⟨[0x4000000000000000, 0, 0xc000000000000000, 0x8000000000000000], 0⟩ =
        (.ok ⟨[⟨⟨[.input "x" 0]⟩, ⟨-1, true⟩⟩, ⟨⟨[.input "y" 1]⟩, ⟨0, true⟩⟩]⟩, rest) := by
  have hnumber : Population.Comparable Population.withTwoZeros.members := by
    simp only [Population.Comparable, Population.withTwoZeros, List.forall_mem_cons]
    decide +kernel
  have hfirst : Wins Population.withTwoZeros [(1 : Fin 4), (0 : Fin 4)] (0 : Fin 4) := by
    refine ⟨1, rfl, [_], [], rfl, rfl, rfl, ?_, List.forall_mem_nil _⟩
    simp only [List.forall_mem_singleton]
    decide +kernel
  have hsecond : Wins Population.withTwoZeros [(3 : Fin 4), (2 : Fin 4)] (3 : Fin 4) := by
    refine ⟨0, rfl, [], [_], rfl, rfl, rfl, List.forall_mem_nil _, ?_⟩
    simp only [List.forall_mem_singleton]
    decide +kernel
  refine ⟨hnumber, ⟨[], 0⟩, ?_⟩
  refine ((tournaments_take_first_of_greatest Population.withTwoZeros hnumber 2 2 _ _ _).2
    (List.cons_ne_nil _ _)).mpr
      ⟨fun _ => rfl, [[(1 : Fin 4), (0 : Fin 4)], [(3 : Fin 4), (2 : Fin 4)]], rfl, rfl,
        by decide, ?_⟩
  exact .cons ⟨_, hfirst, rfl⟩ (.cons ⟨_, hsecond, rfl⟩ .nil)

/-! ### Tournaments of one -/

/-- The best of one individual with a valid fitness is this one. -/
lemma best_singleton {i : Individual V} (hvalid : i.valid = true) :
    Population.best ⟨[i]⟩ = .ok i := by
  rw [Population.best_eq_ok_iff, List.filter_cons_of_pos hvalid]
  rfl

/-- If everyone has a valid fitness, the winner of a tournament of one is whoever is drawn. -/
lemma winner_of_one (hp : p.members ≠ []) (hvalid : ∀ i ∈ p.members, i.valid = true)
    (hsize : size ≤ 1) :
    (winner p size : Draw σ (Individual V)) = (do
      let d ← Random.below p.members.length (List.length_pos_iff.mpr hp)
      pure (p.members.get d)) := by
  rw [winner, Nat.max_eq_right hsize, picks_eq_positions hp, positions, Draw.times, Draw.times,
    Draw.require, if_pos (show Extent.fits 1 = true from rfl)]
  simp only [pure_bind, bind_assoc, List.map_cons, List.map_nil,
    best_singleton (hvalid _ (List.get_mem p.members _))]

/-- If everyone has a valid fitness, uniform selection selects what tournaments of one do, after it
has made sure that a list can hold what is selected. -/
lemma uniform_eq_tournament_of_one (hp : p.members ≠ [])
    (hvalid : ∀ i ∈ p.members, i.valid = true) (hsize : size ≤ 1) :
    (select .uniform p count : Draw σ (Population V)) = (do
      Draw.require (Extent.fits count) .beyondMemory
      select (.tournament size) p count) := by
  rw [select, picks_eq_positions hp, select, winner_of_one hp hvalid hsize, Draw.times_map,
    positions]
  simp only [bind_assoc, pure_bind]

/-- **Tournaments of one are uniform picks.**  If there are individuals and all of them have a valid
fitness, be it a number or not, then tournaments with one entrant, or with none, select some
individuals, and uniform selection selects the same ones and leaves the source in the same state.
Only if no list can hold them all it does not begin. -/
theorem tournament_of_one_is_uniform (hp : p.members ≠ [])
    (hvalid : ∀ i ∈ p.members, i.valid = true) (hsize : size ≤ 1) (count : Nat) (source : σ) :
    ∃ q rest, (select (.tournament size) p count).outcome source = (.ok q, rest) ∧
      (select .uniform p count).outcome source =
        if Extent.fits count then (.ok q, rest)
        else (.error (.fault .beyondMemory), source) := by
  have hlasts : Draw.FailsOnly (select (.tournament size) p count : Draw σ (Population V))
      fun _ => False := by
    rw [select, winner_of_one hp hvalid hsize]
    exact (((Random.below_failsOnly _ _ _).bind fun _ => Draw.FailsOnly.pure _).times count).bind
      fun _ => Draw.FailsOnly.pure _
  obtain ⟨q, rest, hq⟩ := hlasts.exists_outcome_eq_ok source
  refine ⟨q, rest, hq, ?_⟩
  rw [uniform_eq_tournament_of_one hp hvalid hsize, Draw.require]
  cases Extent.fits count with
  | false => rfl
  | true => exact hq

/-- It makes no difference among three programs of which one has a fitness that is not a number. -/
theorem tournament_of_none_is_uniform_with_notANumber :
    Population.withNotANumber.members ≠ [] ∧
      (∀ i ∈ Population.withNotANumber.members, i.valid = true) ∧
    ∃ (q : Population Bool) (rest : ListedWords),
      (select (.tournament 0) Population.withNotANumber 2).outcome ⟨[0x8000000000000000], 0⟩ =
        (.ok q, rest) ∧
      (select .uniform Population.withNotANumber 2).outcome ⟨[0x8000000000000000], 0⟩ =
        (.ok q, rest) := by
  have hsome : Population.withNotANumber.members ≠ [] := List.cons_ne_nil _ _
  have hvalid : ∀ i ∈ Population.withNotANumber.members, i.valid = true := by decide
  exact ⟨hsome, hvalid, tournament_of_one_is_uniform hsome hvalid (Nat.zero_le 1) 2 _⟩

end Selection

end TreeEvolution
