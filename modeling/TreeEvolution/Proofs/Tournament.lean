import TreeEvolution.Proofs.Choices
import TreeEvolution.Proofs.Selection

/-!
# Tournaments that fail

A tournament takes the best of a random group, and the group need not have anyone with a valid
fitness.  So a selection by tournaments can fail for lack of a valid fitness although there are
individuals that have one: `Selection.tournaments_fail_iff` says exactly when it does, and that a
single individual without a valid fitness is enough for it.
-/

namespace TreeEvolution

namespace Selection

variable {σ V : Type} [WordSource σ] {p : Population V} {size count : Nat} {source rest : σ}

/-! ### Tournaments that fail -/

/-- Random picks do not lack a valid fitness. -/
lemma picks_failsOnly (p : Population V) (count : Nat) :
    Draw.FailsOnly (picks p count : Draw σ (Population V))
      fun f => f = .error .emptyPopulation ∨ f = .fault .beyondMemory := by
  unfold picks
  split
  · intro source f rest h
    cases h
    exact Or.inl rfl
  · refine Draw.FailsOnly.bind (Draw.FailsOnly.require (Or.inr rfl)) fun _ => ?_
    refine Draw.FailsOnly.bind (Draw.FailsOnly.times ?_ count) fun members => Draw.FailsOnly.pure _
    exact (Random.element_failsOnly _ _ _).bind fun _ => Draw.FailsOnly.pure _

/-- A tournament lacks a valid fitness exactly if nobody in the group that is drawn has one. -/
lemma outcome_winner_eq_noValidIndividual_iff :
    (winner p size).outcome source = (.error (.error .noValidIndividual), rest) ↔
      ∃ group, (picks p (max size 1)).outcome source = (.ok group, rest) ∧
        ∀ i ∈ group.members, i.valid = false := by
  rw [winner, Draw.outcome_bind_eq_error]
  constructor
  · rintro (h | ⟨group, between, hgroup, h⟩)
    · rcases picks_failsOnly p _ _ _ _ h with hf | hf <;> cases hf
    · rcases hbest : group.best with e | i
      · rw [hbest] at h
        cases h
        exact ⟨group, hgroup, (Population.best_eq_noValidIndividual_iff.mp hbest).2⟩
      · rw [hbest] at h
        cases h
  · rintro ⟨group, hgroup, hvalid⟩
    have hsize : group.size = max size 1 := (picks_yields p _ _ _ _ hgroup).1
    have hmembers : group.members ≠ [] := by
      rw [← List.length_pos_iff, show group.members.length = max size 1 from hsize]
      exact Nat.lt_of_lt_of_le Nat.one_pos (Nat.le_max_right size 1)
    refine Or.inr ⟨group, rest, hgroup, ?_⟩
    rw [Population.best_eq_noValidIndividual_iff.mpr ⟨hmembers, hvalid⟩]
    rfl

/-- Picks from a population of some individuals are repeated choices of one of them. -/
lemma picks_eq (h : p.members ≠ []) (count : Nat) :
    (picks p count : Draw σ (Population V)) = (do
      Draw.require (Extent.fits count) .beyondMemory
      let members ← Draw.times (do let i ← Random.element p.members h; pure i.val) count
      pure ⟨members⟩) :=
  dif_neg (by simpa using h)

/-- For some random words the same member is picked again and again. -/
lemma exists_outcome_picks {i : Individual V} (hi : i ∈ p.members)
    (hsize : p.members.length < UInt64.size) (hcount : Extent.fits count = true) :
    ∃ source rest : ListedWords,
      (picks p count).outcome source = (.ok ⟨List.replicate count i⟩, rest) := by
  have hmembers : p.members ≠ [] := List.ne_nil_of_mem hi
  obtain ⟨word, hword⟩ := Random.exists_word_element hmembers hi hsize
  have htimes : ∀ count : Nat, (Draw.times (do
      let j ← Random.element p.members hmembers
      pure j.val : Draw ListedWords (Individual V)) count).outcome
        ⟨List.replicate count word, 0⟩ = (.ok (List.replicate count i), ⟨[], 0⟩) := by
    intro count
    induction count with
    | zero => rfl
    | succ count ih =>
      obtain ⟨hmem, helement⟩ := hword (List.replicate count word) 0
      rw [Draw.times]
      refine Draw.outcome_bind_eq_ok.mpr ⟨i, _, Draw.outcome_bind_eq_ok.mpr
        ⟨⟨i, hmem⟩, _, helement, rfl⟩, ?_⟩
      exact Draw.outcome_bind_eq_ok.mpr ⟨_, _, ih, rfl⟩
  refine ⟨⟨List.replicate count word, 0⟩, ⟨[], 0⟩, ?_⟩
  rw [picks_eq hmembers, Draw.require, if_pos hcount]
  refine Draw.outcome_bind_eq_ok.mpr ⟨(), _, rfl, ?_⟩
  exact Draw.outcome_bind_eq_ok.mpr ⟨_, _, htimes count, rfl⟩

/-- Selection by tournaments fails where a tournament does. -/
lemma outcome_tournaments_eq_error_iff {f : Failure} :
    (select (.tournament size) p count).outcome source = (.error f, rest) ↔
      ∃ k < count, ∃ winners between,
        (select (.tournament size) p k).outcome source = (.ok winners, between) ∧
        (winner p size).outcome between = (.error f, rest) := by
  rw [select, Draw.outcome_bind_eq_error]
  constructor
  · rintro (h | ⟨members, between, -, h⟩)
    · obtain ⟨k, hk, members, between, hmembers, h⟩ := Draw.outcome_times_eq_error.mp h
      exact ⟨k, hk, ⟨members⟩, between,
        Draw.outcome_bind_eq_ok.mpr ⟨members, between, hmembers, rfl⟩, h⟩
    · cases h
  · rintro ⟨k, hk, winners, between, hwinners, h⟩
    obtain ⟨members, after, hmembers, hafter⟩ := Draw.outcome_bind_eq_ok.mp hwinners
    cases hafter
    exact Or.inl (Draw.outcome_times_eq_error.mpr ⟨k, hk, members, between, hmembers, h⟩)

/-- **When tournaments lack a valid fitness.**  A selection by tournaments fails for lack of a valid
fitness exactly if nobody has one in a group that is drawn after the tournaments before it have had
their winners.  For some random words this happens as soon as there is a single individual without a
valid fitness, however many others have one. -/
theorem tournaments_fail_iff (p : Population V) (size count : Nat) :
    (∀ source rest : σ, (select (.tournament size) p count).outcome source =
        (.error (.error .noValidIndividual), rest) ↔
      ∃ k < count, ∃ winners between group,
        (select (.tournament size) p k).outcome source = (.ok winners, between) ∧
        (picks p (max size 1)).outcome between = (.ok group, rest) ∧
        ∀ i ∈ group.members, i.valid = false) ∧
    (Extent.fits p.size = true → Extent.fits (max size 1) = true →
      ((∃ source rest : ListedWords, (select (.tournament size) p count).outcome source =
          (.error (.error .noValidIndividual), rest)) ↔
        0 < count ∧ ∃ i ∈ p.members, i.valid = false)) := by
  have hgroups : ∀ {τ : Type} [WordSource τ] (source rest : τ),
      (select (.tournament size) p count).outcome source =
          (.error (.error .noValidIndividual), rest) ↔
        ∃ k < count, ∃ winners between group,
          (select (.tournament size) p k).outcome source = (.ok winners, between) ∧
          (picks p (max size 1)).outcome between = (.ok group, rest) ∧
          ∀ i ∈ group.members, i.valid = false := by
    intro τ _ source rest
    simp only [outcome_tournaments_eq_error_iff, outcome_winner_eq_noValidIndividual_iff,
      exists_and_left]
  refine ⟨hgroups, fun hfits hgroup => ⟨?_, ?_⟩⟩
  · rintro ⟨source, rest, h⟩
    obtain ⟨k, hk, winners, between, group, -, hpicks, hvalid⟩ := (hgroups source rest).mp h
    refine ⟨Nat.zero_lt_of_lt hk, ?_⟩
    obtain ⟨hsize, hmem⟩ := picks_yields p _ _ _ _ hpicks
    obtain ⟨i, hi⟩ : ∃ i, i ∈ group.members := by
      rw [← List.length_pos_iff_exists_mem, show group.members.length = max size 1 from hsize]
      exact Nat.lt_of_lt_of_le Nat.one_pos (Nat.le_max_right size 1)
    exact ⟨i, hmem i hi, hvalid i hi⟩
  · rintro ⟨hcount, i, hi, hvalid⟩
    have hsize : p.members.length < UInt64.size :=
      Nat.lt_trans (of_decide_eq_true hfits) (by decide)
    obtain ⟨source, rest, hpicks⟩ := exists_outcome_picks hi hsize hgroup
    refine ⟨source, rest, (hgroups source rest).mpr ⟨0, hcount, ⟨[]⟩, source, _, rfl, hpicks, ?_⟩⟩
    intro j hj
    rw [List.eq_of_mem_replicate hj]
    exact hvalid

/-- A program with a valid fitness and one without. -/
def validAndPending : Population Bool :=
  ⟨[⟨⟨[.input "x" 0]⟩, ⟨0.5, true⟩⟩, ⟨⟨[.input "y" 1]⟩, .pending⟩]⟩

/-- A tournament between the two can fail. -/
theorem tournaments_fail_on_validAndPending :
    ∃ source rest : ListedWords, (select (.tournament 1) validAndPending 1).outcome source =
      (.error (.error .noValidIndividual), rest) :=
  ((@tournaments_fail_iff ListedWords Bool _ validAndPending 1 1).2 rfl rfl).mpr
    ⟨Nat.one_pos, _, List.mem_cons_of_mem _ List.mem_cons_self, rfl⟩

/-- Somebody with a valid fitness does not keep a tournament from failing for lack of one. -/
theorem tournament_fails_among_valid :
    ¬ ∀ (p : Population Bool) (size count : Nat) (source : ListedWords),
      (∃ i ∈ p.members, i.valid = true) →
        ∃ q rest, (select (.tournament size) p count).outcome source = (.ok q, rest) := by
  intro h
  obtain ⟨q, rest, hselect⟩ :=
    h validAndPending 1 1 ⟨[0x8000000000000000], 0⟩ ⟨_, List.mem_cons_self, rfl⟩
  cases hselect

end Selection

end TreeEvolution
