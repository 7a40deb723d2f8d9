import TreeEvolution.Proofs.Crew

/-!
# Scoring that is broken off and taken up again

A single worker goes through the pending individuals in their order, so that scoring breaks off at
the first of them for which the scorer has no score (`exists_brokenOff`).  Those before it have been
judged by then, and nobody else has changed.  To be judged once more changes nobody
(`settle_settle`).  So when the scoring is taken up again by a judge who never breaks off, the
individuals are afterwards as if there had been no interruption (`broken_scoring_is_resumed`).
-/

namespace TreeEvolution

namespace Workload

/-- A single worker has all of the work for its share. -/
lemma shares_of_le_one {n workers : Nat} (hn : n ≠ 0) (h : workers ≤ 1) :
    shares n workers = [(0, n)] := by
  have hcount : workersFor n workers = 0 + 1 := by
    unfold workersFor
    omega
  rw [shares_eq_append hcount, Nat.zero_mul]
  rfl

end Workload

namespace Scoring

variable {V : Type} {scorer : Scorer V} {judge : Program V → Score}
  {individuals before after : List (Individual V)} {i : Individual V} {f : Fault}

/-! ### A single worker -/

/-- The pending individuals get back to the places from which they were taken. -/
lemma refill_pending (individuals : List (Individual V)) :
    refill individuals (pending individuals) = individuals := by
  induction individuals with
  | nil => rfl
  | cons i individuals ih =>
    cases hvalid : i.valid with
    | true => rw [pending_of_valid hvalid, refill_of_valid hvalid, ih]
    | false => rw [pending_of_not_valid hvalid, refill_of_not_valid hvalid, ih]

/-- If scoring by a single worker is broken off, then it is the worker who breaks off. -/
lemma work_of_count_eq_error {workers : Nat} (hworkers : workers ≤ 1)
    (h : (score scorer workers individuals).count = .error f) :
    (work scorer (pending individuals)).fault? = some f ∧
      (score scorer workers individuals).individuals =
        refill individuals (work scorer (pending individuals)).individuals := by
  by_cases hnone : (pending individuals).length = 0
  · have hscore : score scorer workers individuals = ⟨individuals, .ok 0, []⟩ :=
      if_pos (Workload.isEmpty_shares_iff.mpr hnone)
    rw [hscore] at h
    cases h
  · have hscore : score scorer workers individuals = ⟨_, _, _⟩ :=
      if_neg (mt Workload.isEmpty_shares_iff.mp hnone)
    have hpiece : Workload.cut (([(0, (pending individuals).length)]).map Workload.shareSize)
        (pending individuals) = [pending individuals] := by
      simp [Workload.cut, Workload.shareSize]
    rw [hscore, Workload.shares_of_le_one hnone hworkers, hpiece] at h ⊢
    rw [List.map_singleton, List.flatMap_singleton] at h ⊢
    refine ⟨?_, rfl⟩
    dsimp only at h
    rcases hfault : (work scorer (pending individuals)).fault? with _ | g
    · rw [List.findSome?_singleton, hfault] at h
      cases h
    · rw [List.findSome?_singleton, hfault] at h
      cases h
      rfl

/-- The place at which scoring by a single worker is broken off. -/
structure BrokenOff (scorer : Scorer V) (f : Fault) (individuals before : List (Individual V))
    (i : Individual V) (after : List (Individual V)) : Prop where
  /-- There are individuals before the place and others after it. -/
  individuals_eq : individuals = before ++ i :: after
  /-- The individual at the place is pending. -/
  valid_eq_false : i.valid = false
  /-- The scorer breaks off on its program. -/
  fault : scorer i.code = .error f
  /-- On the programs of pending individuals before the place it does not break off. -/
  scored : ∀ j ∈ before, j.valid = false → ∃ s, scorer j.code = .ok s

/-- One more individual that is valid, or that has a score, may come first. -/
lemma BrokenOff.cons (h : BrokenOff scorer f individuals before i after) {j : Individual V}
    (hj : j.valid = false → ∃ s, scorer j.code = .ok s) :
    BrokenOff scorer f (j :: individuals) (j :: before) i after where
  individuals_eq := by rw [h.individuals_eq, List.cons_append]
  valid_eq_false := h.valid_eq_false
  fault := h.fault
  scored := List.forall_mem_cons.mpr ⟨hj, h.scored⟩

/-- A worker who breaks off does so at the first pending individual without a score.  Those before
it have been judged, and the others are as they were. -/
lemma exists_brokenOff (h : (work scorer (pending individuals)).fault? = some f) :
    ∃ before i after judged, BrokenOff scorer f individuals before i after ∧
      List.Forall₂ (Judged scorer) before judged ∧
      refill individuals (work scorer (pending individuals)).individuals =
        judged ++ i :: after := by
  -- The worker sees the pending individuals only; the induction is on all of them, since those who
  -- are valid stand between the others.
  induction individuals with
  | nil => cases h
  | cons j individuals ih =>
    cases hvalid : j.valid with
    | true =>
      rw [pending_of_valid hvalid] at h ⊢
      obtain ⟨before, i, after, judged, hbroken, hjudged, hrefill⟩ := ih h
      have hkept : Judged scorer j j := by
        rw [Judged, if_pos hvalid]
      refine ⟨j :: before, i, after, j :: judged, hbroken.cons fun hfalse => ?_,
        .cons hkept hjudged, ?_⟩
      · rw [hvalid] at hfalse
        cases hfalse
      · rw [refill_of_valid hvalid, hrefill, List.cons_append]
    | false =>
      rw [pending_of_not_valid hvalid, work] at h ⊢
      rcases hscore : scorer j.code with g | s
      · rw [hscore] at h
        cases h
        have hbroken : BrokenOff scorer f (j :: individuals) [] j individuals :=
          ⟨rfl, hvalid, hscore, fun _ hmem => by cases hmem⟩
        refine ⟨[], j, individuals, [], hbroken, .nil, ?_⟩
        rw [refill_of_not_valid hvalid, refill_pending, List.nil_append]
      · rw [hscore] at h
        obtain ⟨before, i, after, judged, hbroken, hjudged, hrefill⟩ := ih h
        have hscored : Judged scorer j { j with score := s } := by
          rw [Judged, hvalid]
          exact ⟨s, hscore, rfl⟩
        refine ⟨j :: before, i, after, _ :: judged, hbroken.cons fun _ => ⟨s, hscore⟩,
          .cons hscored hjudged, ?_⟩
        rw [refill_of_not_valid hvalid, hrefill, List.cons_append]

/-! ### Judges who take over -/

/-- To be judged once more changes nobody. -/
lemma settle_settle (judge : Program V → Score) (i : Individual V) :
    settle judge (settle judge i) = settle judge i := by
  by_cases hvalid : i.valid = true
  · rw [settle, settle, if_pos hvalid, if_pos hvalid]
  · have hsettle : settle judge i = { i with score := judge i.code } := if_neg hvalid
    rw [hsettle, settle]
    split <;> rfl

/-- A judge whose scores are all valid leaves nobody pending. -/
lemma valid_settle (h : ∀ p, (judge p).valid = true) (i : Individual V) :
    (settle judge i).valid = true := by
  unfold settle
  split
  · assumption
  · exact h i.code

/-- Individuals are judged by a scorer who agrees with a judge as they are by the judge. -/
lemma eq_map_settle_of_agrees (hscorer : ∀ p s, scorer p = .ok s → s = judge p)
    (h : List.Forall₂ (Judged scorer) before after) : after = before.map (settle judge) := by
  refine eq_map_settle_of_judged (h.imp fun i j hij => ?_)
  unfold Judged at hij ⊢
  split
  · rwa [if_pos ‹_›] at hij
  · rw [if_neg ‹_›] at hij
    obtain ⟨s, hs, rfl⟩ := hij
    exact ⟨s, congrArg Except.ok (hscorer _ s hs).symm, rfl⟩

/-- **Resumption.**  A scorer who agrees with a judge wherever he has a score, and has a single
worker, breaks off at the first pending individual for which he has none.  By then the pending
individuals before it have their scores by the judge, and all others are as they were.  The judge
can take over with any number of workers, and the individuals are afterwards as if he had scored
them from the beginning.  If all his scores are valid, the scores that were made before the
interruption and those that he makes are together as many as there were pending individuals. -/
theorem broken_scoring_is_resumed (hscorer : ∀ p s, scorer p = .ok s → s = judge p) {workers : Nat}
    (hworkers : workers ≤ 1) (h : (score scorer workers individuals).count = .error f)
    (others : Nat) :
    ∃ before i after, BrokenOff scorer f individuals before i after ∧
      (score scorer workers individuals).individuals = before.map (settle judge) ++ i :: after ∧
      (score (fun p => .ok (judge p)) others
          (score scorer workers individuals).individuals).individuals =
        (score (fun p => .ok (judge p)) workers individuals).individuals ∧
      ∃ count,
        (score (fun p => .ok (judge p)) others
          (score scorer workers individuals).individuals).count = .ok count ∧
        ((∀ p, (judge p).valid = true) →
          count + (pending before).length = (pending individuals).length) := by
  obtain ⟨hfault, hindividuals⟩ := work_of_count_eq_error hworkers h
  obtain ⟨before, i, after, judged, hbroken, hjudged, hrefill⟩ := exists_brokenOff hfault
  rw [eq_map_settle_of_agrees hscorer hjudged] at hrefill
  rw [hindividuals, hrefill]
  refine ⟨before, i, after, hbroken, rfl, ?_, _, count_score_judge judge others _, fun hvalid => ?_⟩
  · rw [individuals_score_judge, individuals_score_judge, hbroken.individuals_eq, List.map_append,
      List.map_append, List.map_map]
    congr 1
    exact List.map_congr_left fun j _ => settle_settle judge j
  · have hdone : (before.map (settle judge)).countP (fun j => !j.valid) = 0 := by
      rw [List.countP_eq_zero]
      intro j hj
      obtain ⟨k, -, rfl⟩ := List.mem_map.mp hj
      rw [valid_settle hvalid]
      decide
    rw [hbroken.individuals_eq, pending, pending, ← List.countP_eq_length_filter,
      ← List.countP_eq_length_filter, List.countP_append, List.countP_append, hdone]
    omega

/-- A judge who gives everybody a valid fitness of one. -/
def alwaysOne : Program Bool → Score := fun _ => ⟨1, true⟩

/-- A scorer who agrees with this judge about single leaves, and breaks off on anything else. -/
def leavesOnly : Scorer Bool :=
  fun p => if p.size ≤ 1 then .ok (alwaysOne p) else .error .notReduced

/-- The scorer breaks off at the last of the three individuals.  The judge takes over with two
workers, and scores this last one only. -/
theorem middleScored_is_resumed :
    (score leavesOnly 1 middleScored).count = .error .notReduced ∧
      ∃ before i after, BrokenOff leavesOnly .notReduced middleScored before i after ∧
        (score (fun p => .ok (alwaysOne p)) 2
            (score leavesOnly 1 middleScored).individuals).individuals =
          (score (fun p => .ok (alwaysOne p)) 1 middleScored).individuals ∧
        ∃ count, (score (fun p => .ok (alwaysOne p)) 2
            (score leavesOnly 1 middleScored).individuals).count =
          .ok count ∧ count + (pending before).length = 2 := by
  have hagrees : ∀ p s, leavesOnly p = .ok s → s = alwaysOne p := by
    intro p s hs
    unfold leavesOnly at hs
    split at hs <;> cases hs
    rfl
  have hfault : (score leavesOnly 1 middleScored).count = .error .notReduced := rfl
  obtain ⟨before, i, after, hbroken, -, hresumed, count, hcount, htotal⟩ :=
    broken_scoring_is_resumed hagrees (Nat.le_refl 1) hfault 2
  exact ⟨hfault, before, i, after, hbroken, hresumed, count, hcount, htotal fun _ => rfl⟩

end Scoring

end TreeEvolution
