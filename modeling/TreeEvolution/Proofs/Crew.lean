import Mathlib.Data.List.Basic
import TreeEvolution.Proofs.Scoring
import TreeEvolution.Symbol.Boolean

/-!
# Workers that take turns

`Scoring.score` lets each worker finish its share before the next one begins.  Here the workers of
a `Crew` are at work on one list of individuals side by side.  Each of them goes through the
positions of its share in order, and at each position it takes two turns: it has the scorer look at
the program there, and later it enters the score that it got.  A schedule says whose turn it is, one
worker after the other, and is free to do so in any order.

`Crew.OnTheWay` is the invariant of all schedules.  What is entered is exactly what is not open any
more, no position is open twice, and every pending position has been shown to the scorer or waits
for it, but not both.  At the end nothing is open, so that the individuals are those of `score`,
whatever the schedule was (`every_schedule_agrees`).
-/

namespace TreeEvolution.Scoring

variable {V : Type}

/-! ### Scoring individual by individual -/

/-- An individual after scoring by a judge that never breaks off: a valid one is left as it is. -/
def settle (judge : Program V → Score) (i : Individual V) : Individual V :=
  if i.valid then i else { i with score := judge i.code }

/-- The positions of the pending individuals, in order. -/
def pendingPositions (individuals : List (Individual V)) : List Nat :=
  individuals.findIdxs fun i => !i.valid

/-- There is a pending individual at each of the positions. -/
lemma mem_pendingPositions {individuals : List (Individual V)} {k : Nat} :
    k ∈ pendingPositions individuals ↔ ∃ i, individuals[k]? = some i ∧ i.valid = false := by
  rw [pendingPositions, List.mem_findIdxs_iff_exists_getElem_pos]
  constructor
  · rintro ⟨hk, hvalid⟩
    exact ⟨individuals[k], List.getElem?_eq_getElem hk, by simpa using hvalid⟩
  · rintro ⟨i, hi, hvalid⟩
    obtain ⟨hk, rfl⟩ := List.getElem?_eq_some_iff.mp hi
    exact ⟨hk, by simpa using hvalid⟩

/-- What a judge makes of individuals is settled. -/
lemma eq_map_settle_of_judged {judge : Program V → Score} {before after : List (Individual V)}
    (h : List.Forall₂ (Judged fun p => .ok (judge p)) before after) :
    after = before.map (settle judge) := by
  induction h with
  | nil => rfl
  | cons hij _ ih =>
    rw [List.map_cons, ← ih]
    congr 1
    unfold Judged at hij
    unfold settle
    split at hij
    · rw [if_pos ‹_›]
      exact hij
    · obtain ⟨s, hs, rfl⟩ := hij
      cases hs
      rw [if_neg ‹_›]

/-- Scoring by a judge ends, and the count is the number of pending individuals. -/
lemma count_score_judge (judge : Program V → Score) (workers : Nat)
    (individuals : List (Individual V)) :
    (score (fun p => .ok (judge p)) workers individuals).count =
      .ok (individuals.countP fun i => !i.valid) := by
  obtain ⟨count, hcount⟩ : ∃ count,
      (score (fun p => .ok (judge p)) workers individuals).count = .ok count :=
    exists_count_eq_ok (fun i _ => ⟨judge i.code, rfl⟩) workers
  rw [hcount, (score_judged hcount).2, pending, List.countP_eq_length_filter]

/-- Scoring by a judge settles every individual. -/
lemma individuals_score_judge (judge : Program V → Score) (workers : Nat)
    (individuals : List (Individual V)) :
    (score (fun p => .ok (judge p)) workers individuals).individuals =
      individuals.map (settle judge) :=
  eq_map_settle_of_judged (score_judged (count_score_judge judge workers individuals)).1

/-! ### Crews -/

/-- A worker with a share of positions. -/
structure Worker where
  /-- The positions that it has not come to. -/
  waiting : List Nat
  /-- The position it is at, with the score that it has got there. -/
  held : Option (Nat × Score) := none

namespace Worker

/-- The positions of a worker for which it has not entered a score. -/
def unentered (w : Worker) : List Nat :=
  (w.held.map Prod.fst).toList ++ w.waiting

/-- A worker has nothing to do any more. -/
def Done (w : Worker) : Prop :=
  w.waiting = [] ∧ w.held = none

/-- Whoever has nothing to do has entered all scores. -/
lemma done_iff {w : Worker} : w.Done ↔ w.unentered = [] := by
  rw [Done, unentered, List.append_eq_nil_iff, Option.toList_eq_nil_iff, Option.map_eq_none_iff,
    and_comm]

end Worker

/-- Workers at work on a list of individuals. -/
structure Crew (V : Type) where
  /-- The individuals as they are now. -/
  individuals : List (Individual V)
  /-- The workers. -/
  workers : List Worker
  /-- The positions that were shown to the scorer, in the order of time. -/
  calls : List Nat

namespace Crew

/-- Workers before their first turn.  The pending positions are cut into one share for each. -/
def assemble (workers : Nat) (individuals : List (Individual V)) : Crew V :=
  let positions := pendingPositions individuals
  let sizes := (Workload.shares positions.length workers).map Workload.shareSize
  ⟨individuals, (Workload.cut sizes positions).map fun share => { waiting := share }, []⟩

/-- The turn of a worker.  It enters the score that it holds, or else it has the judge look at the
program at the next position of its share.  A worker that has nothing to do has no turn. -/
def turn (judge : Program V → Score) (c : Crew V) (position : Nat) : Option (Crew V) :=
  match c.workers[position]? with
  | some ⟨waiting, some (k, s)⟩ =>
    some { c with
      individuals := c.individuals.modify k fun i => { i with score := s }
      workers := c.workers.set position ⟨waiting, none⟩ }
  | some ⟨k :: waiting, none⟩ =>
    c.individuals[k]?.map fun i => { c with
      workers := c.workers.set position ⟨waiting, some (k, judge i.code)⟩
      calls := c.calls ++ [k] }
  | _ => none

/-- The crew after the turns of a schedule. -/
def follow (judge : Program V → Score) (c : Crew V) (schedule : List Nat) : Option (Crew V) :=
  schedule.foldlM (turn judge) c

/-- The positions for which no score has been entered. -/
def unentered (c : Crew V) : List Nat :=
  c.workers.flatMap Worker.unentered

/-- The positions that nobody has come to. -/
def waiting (c : Crew V) : List Nat :=
  c.workers.flatMap Worker.waiting

/-- The number of turns that the workers have before them: one for each position they have not come
to, and one for each score they have not entered. -/
def turns (c : Crew V) : Nat :=
  c.unentered.length + c.waiting.length

/-- All workers are done. -/
def Done (c : Crew V) : Prop :=
  ∀ w ∈ c.workers, w.Done

variable {judge : Program V → Score} {individuals : List (Individual V)} {c next : Crew V}

/-- All workers are done if they have entered all scores. -/
lemma done_iff : c.Done ↔ c.unentered = [] := by
  rw [unentered, List.flatMap_eq_nil_iff]
  exact forall₂_congr fun w _ => w.done_iff

/-- When all workers are done, they have come to all positions. -/
lemma Done.waiting_eq_nil (h : c.Done) : c.waiting = [] :=
  List.flatMap_eq_nil_iff.mpr fun w hw => (h w hw).1

/-- All workers are done if they have no turns before them. -/
lemma turns_eq_zero_iff : c.turns = 0 ↔ c.Done := by
  rw [turns, Nat.add_eq_zero_iff, List.length_eq_zero_iff, List.length_eq_zero_iff, ← done_iff]
  exact and_iff_left_of_imp Done.waiting_eq_nil

/-! ### One turn -/

/-- In a turn a score is entered, or a program is shown to the judge. -/
lemma turn_cases {position : Nat} (h : c.turn judge position = some next) :
    ∃ before after waiting k,
      (∃ s, c.workers = before ++ ⟨waiting, some (k, s)⟩ :: after ∧
        next = ⟨c.individuals.modify k fun i => { i with score := s },
          before ++ ⟨waiting, none⟩ :: after, c.calls⟩) ∨
      ∃ i, c.individuals[k]? = some i ∧ c.workers = before ++ ⟨k :: waiting, none⟩ :: after ∧
        next = ⟨c.individuals, before ++ ⟨waiting, some (k, judge i.code)⟩ :: after,
          c.calls ++ [k]⟩ := by
  unfold turn at h
  split at h
  · rename_i waiting k s hworker
    obtain ⟨hposition, hget⟩ := List.getElem?_eq_some_iff.mp hworker
    obtain ⟨before, after, hworkers, -, hset⟩ :=
      @List.exists_of_set Worker position ⟨waiting, none⟩ c.workers hposition
    rw [hget] at hworkers
    cases h
    exact ⟨before, after, waiting, k, Or.inl ⟨s, hworkers, by rw [hset]⟩⟩
  · rename_i k waiting hworker
    obtain ⟨hposition, hget⟩ := List.getElem?_eq_some_iff.mp hworker
    obtain ⟨i, hi, rfl⟩ := Option.map_eq_some_iff.mp h
    obtain ⟨before, after, hworkers, -, hset⟩ :=
      @List.exists_of_set Worker position ⟨waiting, some (k, judge i.code)⟩ c.workers hposition
    rw [hget] at hworkers
    exact ⟨before, after, waiting, k, Or.inr ⟨i, hi, hworkers, by rw [hset]⟩⟩
  · cases h

/-- A turn brings the workers closer to the end. -/
lemma turns_of_turn {position : Nat} (h : c.turn judge position = some next) :
    next.turns + 1 = c.turns := by
  obtain ⟨before, after, waiting, k, ⟨s, hworkers, rfl⟩ | ⟨i, -, hworkers, rfl⟩⟩ := turn_cases h
  · simp [turns, unentered, Crew.waiting, Worker.unentered, hworkers]
    omega
  · simp [turns, unentered, Crew.waiting, Worker.unentered, hworkers]
    omega

/-- What a crew has done so far, when it began with some individuals. -/
structure OnTheWay (judge : Program V → Score) (individuals : List (Individual V)) (c : Crew V) :
    Prop where
  /-- No position is open twice. -/
  nodup : c.unentered.Nodup
  /-- Only the positions of pending individuals are open. -/
  pending : ∀ k ∈ c.unentered, ∃ i, individuals[k]? = some i ∧ i.valid = false
  /-- Everybody is settled but for the open positions. -/
  individuals_eq : c.individuals =
    individuals.mapIdx fun k i => if k ∈ c.unentered then i else settle judge i
  /-- A score that a worker holds is the one of the program at its position. -/
  held : ∀ w ∈ c.workers, ∀ k s, w.held = some (k, s) →
    ∃ i, individuals[k]? = some i ∧ s = judge i.code
  /-- Each pending position was shown to the judge once, or somebody has yet to come to it. -/
  calls : ∀ k, c.calls.count k + c.waiting.count k = (pendingPositions individuals).count k

namespace OnTheWay

/-- The individual at an open position is as it was. -/
lemma getElem?_of_unentered (h : OnTheWay judge individuals c) {k : Nat} (hk : k ∈ c.unentered) :
    c.individuals[k]? = individuals[k]? := by
  rw [h.individuals_eq, List.getElem?_mapIdx]
  simp only [if_pos hk, Option.map_id']

/-- A worker enters a score. -/
lemma enter (h : OnTheWay judge individuals c) {before after : List Worker} {waiting : List Nat}
    {k : Nat} {s : Score} (hworkers : c.workers = before ++ ⟨waiting, some (k, s)⟩ :: after)
    (hindividuals : next.individuals = c.individuals.modify k fun i => { i with score := s })
    (hnext : next.workers = before ++ ⟨waiting, none⟩ :: after) (hcalls : next.calls = c.calls) :
    OnTheWay judge individuals next := by
  have hperm : c.unentered.Perm (k :: next.unentered) := by
    simp [Crew.unentered, hworkers, hnext, Worker.unentered]
  obtain ⟨hk, hnodup⟩ := List.nodup_cons.mp (hperm.nodup_iff.mp h.nodup)
  have hmem : ∀ l, l ∈ c.unentered ↔ l = k ∨ l ∈ next.unentered := fun l =>
    hperm.mem_iff.trans List.mem_cons
  have hopen : k ∈ c.unentered := (hmem k).mpr (Or.inl rfl)
  obtain ⟨i, hi, hvalid⟩ := h.pending k hopen
  have hs : s = judge i.code := by
    have hworker : (⟨waiting, some (k, s)⟩ : Worker) ∈ c.workers := by
      rw [hworkers]
      exact List.mem_append_right before List.mem_cons_self
    obtain ⟨j, hj, hs⟩ := h.held _ hworker k s rfl
    rw [hi, Option.some.injEq] at hj
    rw [hs, hj]
  refine ⟨hnodup, fun l hl => h.pending l ((hmem l).mpr (Or.inr hl)), ?_, ?_, ?_⟩
  · rw [hindividuals]
    refine (List.mapIdx_eq_iff.mpr fun l => ?_).symm
    rw [List.getElem?_modify]
    by_cases hl : l = k
    · -- the individual was pending, and now it has the score that settles it
      subst hl
      rw [h.getElem?_of_unentered hopen, hi]
      simp [hk, settle, hvalid, hs]
    · have hsame : (l ∈ c.unentered) = (l ∈ next.unentered) := by
        simp [hmem, hl]
      rw [h.individuals_eq, List.getElem?_mapIdx]
      simp [Ne.symm hl, hsame]
  · intro w hw l t hheld
    rw [hnext, List.mem_append, List.mem_cons] at hw
    rcases hw with hw | rfl | hw
    · exact h.held w (by simp [hworkers, hw]) l t hheld
    · cases hheld
    · exact h.held w (by simp [hworkers, hw]) l t hheld
  · intro l
    have hcount := h.calls l
    simpa [Crew.waiting, hworkers, hnext, hcalls] using hcount

/-- A worker has the judge look at a program. -/
lemma ask (h : OnTheWay judge individuals c) {before after : List Worker} {waiting : List Nat}
    {k : Nat} {i : Individual V} (hi : c.individuals[k]? = some i)
    (hworkers : c.workers = before ++ ⟨k :: waiting, none⟩ :: after)
    (hindividuals : next.individuals = c.individuals)
    (hnext : next.workers = before ++ ⟨waiting, some (k, judge i.code)⟩ :: after)
    (hcalls : next.calls = c.calls ++ [k]) : OnTheWay judge individuals next := by
  have hopen : next.unentered = c.unentered := by
    simp [Crew.unentered, hworkers, hnext, Worker.unentered]
  have hk : k ∈ c.unentered := by
    simp [Crew.unentered, hworkers, Worker.unentered]
  refine ⟨?_, ?_, ?_, ?_, ?_⟩
  · rw [hopen]
    exact h.nodup
  · rw [hopen]
    exact h.pending
  · rw [hopen, hindividuals]
    exact h.individuals_eq
  · intro w hw l t hheld
    rw [hnext, List.mem_append, List.mem_cons] at hw
    rcases hw with hw | rfl | hw
    · exact h.held w (by simp [hworkers, hw]) l t hheld
    · cases hheld
      exact ⟨i, (h.getElem?_of_unentered hk).symm.trans hi, rfl⟩
    · exact h.held w (by simp [hworkers, hw]) l t hheld
  · intro l
    have hcount := h.calls l
    simp only [Crew.waiting, hworkers, hnext, hcalls, List.flatMap_append, List.flatMap_cons,
      List.count_append, List.count_cons, List.cons_append, List.count_nil] at hcount ⊢
    omega

/-- A turn keeps to the way. -/
lemma turn (h : OnTheWay judge individuals c) {position : Nat}
    (hturn : c.turn judge position = some next) : OnTheWay judge individuals next := by
  obtain ⟨before, after, waiting, k, ⟨s, hworkers, rfl⟩ | ⟨i, hi, hworkers, rfl⟩⟩ :=
    turn_cases hturn
  · exact h.enter hworkers rfl rfl rfl
  · exact h.ask hi hworkers rfl rfl rfl

/-- A crew that is not done can take a turn. -/
lemma exists_turn (h : OnTheWay judge individuals c) (hdone : ¬ c.Done) :
    ∃ position next, c.turn judge position = some next := by
  obtain ⟨w, hw, hwork⟩ : ∃ w ∈ c.workers, ¬ w.Done := by
    simpa only [Crew.Done, not_forall, exists_prop] using hdone
  obtain ⟨position, hposition⟩ := List.mem_iff_getElem?.mp hw
  obtain ⟨waiting, _ | ⟨k, s⟩⟩ := w
  · cases waiting with
    | nil => exact absurd ⟨rfl, rfl⟩ hwork
    | cons k waiting =>
      have hk : k ∈ c.unentered := List.mem_flatMap.mpr ⟨_, hw, List.mem_cons_self⟩
      obtain ⟨i, hi, -⟩ := h.pending k hk
      refine ⟨position, ?_⟩
      rw [Crew.turn, hposition]
      exact ⟨_, Option.map_eq_some_iff.mpr ⟨i, (h.getElem?_of_unentered hk).trans hi, rfl⟩⟩
  · exact ⟨position, _, by rw [Crew.turn, hposition]⟩

/-- When all workers are done, everybody is settled. -/
lemma individuals_of_done (h : OnTheWay judge individuals c) (hdone : c.Done) :
    c.individuals = individuals.map (settle judge) := by
  rw [h.individuals_eq, done_iff.mp hdone]
  exact List.mapIdx_eq_iff.mpr fun k => by simp

/-- When all workers are done, the judge has looked at every pending program once, and at no
other. -/
lemma count_calls_of_done (h : OnTheWay judge individuals c) (hdone : c.Done) (k : Nat) :
    c.calls.count k = if k ∈ pendingPositions individuals then 1 else 0 := by
  have hcount := h.calls k
  rw [hdone.waiting_eq_nil, List.count_nil, Nat.add_zero] at hcount
  rw [hcount, pendingPositions, List.nodup_findIdxs.count]

/-- When all workers are done, the judge has looked at the pending programs, in some order. -/
lemma calls_perm_of_done (h : OnTheWay judge individuals c) (hdone : c.Done) :
    c.calls.Perm (pendingPositions individuals) := by
  rw [List.perm_iff_count]
  intro k
  rw [← h.calls k, hdone.waiting_eq_nil, List.count_nil, Nat.add_zero]

end OnTheWay

/-! ### Schedules -/

/-- The workers of an assembled crew wait for the pending positions. -/
lemma waiting_assemble (workers : Nat) (individuals : List (Individual V)) :
    (assemble workers individuals).waiting = pendingPositions individuals := by
  rw [waiting, assemble, List.flatMap_map, List.flatMap_id']
  exact Workload.flatten_cut_shares _ workers

/-- A worker of an assembled crew holds nothing. -/
lemma held_of_mem_assemble {workers : Nat} {w : Worker}
    (hw : w ∈ (assemble workers individuals).workers) : w.held = none := by
  obtain ⟨share, -, rfl⟩ := List.mem_map.mp hw
  rfl

/-- The open positions of an assembled crew are the pending ones. -/
lemma unentered_assemble (workers : Nat) (individuals : List (Individual V)) :
    (assemble workers individuals).unentered = pendingPositions individuals := by
  rw [← waiting_assemble workers]
  refine List.flatMap_congr fun w hw => ?_
  rw [Worker.unentered, held_of_mem_assemble hw]
  rfl

/-- An assembled crew has two turns before it for each pending individual. -/
lemma turns_assemble (workers : Nat) (individuals : List (Individual V)) :
    (assemble workers individuals).turns = 2 * individuals.countP fun i => !i.valid := by
  rw [turns, unentered_assemble, waiting_assemble, pendingPositions, List.length_findIdxs,
    Nat.two_mul]

/-- An assembled crew is at the beginning of the way. -/
lemma onTheWay_assemble (judge : Program V → Score) (workers : Nat)
    (individuals : List (Individual V)) :
    OnTheWay judge individuals (assemble workers individuals) where
  nodup := by
    rw [unentered_assemble]
    exact List.nodup_findIdxs
  pending k hk := by
    rw [unentered_assemble] at hk
    exact mem_pendingPositions.mp hk
  individuals_eq := by
    refine (List.mapIdx_eq_iff.mpr fun k => ?_).symm
    rw [unentered_assemble]
    rcases hi : individuals[k]? with _ | i
    · exact hi
    · by_cases hk : k ∈ pendingPositions individuals
      · rw [Option.map_some, if_pos hk]
        exact hi
      · have hvalid : i.valid = true := by
          rw [mem_pendingPositions] at hk
          simpa [hi] using hk
        rw [Option.map_some, if_neg hk, settle, if_pos hvalid]
        exact hi
  held w hw k s hheld := by
    rw [held_of_mem_assemble hw] at hheld
    cases hheld
  calls k := by
    rw [waiting_assemble]
    exact Nat.zero_add _

/-- A schedule keeps to the way, and each of its turns brings the workers closer to the end. -/
lemma OnTheWay.follow (h : OnTheWay judge individuals c) {schedule : List Nat}
    (hfollow : c.follow judge schedule = some next) :
    OnTheWay judge individuals next ∧ schedule.length + next.turns = c.turns := by
  induction schedule generalizing c with
  | nil =>
    cases hfollow
    exact ⟨h, Nat.zero_add _⟩
  | cons position schedule ih =>
    rw [Crew.follow, List.foldlM_cons] at hfollow
    obtain ⟨between, hturn, hrest⟩ := Option.bind_eq_some_iff.mp hfollow
    obtain ⟨hway, hturns⟩ := ih (h.turn hturn) hrest
    refine ⟨hway, ?_⟩
    rw [List.length_cons, ← turns_of_turn hturn]
    omega

/-- The turns that are left can be taken, one after the other. -/
lemma OnTheWay.exists_schedule (h : OnTheWay judge individuals c) :
    ∃ schedule next, c.follow judge schedule = some next ∧ next.Done := by
  induction hturns : c.turns generalizing c with
  | zero => exact ⟨[], c, rfl, turns_eq_zero_iff.mp hturns⟩
  | succ turns ih =>
    have hdone : ¬ c.Done := by
      rw [← turns_eq_zero_iff, hturns]
      exact Nat.succ_ne_zero turns
    obtain ⟨position, between, hturn⟩ := h.exists_turn hdone
    have hleft : between.turns + 1 = c.turns := turns_of_turn hturn
    obtain ⟨schedule, next, hfollow, hend⟩ := ih (h.turn hturn) (by omega)
    refine ⟨position :: schedule, next, ?_, hend⟩
    rw [Crew.follow, List.foldlM_cons]
    exact Option.bind_eq_some_iff.mpr ⟨between, hturn, hfollow⟩

end Crew

/-- **Every schedule agrees.**  A judge that never breaks off settles every individual, and the
count is the number of pending ones.  Workers that take turns come to the same, in whatever order
they do: whoever has followed a schedule can go on unless all workers are done, and this is when the
schedule has two turns for each pending individual; then everybody is settled, and the judge has
looked once at each program that was pending and never at another. -/
theorem every_schedule_agrees (judge : Program V → Score) (workers : Nat)
    (individuals : List (Individual V)) :
    (score (fun p => .ok (judge p)) workers individuals).individuals =
        individuals.map (settle judge) ∧
      (score (fun p => .ok (judge p)) workers individuals).count =
        .ok (individuals.countP fun i => !i.valid) ∧
      ∀ (schedule : List Nat) (c : Crew V),
        (Crew.assemble workers individuals).follow judge schedule = some c →
          (c.Done ∨ ∃ position next, c.turn judge position = some next) ∧
          (c.Done ↔ schedule.length = 2 * individuals.countP fun i => !i.valid) ∧
          (c.Done → c.individuals = individuals.map (settle judge) ∧
            ∀ k, c.calls.count k =
              if (individuals[k]?).any (fun i => !i.valid) then 1 else 0) := by
  refine ⟨individuals_score_judge judge workers individuals,
    count_score_judge judge workers individuals, fun schedule c hfollow => ?_⟩
  obtain ⟨hway, hturns⟩ := (Crew.onTheWay_assemble judge workers individuals).follow hfollow
  rw [Crew.turns_assemble] at hturns
  refine ⟨or_iff_not_imp_left.mpr hway.exists_turn, ?_, fun hdone => ?_⟩
  · rw [← Crew.turns_eq_zero_iff]
    omega
  · refine ⟨hway.individuals_of_done hdone, fun k => ?_⟩
    rw [hway.count_calls_of_done hdone]
    refine if_congr ?_ rfl rfl
    rw [mem_pendingPositions, Option.any_eq_true]
    simp

/-- Three individuals, of which the one in the middle has a score already. -/
def middleScored : List (Individual Bool) :=
  [⟨⟨[.input "x" 0]⟩, .pending⟩, ⟨⟨[.input "y" 1]⟩, ⟨0.5, true⟩⟩,
    ⟨⟨[Boolean.negation, .input "x" 0]⟩, .pending⟩]

/-- Two workers share the work on the three individuals.  The second one goes first, and both are
done after four turns: the first individual has got a valid fitness, the second one is as before,
and the third, which is too long, has got none. -/
theorem two_workers_agree :
    ∃ c, (Crew.assemble 2 middleScored).follow (fun p => ⟨1, p.size ≤ 1⟩) [1, 0, 1, 0] = some c ∧
      c.individuals.map Individual.valid = [true, true, false] ∧
      c.calls.count 0 = 1 ∧ c.calls.count 1 = 0 ∧ c.calls.count 2 = 1 := by
  have hpositions : pendingPositions middleScored = [0, 2] := rfl
  have hassemble : Crew.assemble 2 middleScored =
      ⟨middleScored, [{ waiting := [0] }, { waiting := [2] }], []⟩ := by
    rw [Crew.assemble, hpositions]
    rfl
  obtain ⟨-, -, hschedule⟩ := every_schedule_agrees (fun p => ⟨1, p.size ≤ 1⟩) 2 middleScored
  rw [hassemble] at hschedule ⊢
  obtain ⟨-, hdone, hend⟩ := hschedule [1, 0, 1, 0] _ rfl
  obtain ⟨hindividuals, hcalls⟩ := hend (hdone.mpr rfl)
  refine ⟨_, rfl, ?_, hcalls 0, hcalls 1, hcalls 2⟩
  rw [hindividuals]
  rfl

end TreeEvolution.Scoring
