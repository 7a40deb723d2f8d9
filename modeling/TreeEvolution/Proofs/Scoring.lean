import Mathlib.Data.List.Forall2
import TreeEvolution.Proofs.Workload
import TreeEvolution.Scoring

/-!
# What scoring changes

Scoring that is not broken off leaves valid individuals as they are and gives every other one the
score that the scorer has for its program (`score_judged`).  This does not depend on the number of
workers: the shares of the workers make up the pending individuals, each worker scores its share in
order, and the scored individuals go back to the places from which they were taken.
-/

namespace TreeEvolution.Scoring

variable {V : Type} {scorer : Scorer V}

/-- An individual has got the score of its program. -/
def Scored (scorer : Scorer V) (before after : Individual V) : Prop :=
  ∃ s, scorer before.code = .ok s ∧ after = { before with score := s }

/-- An individual after scoring: a valid one is as before, and any other has got the score of its
program. -/
def Judged (scorer : Scorer V) (before after : Individual V) : Prop :=
  if before.valid then after = before else Scored scorer before after

/-- Scoring does not change programs. -/
lemma Judged.code_eq {before after : Individual V} (h : Judged scorer before after) :
    after.code = before.code := by
  unfold Judged at h
  split at h
  · rw [h]
  · obtain ⟨s, -, rfl⟩ := h
    rfl

/-- What scoring makes of individuals with a property holds of everyone afterwards. -/
lemma forall_mem_of_judged {before after : List (Individual V)} {P Q : Individual V → Prop}
    (h : List.Forall₂ (Judged scorer) before after) (hbefore : ∀ i ∈ before, P i)
    (hPQ : ∀ i j, P i → Judged scorer i j → Q j) : ∀ j ∈ after, Q j := by
  induction h with
  | nil =>
    intro j hj
    cases hj
  | cons hij _ ih =>
    obtain ⟨hi, hrest⟩ := List.forall_mem_cons.mp hbefore
    exact List.forall_mem_cons.mpr ⟨hPQ _ _ hi hij, ih hrest⟩

/-- The scorer has had scores for the individuals without a valid fitness. -/
lemma exists_score_of_judged {before after : List (Individual V)}
    (h : List.Forall₂ (Judged scorer) before after) :
    ∀ i ∈ before, i.valid = false → ∃ s, scorer i.code = .ok s := by
  induction h with
  | nil =>
    intro i hi
    cases hi
  | cons hij _ ih =>
    refine List.forall_mem_cons.mpr ⟨fun hvalid => ?_, ih⟩
    rw [Judged, hvalid] at hij
    obtain ⟨s, hs, -⟩ := hij
    exact ⟨s, hs⟩

/-- A worker that is not interrupted scores its share. -/
lemma work_scored {share : List (Individual V)} (h : (work scorer share).fault? = none) :
    List.Forall₂ (Scored scorer) share (work scorer share).individuals := by
  induction share with
  | nil => exact .nil
  | cons i share ih =>
    rw [work] at h ⊢
    rcases hscore : scorer i.code with f | s
    · rw [hscore] at h
      cases h
    · rw [hscore] at h
      exact .cons ⟨s, hscore, rfl⟩ (ih h)

/-- Workers that are not interrupted score what their shares make up. -/
lemma flatMap_work_scored {shares : List (List (Individual V))}
    (h : (shares.map (work scorer)).findSome? Share.fault? = none) :
    List.Forall₂ (Scored scorer) shares.flatten
      ((shares.map (work scorer)).flatMap Share.individuals) := by
  rw [List.findSome?_eq_none_iff] at h
  induction shares with
  | nil => exact .nil
  | cons share shares ih =>
    rw [List.map_cons] at h
    obtain ⟨hshare, hshares⟩ := List.forall_mem_cons.mp h
    rw [List.flatten_cons, List.map_cons, List.flatMap_cons]
    exact List.rel_append (work_scored hshare) (ih hshares)

/-- A valid individual is not pending. -/
lemma pending_of_valid {i : Individual V} (h : i.valid = true) (individuals : List (Individual V)) :
    pending (i :: individuals) = pending individuals := by
  simp [pending, h]

/-- Any other individual is. -/
lemma pending_of_not_valid {i : Individual V} (h : i.valid = false)
    (individuals : List (Individual V)) :
    pending (i :: individuals) = i :: pending individuals := by
  simp [pending, h]

/-- A valid individual keeps its place. -/
lemma refill_of_valid {i : Individual V} (h : i.valid = true)
    (individuals scored : List (Individual V)) :
    refill (i :: individuals) scored = i :: refill individuals scored := by
  cases scored <;> simp [refill, h]

/-- The place of a pending individual goes to the first of the scored ones. -/
lemma refill_of_not_valid {i : Individual V} (h : i.valid = false) (s : Individual V)
    (individuals scored : List (Individual V)) :
    refill (i :: individuals) (s :: scored) = s :: refill individuals scored := by
  simp [refill, h]

/-- The scored individuals get back to the places of the pending ones. -/
lemma refill_judged {individuals scored : List (Individual V)}
    (h : List.Forall₂ (Scored scorer) (pending individuals) scored) :
    List.Forall₂ (Judged scorer) individuals (refill individuals scored) := by
  induction individuals generalizing scored with
  | nil => exact .nil
  | cons i individuals ih =>
    cases hvalid : i.valid with
    | true =>
      rw [pending_of_valid hvalid] at h
      rw [refill_of_valid hvalid]
      refine .cons ?_ (ih h)
      rw [Judged, if_pos hvalid]
    | false =>
      rw [pending_of_not_valid hvalid] at h
      cases h with
      | cons hi hrest =>
        rw [refill_of_not_valid hvalid]
        refine .cons ?_ (ih hrest)
        rw [Judged, hvalid]
        exact hi

/-- Nobody is pending exactly if everybody is valid. -/
lemma valid_of_pending_eq_nil {individuals : List (Individual V)}
    (h : pending individuals = []) : ∀ i ∈ individuals, i.valid = true := by
  intro i hi
  simpa using List.filter_eq_nil_iff.mp h i hi

/-- Scoring that is not broken off gives every pending individual the score of its program and
changes nothing else; the count is the number of pending individuals. -/
lemma score_judged {workers count : Nat} {individuals : List (Individual V)}
    (h : (score scorer workers individuals).count = .ok count) :
    List.Forall₂ (Judged scorer) individuals (score scorer workers individuals).individuals ∧
      count = (pending individuals).length := by
  by_cases hempty : (Workload.shares (pending individuals).length workers).isEmpty = true
  · have hscore : score scorer workers individuals = ⟨individuals, .ok 0, []⟩ := if_pos hempty
    have hlength : (pending individuals).length = 0 := Workload.isEmpty_shares_iff.mp hempty
    have hvalid := valid_of_pending_eq_nil (List.eq_nil_of_length_eq_zero hlength)
    rw [hscore] at h ⊢
    cases h
    refine ⟨List.forall₂_same.mpr fun i hi => ?_, hlength.symm⟩
    rw [Judged, if_pos (hvalid i hi)]
  · have hscore : score scorer workers individuals = ⟨_, _, _⟩ := if_neg hempty
    rw [hscore] at h ⊢
    dsimp only at h ⊢
    split at h
    · rename_i hfault
      cases h
      have hscored := flatMap_work_scored hfault
      rw [Workload.flatten_cut_shares] at hscored
      exact ⟨refill_judged hscored, rfl⟩
    · cases h

/-- What scoring makes of individuals is settled by the scorer. -/
lemma judged_unique {before after other : List (Individual V)}
    (h : List.Forall₂ (Judged scorer) before after)
    (h' : List.Forall₂ (Judged scorer) before other) : after = other := by
  induction h generalizing other with
  | nil =>
    cases h'
    rfl
  | cons hij _ ih =>
    cases h' with
    | cons hij' hrest =>
      rw [ih hrest]
      congr 1
      unfold Judged at hij hij'
      split at hij
      · rw [if_pos ‹_›] at hij'
        rw [hij, hij']
      · rw [if_neg ‹_›] at hij'
        obtain ⟨s, hs, rfl⟩ := hij
        obtain ⟨s', hs', rfl⟩ := hij'
        rw [hs] at hs'
        cases hs'
        rfl

/-! ### Scoring that is not broken off -/

/-- A worker is not interrupted if its share can be scored. -/
lemma fault?_work_eq_none {share : List (Individual V)}
    (h : ∀ i ∈ share, ∃ s, scorer i.code = .ok s) : (work scorer share).fault? = none := by
  induction share with
  | nil => rfl
  | cons i share ih =>
    obtain ⟨⟨s, hs⟩, hshare⟩ := List.forall_mem_cons.mp h
    rw [work, hs]
    exact ih hshare

/-- Scoring is not broken off if the programs of the individuals can be scored. -/
lemma exists_count_eq_ok {individuals : List (Individual V)}
    (h : ∀ i ∈ individuals, ∃ s, scorer i.code = .ok s) (workers : Nat) :
    ∃ count, (score scorer workers individuals).count = .ok count := by
  unfold score
  dsimp only
  split
  · exact ⟨0, rfl⟩
  · have hnone : ∀ share ∈ Workload.cut
        ((Workload.shares (pending individuals).length workers).map Workload.shareSize)
        (pending individuals), (work scorer share).fault? = none := by
      intro share hshare
      refine fault?_work_eq_none fun i hi => h i ?_
      have hmem := List.mem_flatten_of_mem hshare hi
      rw [Workload.flatten_cut_shares] at hmem
      exact List.mem_of_mem_filter hmem
    have hfault : ((Workload.cut
        ((Workload.shares (pending individuals).length workers).map Workload.shareSize)
        (pending individuals)).map (work scorer)).findSome? Share.fault? = none := by
      rw [List.findSome?_eq_none_iff]
      intro done hdone
      obtain ⟨share, hshare, rfl⟩ := List.mem_map.mp hdone
      exact hnone share hshare
    rw [hfault]
    exact ⟨_, rfl⟩

/-- If the programs of the individuals can be scored, the number of workers does not matter. -/
lemma score_eq_of_answers {individuals : List (Individual V)}
    (h : ∀ i ∈ individuals, ∃ s, scorer i.code = .ok s) (workers others : Nat) :
    (score scorer workers individuals).count = .ok (pending individuals).length ∧
      (score scorer others individuals).count = .ok (pending individuals).length ∧
      (score scorer workers individuals).individuals =
        (score scorer others individuals).individuals := by
  obtain ⟨count, hcount⟩ := exists_count_eq_ok h workers
  obtain ⟨count', hcount'⟩ := exists_count_eq_ok h others
  obtain ⟨hjudged, rfl⟩ := score_judged hcount
  obtain ⟨hjudged', rfl⟩ := score_judged hcount'
  exact ⟨hcount, hcount', judged_unique hjudged hjudged'⟩

end TreeEvolution.Scoring
