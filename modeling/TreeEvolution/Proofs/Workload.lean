import Mathlib.Algebra.GroupWithZero.Nat
import Mathlib.Data.List.Basic
import TreeEvolution.Workload

/-!
# Shares make up the work

The shares of some work follow one another without a gap, from the first element to the last
(`covers_shares`): shares of one size cover the beginning of the work, and the last one takes what
they leave.  Whatever else is to be said of shares holds of all ranges that follow one another in
this way (`Covers`).  Their sizes add up to the work, and each element is in exactly one of them;
so when a list is cut into pieces of these sizes, each worker gets the elements of its range, and
nothing of the list is lost (`flatten_cut_shares`).

The numbers on the way to a share are no greater than the number of elements.  If 64 bits hold that
number they hold all others as well (`countedShare_eq_ok`).
-/

namespace TreeEvolution.Workload

variable {α : Type}

/-! ### Ranges that cover an interval -/

/-- Ranges that follow one another from one position to another, none of them empty. -/
inductive Covers : Nat → Nat → List (Nat × Nat) → Prop where
  /-- There is nothing to cover. -/
  | nil (n : Nat) : Covers n n []
  /-- A range, and others from where it ends. -/
  | cons {a b n : Nat} {ranges : List (Nat × Nat)} (lt : a < b) (rest : Covers b n ranges) :
      Covers a n ((a, b) :: ranges)

namespace Covers

variable {a b n : Nat} {ranges more : List (Nat × Nat)}

/-- Ranges lead from a position to no earlier one. -/
lemma le (h : Covers a n ranges) : a ≤ n := by
  induction h with
  | nil => exact Nat.le_refl _
  | cons lt _ ih => exact Nat.le_trans (Nat.le_of_lt lt) ih

/-- Ranges may be followed by others. -/
lemma append (h : Covers a b ranges) (hmore : Covers b n more) : Covers a n (ranges ++ more) := by
  induction h with
  | nil => exact hmore
  | cons lt _ ih => exact .cons lt (ih hmore)

/-- The sizes of the ranges add up to what they cover. -/
lemma add_sum_shareSize (h : Covers a n ranges) : a + (ranges.map shareSize).sum = n := by
  induction h with
  | nil => rfl
  | @cons a b n ranges lt _ ih =>
    have hstep : a + shareSize (a, b) = b := Nat.add_sub_cancel' (Nat.le_of_lt lt)
    rw [List.map_cons, List.sum_cons, ← Nat.add_assoc, hstep]
    exact ih

/-- A position is in exactly one of the ranges, or it is not covered. -/
lemma countP_eq (h : Covers a n ranges) (i : Nat) :
    (ranges.countP fun range => range.1 ≤ i ∧ i < range.2) = if a ≤ i ∧ i < n then 1 else 0 := by
  induction h with
  | nil n =>
    have hnone : ¬ (n ≤ i ∧ i < n) := by omega
    rw [if_neg hnone]
    rfl
  | @cons a b n ranges lt rest ih =>
    have hle : b ≤ n := rest.le
    rw [List.countP_cons, ih]
    simp only [decide_eq_true_eq]
    split_ifs <;> omega

/-- A list that is cut into pieces of the sizes of the ranges is cut at their ends. -/
lemma cut_eq (h : Covers a n ranges) (l : List α) :
    cut (ranges.map shareSize) (l.drop a) =
      ranges.map fun range => (l.take range.2).drop range.1 := by
  induction h with
  | nil => rfl
  | @cons a b n ranges lt _ ih =>
    have hstep : a + (b - a) = b := Nat.add_sub_cancel' (Nat.le_of_lt lt)
    have hpiece : (l.drop a).take (b - a) = (l.take b).drop a := by
      rw [List.drop_take]
    have hrest : (l.drop a).drop (b - a) = l.drop b := by
      rw [List.drop_drop, hstep]
    rw [List.map_cons, List.map_cons, shareSize, cut, hpiece, hrest, ih]

/-- A range is not empty and does not go beyond what is covered. -/
lemma bounds (h : Covers a n ranges) {range : Nat × Nat} (hrange : range ∈ ranges) :
    range.1 < range.2 ∧ range.2 ≤ n := by
  induction h with
  | nil => cases hrange
  | cons lt rest ih =>
    rcases List.mem_cons.mp hrange with rfl | hmem
    · exact ⟨lt, rest.le⟩
    · exact ih hmem

end Covers

/-! ### Shares as ranges -/

/-- Cutting loses nothing as far as the sizes go. -/
lemma flatten_cut (sizes : List Nat) (l : List α) : (cut sizes l).flatten = l.take sizes.sum := by
  induction sizes generalizing l with
  | nil => rw [List.sum_nil, List.take_zero, cut, List.flatten_nil]
  | cons size sizes ih =>
    rw [cut, List.flatten_cons, ih, List.sum_cons, List.take_add]

/-- There is a worker exactly if there is something to do. -/
lemma workersFor_eq_zero_iff {n workers : Nat} : workersFor n workers = 0 ↔ n = 0 := by
  unfold workersFor
  omega

/-- There is a share for each worker. -/
lemma length_shares (n workers : Nat) : (shares n workers).length = workersFor n workers := by
  rw [shares, List.length_map, List.length_range]

/-- There are no shares exactly if there is nothing to do. -/
lemma isEmpty_shares_iff {n workers : Nat} : (shares n workers).isEmpty = true ↔ n = 0 := by
  rw [List.isEmpty_iff_length_eq_zero, length_shares, workersFor_eq_zero_iff]

/-- The share of a worker. -/
lemma eq_of_getElem?_shares {n workers i : Nat} {share : Nat × Nat}
    (h : (shares n workers)[i]? = some share) :
    share = (i * (n / workersFor n workers),
      if i + 1 = workersFor n workers then n else (i + 1) * (n / workersFor n workers)) := by
  obtain ⟨hi, rfl⟩ := List.getElem?_eq_some_iff.mp h
  simp only [shares, List.getElem_map, List.getElem_range]

/-- Without workers there are no shares. -/
lemma shares_eq_nil {n workers : Nat} (h : workersFor n workers = 0) : shares n workers = [] := by
  rw [← List.length_eq_zero_iff, length_shares, h]

/-- Ranges of one size follow one another. -/
lemma covers_map_range {size : Nat} (h : 0 < size) (count : Nat) :
    Covers 0 (count * size) ((List.range count).map fun i => (i * size, (i + 1) * size)) := by
  induction count with
  | zero =>
    rw [Nat.zero_mul]
    exact .nil 0
  | succ count ih =>
    have hlt : count * size < (count + 1) * size :=
      Nat.mul_lt_mul_of_pos_right (Nat.lt_succ_self count) h
    rw [List.range_succ, List.map_append]
    exact ih.append (.cons hlt (.nil _))

/-- The shares before the last have one size, and the last one takes the rest. -/
lemma shares_eq_append {n workers count : Nat} (h : workersFor n workers = count + 1) :
    shares n workers =
      (List.range count).map (fun i => (i * (n / (count + 1)), (i + 1) * (n / (count + 1)))) ++
        [(count * (n / (count + 1)), n)] := by
  have hfirst : (List.range count).map (fun i => (i * (n / (count + 1)),
      if i + 1 = count + 1 then n else (i + 1) * (n / (count + 1)))) =
        (List.range count).map fun i => (i * (n / (count + 1)), (i + 1) * (n / (count + 1))) := by
    refine List.map_congr_left fun i hi => ?_
    have hne : ¬ i + 1 = count + 1 := Nat.ne_of_lt (Nat.succ_lt_succ (List.mem_range.mp hi))
    rw [if_neg hne]
  rw [shares, h, List.range_succ, List.map_append, hfirst, List.map_singleton, if_pos rfl]

/-- The shares cover the work. -/
lemma covers_shares (n workers : Nat) : Covers 0 n (shares n workers) := by
  rcases hcount : workersFor n workers with _ | count
  · rw [shares_eq_nil hcount, workersFor_eq_zero_iff.mp hcount]
    exact .nil 0
  · have hle : count + 1 ≤ n := by
      rw [← hcount]
      exact Nat.min_le_right _ _
    have hsize : 0 < n / (count + 1) := Nat.div_pos hle (Nat.succ_pos count)
    have hrest : count * (n / (count + 1)) < n := by
      have hmul : (count + 1) * (n / (count + 1)) ≤ n := Nat.mul_div_le n (count + 1)
      rw [Nat.succ_mul] at hmul
      omega
    rw [shares_eq_append hcount]
    exact (covers_map_range hsize count).append (.cons hrest (.nil n))

/-- The shares before the last one have the same size. -/
lemma shareSize_of_mem_dropLast {n workers : Nat} {share : Nat × Nat}
    (h : share ∈ (shares n workers).dropLast) : shareSize share = n / workersFor n workers := by
  rcases hcount : workersFor n workers with _ | count
  · rw [shares_eq_nil hcount] at h
    cases h
  · rw [shares_eq_append hcount, List.dropLast_concat] at h
    obtain ⟨i, -, rfl⟩ := List.mem_map.mp h
    rw [shareSize, Nat.succ_mul, Nat.add_sub_cancel_left]

/-- The sizes of the shares add up to the work. -/
lemma sum_shareSize_shares (n workers : Nat) : ((shares n workers).map shareSize).sum = n := by
  have hsum := (covers_shares n workers).add_sum_shareSize
  rwa [Nat.zero_add] at hsum

/-- Cutting a list into the shares of the work on it loses nothing. -/
lemma flatten_cut_shares (l : List α) (workers : Nat) :
    (cut ((shares l.length workers).map shareSize) l).flatten = l := by
  rw [flatten_cut, sum_shareSize_shares, List.take_length]

/-! ### Numbers of 64 bits -/

/-- A number that has been computed in 64 bits. -/
def counted (n : Nat) : Except Fault Nat :=
  if n < UInt64.size then .ok n else .error .countOverflow

/-- The share of a worker, computed in 64 bits step by step. -/
def countedShare (n count size i : Nat) : Except Fault (Nat × Nat) := do
  let first ← counted (i * size)
  Prod.mk first <$> if i + 1 = count then .ok n else counted (first + size)

/-- A number that is not greater than one of 64 bits has itself been computed in 64 bits. -/
lemma counted_of_le {m n : Nat} (hn : n < UInt64.size) (h : m ≤ n) : counted m = .ok m :=
  if_pos (Nat.lt_of_le_of_lt h hn)

/-- If 64 bits hold the number of elements, they hold all numbers on the way to a share. -/
lemma countedShare_eq_ok {n workers i : Nat} (hn : n < UInt64.size) {share : Nat × Nat}
    (hshare : (shares n workers)[i]? = some share) :
    countedShare n (workersFor n workers) (n / workersFor n workers) i = .ok share := by
  obtain ⟨hlt, hle⟩ := (covers_shares n workers).bounds (List.mem_of_getElem? hshare)
  have hfirst : counted share.1 = .ok share.1 :=
    counted_of_le hn (Nat.le_trans (Nat.le_of_lt hlt) hle)
  have hlast : counted share.2 = .ok share.2 := counted_of_le hn hle
  rw [eq_of_getElem?_shares hshare] at hfirst hlast ⊢
  dsimp only at hfirst hlast
  rw [countedShare, hfirst]
  by_cases hcount : i + 1 = workersFor n workers
  · simp only [if_pos hcount]
    rfl
  · rw [if_neg hcount, Nat.succ_mul] at hlast
    simp only [if_neg hcount, Nat.succ_mul]
    exact congrArg (Prod.mk _ <$> ·) hlast

/-- The division of some work among workers. -/
structure Apportions (n workers : Nat) (ranges : List (Nat × Nat)) : Prop where
  /-- There is a range for each worker, but at least one and not more than there are elements. -/
  length : ranges.length = min (max workers 1) n
  /-- The ranges follow one another from the first element to the last. -/
  covers : Covers 0 n ranges
  /-- All ranges but the last have the same size. -/
  size : ∀ range ∈ ranges.dropLast, shareSize range = n / ranges.length
  /-- Each element is in exactly one range. -/
  once : ∀ i, (ranges.countP fun range => range.1 ≤ i ∧ i < range.2) = if i < n then 1 else 0
  /-- The sizes of the ranges add up to the work. -/
  sum : (ranges.map shareSize).sum = n
  /-- If 64 bits hold the number of elements, they hold all numbers on the way to a range. -/
  counted : n < UInt64.size → ∀ i range, ranges[i]? = some range →
    countedShare n ranges.length (n / ranges.length) i = .ok range
  /-- A list is cut into the elements of each range. -/
  pieces : ∀ {α : Type} (l : List α), l.length = n →
    cut (ranges.map shareSize) l = ranges.map fun range => (l.take range.2).drop range.1
  /-- Each piece is as long as it should be, so that no cut is made beyond the end. -/
  lengths : ∀ {α : Type} (l : List α), l.length = n →
    (cut (ranges.map shareSize) l).map List.length = ranges.map shareSize
  /-- Nothing of the list is left over. -/
  flatten : ∀ {α : Type} (l : List α), l.length = n →
    (cut (ranges.map shareSize) l).flatten = l

/-- **Shares are a partition.**  The work on a number of elements is divided into contiguous shares,
and whoever asks for the shares gets them unless there are more than a list can hold. -/
theorem shares_apportion (n workers : Nat) :
    Apportions n workers (shares n workers) ∧
      divide n workers =
        if Extent.fits (min (max workers 1) n) then .ok (shares n workers)
        else .error .beyondMemory := by
  refine ⟨?_, rfl⟩
  have hcovers := covers_shares n workers
  have hlength := length_shares n workers
  constructor
  · exact hlength
  · exact hcovers
  · intro share hshare
    rw [hlength]
    exact shareSize_of_mem_dropLast hshare
  · intro i
    rw [hcovers.countP_eq i]
    simp only [Nat.zero_le, true_and]
  · exact sum_shareSize_shares n workers
  · intro hn i range hrange
    rw [hlength]
    exact countedShare_eq_ok hn hrange
  · intro α l hl
    exact hcovers.cut_eq l
  · intro α l hl
    rw [show cut _ l = _ from hcovers.cut_eq l, List.map_map]
    refine List.map_congr_left fun range hrange => ?_
    obtain ⟨hlt, hle⟩ := hcovers.bounds hrange
    rw [Function.comp_apply, List.length_drop, List.length_take, hl, shareSize, Nat.min_eq_left hle]
  · rintro α l rfl
    exact flatten_cut_shares l workers

example : shares 17 4 = [(0, 4), (4, 8), (8, 12), (12, 17)] := rfl

end TreeEvolution.Workload
