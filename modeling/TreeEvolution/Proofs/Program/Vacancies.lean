import Mathlib.Data.List.Basic
import TreeEvolution.Proofs.Program.Places

/-!
# Vacancies

A listing that begins at a single place and is not complete leaves some places open, its vacancies.
The symbols from a position on leave places open exactly as long as the subtree at the position has
not come to an end; at the end of a complete listing none of them does (`Fills.vacancies_drop`).

A symbol whose subtree has not come to an end is around the places that are open.  Counting these
symbols gives each vacancy a level (`around`, `levelsToCome`), in the order in which the places will
be taken.  Each further symbol takes the first vacancy and opens others one level below it
(`levelsToCome_append_singleton`).  What is complete is around nothing that comes after it
(`Fills.around_append`), so a complete part may be replaced by another without a change to the
levels behind it (`Fills.around_replace`).
-/

namespace TreeEvolution

namespace Places

variable {V : Type}

/-! ### Open places -/

/-- The number of places that a listing leaves open when it begins at a single place. -/
def vacancies (symbols : List (Symbol V)) : Nat :=
  (fill symbols 1).2

/-- What follows a listing is put at the places that the listing leaves open. -/
lemma fill_append_snd (before more : List (Symbol V)) (places : Nat) :
    (fill (before ++ more) places).2 = (fill more (fill before places).2).2 := by
  induction before generalizing places with
  | nil => simp
  | cons s before ih =>
    cases places with
    | zero => simp
    | succ places => exact ih (places + s.arity)

lemma vacancies_append (before more : List (Symbol V)) :
    vacancies (before ++ more) = (fill more (vacancies before)).2 :=
  fill_append_snd before more 1

/-- A listing that leaves places open is used up. -/
lemma fill_eq_of_vacancies {symbols : List (Symbol V)} {left : Nat}
    (h : vacancies symbols = left + 1) : fill symbols 1 = ([], left + 1) := by
  obtain ⟨rest, left', hfill⟩ : ∃ rest left', fill symbols 1 = (rest, left') := ⟨_, _, rfl⟩
  rw [vacancies, hfill] at h
  subst h
  cases rest with
  | nil => exact hfill
  | cons s rest => exact absurd (eq_zero_of_fill_eq_cons hfill) (Nat.succ_ne_zero left)

/-- The symbols before a position of a complete listing leave a place open, which is filled from the
position on. -/
lemma Fills.exists_fill_take {part : List (Symbol V)} {places i : Nat} (h : Fills part places)
    (hi : i < part.length) :
    ∃ left, fill (part.take i) places = ([], left + 1) ∧ Fills (part.drop i) (left + 1) := by
  have hsplit : fill (part.take i ++ part.drop i) places = ([], 0) := by
    rw [List.take_append_drop]
    exact h
  obtain ⟨between, hbefore, hafter⟩ := exists_fill_of_append hsplit
  cases between with
  | zero =>
    rw [fill_zero, Prod.mk.injEq, List.drop_eq_nil_iff] at hafter
    omega
  | succ left => exact ⟨left, hbefore, hafter⟩

/-- At the end of a complete listing the subtree at each position has come to an end. -/
lemma Fills.vacancies_drop {part : List (Symbol V)} {places i : Nat} (h : Fills part places)
    (hi : i < part.length) : vacancies (part.drop i) = 0 := by
  obtain ⟨between, -, hdrop⟩ := h.exists_fill_take hi
  by_contra hne
  obtain ⟨left, hleft⟩ := Nat.exists_eq_succ_of_ne_zero hne
  have hmore := fill_add (fill_eq_of_vacancies hleft) between
  rw [Nat.add_comm 1, show fill _ _ = _ from hdrop] at hmore
  have hzero : 0 = left + 1 + between := (Prod.mk.inj hmore).2
  omega

/-! ### Levels of the places to come -/

/-- The level of a place that a listing leaves open: the number of symbols of the listing whose
subtrees go on at least up to that place.  The places are counted from the one that comes next. -/
def around (used : List (Symbol V)) (place : Nat) : Nat :=
  (List.range used.length).countP fun i => place < vacancies (used.drop i)

/-- The levels of all places that a listing leaves open. -/
def levelsToCome (used : List (Symbol V)) : List Nat :=
  (List.range (vacancies used)).map (around used)

/-- Symbols that come first are counted with what comes after them. -/
lemma around_append (before more : List (Symbol V)) (place : Nat) :
    around (before ++ more) place =
      ((List.range before.length).countP fun i => place < vacancies (before.drop i ++ more)) +
        around more place := by
  have hbefore : ∀ i ∈ List.range before.length,
      (before ++ more).drop i = before.drop i ++ more := fun i hi =>
    List.drop_append_of_le_length (Nat.le_of_lt (List.mem_range.mp hi))
  rw [around, List.length_append, List.range_add, List.countP_append, List.countP_map]
  congr 1
  · exact List.countP_congr fun i hi => by rw [hbefore i hi]
  · refine List.countP_congr fun i hi => ?_
    simp only [Function.comp_apply, List.drop_length_add_append]

/-- Nothing of a complete listing is around what comes after it. -/
lemma Fills.around_append {part : List (Symbol V)} {places : Nat} (h : Fills part places)
    (more : List (Symbol V)) (place : Nat) : around (part ++ more) place = around more place := by
  rw [Places.around_append, List.countP_eq_zero.mpr, Nat.zero_add]
  intro i hi
  rw [vacancies_append, h.vacancies_drop (List.mem_range.mp hi), fill_zero]
  simp

/-- What is around the beginning of an open part is around everything in it. -/
lemma around_append_of_open {part : List (Symbol V)} {left : Nat}
    (h : fill part 1 = ([], left + 1)) (before : List (Symbol V)) :
    around (before ++ part) 0 = around before 0 + around part 0 := by
  rw [around_append]
  congr 1
  refine List.countP_congr fun i hi => ?_
  rw [decide_eq_true_iff, decide_eq_true_iff, vacancies_append]
  cases vacancies (before.drop i) with
  | zero => simp
  | succ between =>
    rw [Nat.add_comm between 1, fill_add h between]
    omega

/-- Parts that fill one place have the same around what comes after them. -/
lemma Fills.around_replace {part other : List (Symbol V)} (hpart : Fills part 1)
    (hother : Fills other 1) (before more : List (Symbol V)) (place : Nat) :
    around (before ++ (other ++ more)) place = around (before ++ (part ++ more)) place := by
  rw [Places.around_append before, Places.around_append before (part ++ more),
    hother.around_append, hpart.around_append]
  congr 1
  refine List.countP_congr fun i hi => ?_
  have hsame : vacancies (before.drop i ++ (other ++ more)) =
      vacancies (before.drop i ++ (part ++ more)) := by
    rw [vacancies_append, vacancies_append (before.drop i)]
    cases vacancies (before.drop i) with
    | zero => rw [fill_zero, fill_zero]
    | succ left => rw [hother.fill_append_succ, hpart.fill_append_succ]
  rw [hsame]

/-- A symbol with arguments is around the places that it opens. -/
lemma around_append_singleton_of_lt {used : List (Symbol V)} {s : Symbol V} {place : Nat}
    (hplace : place < s.arity) : around (used ++ [s]) place = around used 0 + 1 := by
  have hlast : around [s] place = 1 := by
    simp [around, vacancies, hplace]
  rw [around_append, hlast, around]
  congr 1
  refine List.countP_congr fun i hi => ?_
  rw [decide_eq_true_iff, decide_eq_true_iff, vacancies_append]
  cases vacancies (used.drop i) with
  | zero => simp
  | succ left =>
    rw [fill_cons_succ, fill_nil]
    omega

/-- The other places keep their levels, and are counted after those that the symbol opens. -/
lemma around_append_singleton_add (used : List (Symbol V)) (s : Symbol V) (place : Nat) :
    around (used ++ [s]) (s.arity + place) = around used (place + 1) := by
  have hlast : around [s] (s.arity + place) = 0 := by
    simp [around, vacancies]
  rw [around_append, hlast, around, Nat.add_zero]
  refine List.countP_congr fun i hi => ?_
  rw [decide_eq_true_iff, decide_eq_true_iff, vacancies_append]
  cases vacancies (used.drop i) with
  | zero => simp
  | succ left =>
    rw [fill_cons_succ, fill_nil]
    omega

/-- A symbol takes the place that comes next.  The places that it opens lie one level below it, and
the others keep their levels. -/
lemma levelsToCome_append_singleton {used : List (Symbol V)} {left : Nat}
    (h : vacancies used = left + 1) (s : Symbol V) :
    ∃ pending, levelsToCome used = around used 0 :: pending ∧
      levelsToCome (used ++ [s]) = List.replicate s.arity (around used 0 + 1) ++ pending := by
  refine ⟨(List.range left).map fun place => around used (place + 1), ?_, ?_⟩
  · rw [levelsToCome, h, List.range_succ_eq_map, List.map_cons, List.map_map]
    rfl
  · have hopen : vacancies (used ++ [s]) = s.arity + left := by
      rw [vacancies_append, h, fill_cons_succ, fill_nil, Nat.add_comm]
    rw [levelsToCome, hopen, List.range_add, List.map_append, List.map_map]
    congr 1
    · refine List.eq_replicate_iff.mpr ⟨by simp, fun level hlevel => ?_⟩
      obtain ⟨place, hplace, rfl⟩ := List.mem_map.mp hlevel
      exact around_append_singleton_of_lt (List.mem_range.mp hplace)
    · exact List.map_congr_left fun place _ => around_append_singleton_add used s place

end Places

end TreeEvolution
