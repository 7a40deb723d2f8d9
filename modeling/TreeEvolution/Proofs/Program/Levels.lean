import Mathlib.Order.Bounds.Basic
import Mathlib.Order.MinMax
import TreeEvolution.Proofs.Program.Height
import TreeEvolution.Proofs.Program.Surgery
import TreeEvolution.Symbol.Boolean

/-!
# Levels in a listing

The level of a position is the number of positions before it whose subtrees go on at least up to it.
It is read off the ends of subtrees (`Program.level`), and depends on the symbols before the
position only (`level_eq`).

The scan for the depth knows nothing of subtrees.  It keeps a number for every place to come, and
these numbers are the levels of the vacancies that the symbols up to there leave
(`depthBelow_levelsToCome`).  So the number that it takes off its stack at a position is the level
of the position (`takesOff_level`), and the depth is the greatest level (`isGreatest_depth`).

In the tree that a program lists, what stands at a position stands there with as many nodes above it
as the level says (`Tree.exists_holds`).
-/

namespace TreeEvolution

namespace Program

open Places

variable {V : Type} {p : Program V}

/-! ### Levels of positions -/

/-- Whether the subtree at a position goes on up to another position. -/
def reaches (p : Program V) (position target : Nat) : Bool :=
  match p.subtreeEnd position with
  | .ok last => target ≤ last
  | .error _ => false

/-- The level of a position: the number of positions before it whose subtrees go on up to it. -/
def level (p : Program V) (position : Nat) : Nat :=
  (List.range position).countP fun above => p.reaches above position

/-- In the listing of a tree, a subtree goes on up to a position if the symbols before that position
leave one of its places open. -/
lemma reaches_eq (h : Fills p.symbols 1) {above position : Nat} (habove : above < position)
    (hposition : position ≤ p.size) :
    p.reaches above position = decide (0 < vacancies ((p.symbols.take position).drop above)) := by
  obtain ⟨last, hlast⟩ := exists_subtreeEnd_eq_ok h (Nat.lt_of_lt_of_le habove hposition)
  obtain ⟨sub, rest, hdrop, hsub, hend⟩ := exists_of_subtreeEnd_eq_ok hlast
  have hpart : (p.symbols.take position).drop above = (sub ++ rest).take (position - above) := by
    rw [List.drop_take, hdrop]
  rw [reaches, hlast, hpart]
  refine decide_eq_decide.mpr ?_
  by_cases hinside : position - above < sub.length
  · -- the subtree has not come to an end yet
    obtain ⟨left, hleft, -⟩ := hsub.exists_fill_take hinside
    rw [List.take_append_of_le_length hinside.le, vacancies, hleft]
    exact iff_of_true (by omega) (Nat.succ_pos left)
  · have hzero : vacancies ((sub ++ rest).take (position - above)) = 0 := by
      rw [List.take_append, List.take_of_length_le (Nat.le_of_not_lt hinside), vacancies_append,
        vacancies, show fill sub 1 = ([], 0) from hsub, fill_zero]
    rw [hzero]
    exact iff_of_false (by omega) (Nat.lt_irrefl 0)

/-- The level of a position depends on the symbols before it only. -/
lemma level_eq (h : Fills p.symbols 1) {position : Nat} (hposition : position ≤ p.size) :
    p.level position = around (p.symbols.take position) 0 := by
  have hlength : (p.symbols.take position).length = position :=
    List.length_take_of_le hposition
  rw [level, around, hlength]
  refine List.countP_congr fun above habove => ?_
  rw [reaches_eq h (List.mem_range.mp habove) hposition]

/-! ### The scan for the depth -/

/-- The scan for the depth keeps the levels of the places to come in its stack. -/
lemma depthBelow_levelsToCome (before : List (Symbol V)) {used : List (Symbol V)} {left : Nat}
    (hfits : Storable used) (h : fill (before ++ used) 1 = ([], left)) (rest : List (Symbol V))
    (greatest : Nat) :
    depthBelow (used ++ rest) (levelsToCome before) greatest =
      depthBelow rest (levelsToCome (before ++ used))
        (((List.range used.length).map fun i => around (before ++ used.take i) 0).foldl max
          greatest) := by
  induction used generalizing before greatest with
  | nil => simp
  | cons s used ih =>
    obtain ⟨hs, hused⟩ := List.forall_mem_cons.mp hfits
    obtain ⟨between, hbefore, hafter⟩ := exists_fill_of_append h
    obtain ⟨between, rfl⟩ : ∃ more, between = more + 1 := by
      cases between with
      | zero => simp at hafter
      | succ between => exact ⟨between, rfl⟩
    have hopen : vacancies before = between + 1 := by
      rw [vacancies, hbefore]
    obtain ⟨pending, hnow, hnext⟩ := levelsToCome_append_singleton hopen s
    have hused' : fill ((before ++ [s]) ++ used) 1 = ([], left) := by
      rw [List.append_assoc]
      exact h
    rw [hnow, List.cons_append, depthBelow, if_pos hs, ← hnext, ih (before ++ [s]) hused hused',
      List.length_cons, List.range_succ_eq_map, List.map_cons, List.map_map, List.foldl_cons,
      List.take_zero, List.append_nil, List.append_assoc]
    simp only [List.append_assoc, List.singleton_append, Function.comp_def, List.take_succ_cons]

/-- The levels of the positions of a program. -/
def levels (p : Program V) : List Nat :=
  (List.range p.size).map p.level

/-- The depth is the greatest of the levels, if the places below each symbol can be kept. -/
lemma depth_eq_foldl (h : Fills p.symbols 1) (hfits : Storable p.symbols) :
    p.depth = .ok (p.levels.foldl max 0) := by
  have hscan := depthBelow_levelsToCome [] hfits h [] 0
  rw [List.append_nil] at hscan
  have hlevels : (List.range p.symbols.length).map (fun i => around ([] ++ p.symbols.take i) 0) =
      p.levels :=
    List.map_congr_left fun i hi => (level_eq h (List.mem_range.mp hi).le).symm
  rw [depth, show [0] = levelsToCome ([] : List (Symbol V)) from rfl, hscan, hlevels, depthBelow]

/-- The greatest of some numbers is found by going through them. -/
lemma isGreatest_foldl_max (numbers : List Nat) (start : Nat) :
    IsGreatest {n | n = start ∨ n ∈ numbers} (numbers.foldl max start) := by
  induction numbers generalizing start with
  | nil => simp [IsGreatest, upperBounds]
  | cons m numbers ih =>
    obtain ⟨hmem, hupper⟩ := ih (max start m)
    rw [List.foldl_cons]
    constructor
    · rcases hmem with heq | hmem
      · rcases max_choice start m with hmax | hmax
        · exact Or.inl (heq.trans hmax)
        · exact Or.inr (List.mem_cons.mpr (Or.inl (heq.trans hmax)))
      · exact Or.inr (List.mem_cons_of_mem m hmem)
    · have hstart : max start m ≤ numbers.foldl max (max start m) := hupper (Or.inl rfl)
      rintro n (rfl | hn)
      · exact (le_max_left n m).trans hstart
      · rcases List.mem_cons.mp hn with rfl | hn
        · exact (le_max_right start n).trans hstart
        · exact hupper (Or.inr hn)

/-- The depth of a program is the greatest level of its positions. -/
lemma isGreatest_depth (h : Fills p.symbols 1) {d : Nat} (hd : p.depth = .ok d) :
    IsGreatest (p.level '' {position | position < p.size}) d := by
  have hfits : Storable p.symbols := storable_of_depth h hd
  rw [depth_eq_foldl h hfits, Except.ok.injEq] at hd
  have hroot : 0 ∈ p.level '' {position | position < p.size} := ⟨0, h.length_pos, rfl⟩
  obtain ⟨hmem, hupper⟩ := isGreatest_foldl_max p.levels 0
  rw [hd] at hmem hupper
  constructor
  · rcases hmem with rfl | hmem
    · exact hroot
    · obtain ⟨position, hposition, hlevel⟩ := List.mem_map.mp hmem
      exact ⟨position, List.mem_range.mp hposition, hlevel⟩
  · rintro level ⟨position, hposition, rfl⟩
    exact hupper (Or.inr (List.mem_map.mpr ⟨position, List.mem_range.mpr hposition, rfl⟩))

/-- The scan for the depth has a depth on top of its stack when it reaches a position: whatever
comes from there on, it goes on with this depth. -/
def TakesOff (p : Program V) (position depth : Nat) : Prop :=
  ∃ pending greatest, ∀ rest : List (Symbol V),
    depthBelow (p.symbols.take position ++ rest) [0] 0 = depthBelow rest (depth :: pending) greatest

/-- The scan takes the level off its stack. -/
lemma takesOff_level (h : Fills p.symbols 1) (hfits : Storable p.symbols) {position : Nat}
    (hposition : position < p.size) : p.TakesOff position (p.level position) := by
  obtain ⟨left, hleft, -⟩ := h.exists_fill_take hposition
  have hopen : vacancies (p.symbols.take position) = left + 1 := by
    rw [vacancies, hleft]
  have hbefore : Storable (p.symbols.take position) := fun s hs => hfits s (List.mem_of_mem_take hs)
  obtain ⟨pending, hlevels, -⟩ := levelsToCome_append_singleton hopen (.input "x" 0)
  rw [← level_eq h hposition.le] at hlevels
  have hscan := fun rest => depthBelow_levelsToCome [] hbefore hleft rest 0
  rw [List.nil_append, hlevels] at hscan
  exact ⟨pending, _, hscan⟩

/-- The end of a path below a place lies deeper by the length of the path. -/
lemma depthBelow_path (s leaf : Symbol V) (hs : s.arity = 1) (hleaf : leaf.arity = 0)
    (length depth greatest : Nat) (pending : List Nat) :
    depthBelow (List.replicate length s ++ [leaf]) (depth :: pending) greatest =
      .ok (max greatest (depth + length)) := by
  induction length generalizing depth greatest with
  | zero => simp [depthBelow, hleaf, Extent.fits, Extent.bound]
  | succ length ih =>
    have hmax : max (max greatest depth) (depth + 1 + length) =
        max greatest (depth + (length + 1)) := by
      omega
    rw [List.replicate_succ, List.cons_append, depthBelow, hs, List.replicate_one,
      List.singleton_append, ih, hmax]
    rfl

/-- There is only one depth on top of the stack. -/
lemma TakesOff.unique {position depth other : Nat} (h : p.TakesOff position depth)
    (h' : p.TakesOff position other) : depth = other := by
  obtain ⟨pending, greatest, hscan⟩ := h
  obtain ⟨pending', greatest', hscan'⟩ := h'
  -- below the place there may be a path that goes deeper than what has been met before
  have hpath := (hscan (List.replicate (greatest + greatest')
    (.function "f" 1 (fun _ => .error .missingValues) Nat.one_pos) ++ [.input "x" 0])).symm.trans
      (hscan' _)
  rw [depthBelow_path _ _ rfl rfl, depthBelow_path _ _ rfl rfl, Except.ok.injEq] at hpath
  omega

end Program

namespace Tree

open Places

variable {V : Type}

/-! ### Levels in a tree -/

/-- A position in the listings of some trees is one in the listing of one of them. -/
lemma exists_split_of_lt {trees : List (Tree V)} {position : Nat}
    (h : position < (listings trees).length) :
    ∃ (before : List (Tree V)) (t : Tree V) (after : List (Tree V)) (inside : Nat),
      trees = before ++ t :: after ∧ inside < t.listing.length ∧
        position = (listings before).length + inside := by
  induction trees generalizing position with
  | nil => simp at h
  | cons t trees ih =>
    by_cases hfirst : position < t.listing.length
    · exact ⟨[], t, trees, position, rfl, hfirst, by simp⟩
    · rw [listings_cons, List.length_append] at h
      obtain ⟨before, u, after, inside, rfl, hinside, hposition⟩ :=
        ih (show position - t.listing.length < (listings trees).length by omega)
      refine ⟨t :: before, u, after, inside, rfl, hinside, ?_⟩
      rw [listings_cons, List.length_append]
      omega

/-- A node with subtrees before a place has nothing but itself around the place. -/
lemma around_node {s : Symbol V} {before : List (Tree V)} (hsound : ∀ t ∈ before, t.Sound)
    (harity : before.length < s.arity) : around (s :: listings before) 0 = 1 := by
  have hfills : Fills (listings before) before.length :=
    fills_listings_of_forall fun t ht => (hsound t ht).fills
  obtain ⟨more, hmore⟩ : ∃ more, s.arity = before.length + (more + 1) :=
    Nat.exists_eq_add_of_lt harity
  have hopen : vacancies (s :: listings before) = more + 1 := by
    rw [vacancies, fill_cons_succ, Nat.zero_add, hmore, fill_add hfills, Nat.zero_add]
  have hnone : around (listings before) 0 = 0 := by
    rw [← List.append_nil (listings before), hfills.around_append]
    rfl
  rw [← List.singleton_append, Places.around_append, hnone]
  simp [hopen]

/-- What stands at a position of the listing of a tree stands in the tree at the level of the
position. -/
lemma exists_holds {t : Tree V} (h : t.Sound) {position : Nat}
    (hposition : position < t.listing.length) :
    ∃ u rest, t.Holds (around (t.listing.take position) 0) u ∧ u.Sound ∧
      t.listing.drop position = u.listing ++ rest := by
  induction t generalizing position with
  | node s children ih =>
    cases position with
    | zero => exact ⟨node s children, [], Holds.root _, h, (List.append_nil _).symm⟩
    | succ position =>
      cases h with
      | node harity heach =>
        rw [listing_node, List.length_cons] at hposition
        obtain ⟨before, child, after, inside, rfl, hinside, rfl⟩ :=
          exists_split_of_lt (Nat.lt_of_succ_lt_succ hposition)
        have hchild : child ∈ before ++ child :: after :=
          List.mem_append_right before List.mem_cons_self
        obtain ⟨u, rest, hu, hsound, hdrop⟩ := ih child hchild (heach child hchild) hinside
        obtain ⟨left, hopen, -⟩ := (heach child hchild).fills.exists_fill_take hinside
        have hbefore : before.length < s.arity := by
          rw [harity, List.length_append, List.length_cons]
          omega
        have hlevel : around ((node s (before ++ child :: after)).listing.take
            ((listings before).length + inside + 1)) 0 =
              around (child.listing.take inside) 0 + 1 := by
          rw [listing_node, List.take_succ_cons, listings_append, listings_cons,
            List.take_length_add_append, List.take_append_of_le_length hinside.le,
            ← List.cons_append, around_append_of_open hopen,
            around_node (fun t ht => heach t (List.mem_append_left _ ht)) hbefore, Nat.add_comm]
        refine ⟨u, rest ++ listings after, ?_, hsound, ?_⟩
        · rw [hlevel]
          exact Holds.under hchild hu
        · rw [listing_node, List.drop_succ_cons, listings_append, listings_cons,
            List.drop_length_add_append, List.drop_append_of_le_length hinside.le, hdrop,
            List.append_assoc]

end Tree

namespace Program

open Places TreeEvolution.Tree

variable {V : Type} {p : Program V}

/-- A subtree of a tree that a program lists is cut out of the program as its listing. -/
lemma subtree_eq_of_drop {position : Nat} {u : Tree V} {rest : List (Symbol V)} (hu : u.Sound)
    (hposition : position ≤ p.size) (h : p.symbols.drop position = u.listing ++ rest) :
    p.subtree position = .ok ⟨u.listing⟩ := by
  have hlength : (p.symbols.take position).length = position := List.length_take_of_le hposition
  have hfills : Fills (⟨u.listing⟩ : Program V).symbols 1 := hu.fills
  have hsub := subtree_append hfills (p.symbols.take position) rest
  rw [← h, List.take_append_drop, hlength] at hsub
  exact hsub

/-- **The scan for the depth finds heights and levels.**  Take a program that lists a tree in which
every symbol has as many subtrees as it has arguments.  Its depth is the height of the tree, and the
number that the scan takes off its stack when it comes to a position is the level of the position,
that is, the number of positions before it whose subtrees do not end before it.  The only exception
are programs of more symbols than the memory has room for.  In the tree the subtree at a position
stands with as many nodes above it as the level of the position. -/
theorem depth_scan_finds_levels {t : Tree V} (ht : t.Sound) (hp : p.symbols = t.listing) :
    (p.depth = .ok t.height ∧
        (∀ position < p.size, ∀ d, p.TakesOff position d ↔ d = p.level position) ∨
      p.depth = .error .beyondMemory ∧ Extent.fits p.size = false) ∧
    ∀ position < p.size, ∃ u : Tree V,
      p.subtree position = .ok ⟨u.listing⟩ ∧ t.Holds (p.level position) u := by
  have hfills : Fills p.symbols 1 := hp ▸ ht.fills
  constructor
  · by_cases hfits : Storable p.symbols
    · left
      constructor
      · have hdepth : depth ⟨t.listing⟩ = .ok t.height := depth_listing ht (hp ▸ hfits)
        rw [← hp] at hdepth
        exact hdepth
      · intro position hposition d
        have hlevel : p.TakesOff position (p.level position) :=
          takesOff_level hfills hfits hposition
        constructor
        · intro hd
          exact hd.unique hlevel
        · rintro rfl
          exact hlevel
    · exact Or.inr (depth_of_not_storable hfills hfits)
  · intro position hposition
    have hlength : position < t.listing.length := hp ▸ hposition
    obtain ⟨u, rest, hu, hsound, hdrop⟩ := exists_holds ht hlength
    rw [← hp] at hu hdrop
    rw [← level_eq hfills hposition.le] at hu
    exact ⟨u, subtree_eq_of_drop hsound hposition.le hdrop, hu⟩

/-- A conjunction of a negation and an input. -/
def negationAndInput : Tree Bool :=
  .node Boolean.conjunction
    [.node Boolean.negation [.node (.input "x" 0) []], .node (.input "y" 1) []]

/-- The tree is sound. -/
lemma negationAndInput_sound : negationAndInput.Sound := by
  have hleaf : ∀ name index, (node (.input name index) [] : Tree Bool).Sound := fun name index =>
    .node rfl (List.forall_mem_nil _)
  refine .node rfl (List.forall_mem_cons.mpr ⟨.node rfl ?_, List.forall_mem_singleton.mpr ?_⟩)
  · exact List.forall_mem_singleton.mpr (hleaf "x" 0)
  · exact hleaf "y" 1

/-- It has two levels below the root, and the scan takes a two off its stack when it comes to the
input below the negation. -/
theorem negationAndInput_has_two_levels :
    depth ⟨negationAndInput.listing⟩ = .ok 2 ∧ TakesOff ⟨negationAndInput.listing⟩ 2 2 := by
  obtain ⟨h, -⟩ :=
    depth_scan_finds_levels negationAndInput_sound (p := ⟨negationAndInput.listing⟩) rfl
  have hlevel : level ⟨negationAndInput.listing⟩ 2 = 2 := by decide
  rcases h with ⟨hdepth, hscan⟩ | ⟨-, hsize⟩
  · exact ⟨hdepth, (hscan 2 (by decide) 2).mpr hlevel.symm⟩
  · cases hsize

end Program

end TreeEvolution
