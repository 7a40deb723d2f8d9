import Mathlib.Algebra.GroupWithZero.Nat
import Mathlib.Data.List.Basic
import TreeEvolution.Program.Basic

/-!
# Places for subtrees

Going through a listing from the root, one has to keep account of the places where subtrees are
still to come: each symbol takes the first of them and opens as many as it has arguments.  `fill`
does nothing but this, for any number of places at the beginning, and stops where the places or the
symbols run out.  What is left of both tells the three kinds of listings apart: a listing that fills
its places exactly, one that is too short, and one that goes on after its places are filled.

`Fills` is the first kind.  The lemmas about appended listings are what cutting and putting in of
subtrees rests on: a part that fills one place may stand for any other such part.

The second half of the file reads the scans of a program off `fill`: the test for well-formedness,
the end of a walk and the depth.
-/

namespace TreeEvolution

namespace Places

variable {V : Type}

/-! ### Filling places -/

/-- Fill places with the subtrees of a listing, until there are no places or no symbols left.  The
answer is what is left of both. -/
def fill : List (Symbol V) → Nat → List (Symbol V) × Nat
  | [], places => ([], places)
  | s :: rest, 0 => (s :: rest, 0)
  | s :: rest, places + 1 => fill rest (places + s.arity)

/-- A listing that consists of exactly the given number of subtrees. -/
def Fills (symbols : List (Symbol V)) (places : Nat) : Prop :=
  fill symbols places = ([], 0)

@[simp] lemma fill_nil (places : Nat) : fill ([] : List (Symbol V)) places = ([], places) := rfl

@[simp] lemma fill_zero (symbols : List (Symbol V)) : fill symbols 0 = (symbols, 0) := by
  cases symbols <;> rfl

@[simp] lemma fill_cons_succ (s : Symbol V) (rest : List (Symbol V)) (places : Nat) :
    fill (s :: rest) (places + 1) = fill rest (places + s.arity) := rfl

/-- Symbols are left over only when every place is filled. -/
lemma eq_zero_of_fill_eq_cons {symbols rest : List (Symbol V)} {s : Symbol V} {places left : Nat}
    (h : fill symbols places = (s :: rest, left)) : left = 0 := by
  induction symbols generalizing places with
  | nil => simp at h
  | cons t symbols ih =>
    cases places with
    | zero => exact (Prod.mk.inj h).2.symm
    | succ places => exact ih h

/-- A listing that is used up leaves its open places to whatever comes after it. -/
lemma fill_append {symbols : List (Symbol V)} {places left : Nat}
    (h : fill symbols places = ([], left)) (more : List (Symbol V)) :
    fill (symbols ++ more) places = fill more left := by
  induction symbols generalizing places with
  | nil => rw [(Prod.mk.inj h).2, List.nil_append]
  | cons s symbols ih =>
    cases places with
    | zero => simp at h
    | succ places => exact ih h

/-- Further places do not change how a listing that is used up fills the first ones. -/
lemma fill_add {symbols : List (Symbol V)} {places left : Nat}
    (h : fill symbols places = ([], left)) (more : Nat) :
    fill symbols (places + more) = ([], left + more) := by
  induction symbols generalizing places with
  | nil =>
    rw [fill_nil, (Prod.mk.inj h).2]
  | cons s symbols ih =>
    cases places with
    | zero => simp at h
    | succ places =>
      rw [Nat.add_right_comm, fill_cons_succ, Nat.add_right_comm]
      exact ih h

/-- The symbols that are used and those that are left make up the listing. -/
lemma exists_append_of_fill {symbols rest : List (Symbol V)} {places left : Nat}
    (h : fill symbols places = (rest, left)) :
    ∃ used, symbols = used ++ rest ∧ fill used places = ([], left) := by
  induction symbols generalizing places with
  | nil =>
    obtain ⟨rfl, rfl⟩ := Prod.mk.inj h
    exact ⟨[], rfl, rfl⟩
  | cons s symbols ih =>
    cases places with
    | zero =>
      obtain ⟨rfl, rfl⟩ := Prod.mk.inj h
      exact ⟨[], rfl, rfl⟩
    | succ places =>
      obtain ⟨used, rfl, hused⟩ := ih h
      exact ⟨s :: used, rfl, hused⟩

/-- A listing is used up before what follows it is. -/
lemma exists_fill_of_append {before more : List (Symbol V)} {places left : Nat}
    (h : fill (before ++ more) places = ([], left)) :
    ∃ between, fill before places = ([], between) ∧ fill more between = ([], left) := by
  induction before generalizing places with
  | nil => exact ⟨places, rfl, h⟩
  | cons s before ih =>
    cases places with
    | zero => simp at h
    | succ places => exact ih h

/-- Every symbol takes one place and opens as many as it has arguments. -/
lemma add_sum_arity_of_fill {symbols : List (Symbol V)} {places left : Nat}
    (h : fill symbols places = ([], left)) :
    places + (symbols.map Symbol.arity).sum = left + symbols.length := by
  induction symbols generalizing places with
  | nil => exact (Prod.mk.inj h).2
  | cons s symbols ih =>
    cases places with
    | zero => simp at h
    | succ places =>
      have hrest : places + s.arity + (symbols.map Symbol.arity).sum = left + symbols.length :=
        ih h
      rw [List.map_cons, List.sum_cons, List.length_cons]
      omega

/-- A listing begins with the subtrees for its places, or it is too short for them. -/
lemma fill_cases (symbols : List (Symbol V)) (places : Nat) :
    (∃ used rest, symbols = used ++ rest ∧ Fills used places) ∨
      ∃ left, fill symbols places = ([], left + 1) := by
  obtain ⟨rest, left, h⟩ : ∃ rest left, fill symbols places = (rest, left) := ⟨_, _, rfl⟩
  obtain ⟨used, hused, hfill⟩ := exists_append_of_fill h
  cases left with
  | zero => exact Or.inl ⟨used, rest, hused, hfill⟩
  | succ left =>
    cases rest with
    | nil => exact Or.inr ⟨left, h⟩
    | cons s rest => exact absurd (eq_zero_of_fill_eq_cons h) (Nat.succ_ne_zero left)

/-! ### Listings of subtrees -/

namespace Fills

variable {symbols more : List (Symbol V)} {places further : Nat}

lemma nil : Fills ([] : List (Symbol V)) 0 := rfl

/-- A symbol takes a place and opens those of its arguments. -/
lemma cons {s : Symbol V} (h : Fills symbols (places + s.arity)) :
    Fills (s :: symbols) (places + 1) := h

/-- Listings of subtrees may be put one after the other. -/
lemma append (h : Fills symbols places) (hmore : Fills more further) :
    Fills (symbols ++ more) (places + further) := by
  have hadd : fill symbols (places + further) = ([], further) := by
    simpa using fill_add h further
  rw [Fills, fill_append hadd]
  exact hmore

/-- What follows a subtree fills the other places. -/
lemma fill_append_succ (h : Fills symbols 1) (rest : List (Symbol V)) (places : Nat) :
    fill (symbols ++ rest) (places + 1) = fill rest places := by
  have hadd : fill symbols (1 + places) = ([], places) := by
    simpa using fill_add h places
  rw [Nat.add_comm, fill_append hadd]

/-- A place is filled by at least one symbol. -/
lemma length_pos (h : Fills symbols (places + 1)) : 0 < symbols.length := by
  cases symbols with
  | nil => simp [Fills] at h
  | cons s symbols => exact Nat.succ_pos _

/-- The arguments of the symbols are the roots of all subtrees but the given ones. -/
lemma add_sum_arity (h : Fills symbols places) :
    places + (symbols.map Symbol.arity).sum = symbols.length := by
  simpa using add_sum_arity_of_fill h

end Fills

end Places

namespace Program

open Places

variable {V : Type}

/-! ### The test for well-formedness -/

/-- As long as the places can be counted, the test tells whether the listing fills them. -/
lemma listsTrees_eq {symbols : List (Symbol V)} {places : Nat}
    (h : places + (symbols.map Symbol.arity).sum ≤ UInt64.size) :
    listsTrees symbols places =
      .ok ((fill symbols places).1.isEmpty && (fill symbols places).2 == 0) := by
  induction symbols generalizing places with
  | nil => rfl
  | cons s symbols ih =>
    cases places with
    | zero => rfl
    | succ places =>
      rw [List.map_cons, List.sum_cons] at h
      have hcount : places + s.arity < UInt64.size := by omega
      rw [listsTrees, if_pos hcount, fill_cons_succ]
      exact ih (by omega)

/-- A listing whose test succeeds fills as many places as were open. -/
lemma fills_of_listsTrees {symbols : List (Symbol V)} {places : Nat}
    (h : listsTrees symbols places = .ok true) : Fills symbols places := by
  induction symbols generalizing places with
  | nil =>
    rw [listsTrees, Except.ok.injEq, beq_iff_eq] at h
    rw [h]
    exact Fills.nil
  | cons s symbols ih =>
    cases places with
    | zero => cases h
    | succ places =>
      rw [listsTrees] at h
      split at h
      · exact (ih h).cons
      · cases h

/-- A listing that fills one place and is not longer than numbers go is well formed. -/
lemma isWellFormed_of_fills {p : Program V} (h : Fills p.symbols 1) (hsize : p.size ≤ UInt64.size) :
    p.isWellFormed = .ok true := by
  have hcount : 1 + (p.symbols.map Symbol.arity).sum ≤ UInt64.size := by
    rw [h.add_sum_arity]
    exact hsize
  rw [isWellFormed, listsTrees_eq hcount, show fill p.symbols 1 = ([], 0) from h]
  rfl

/-- The test answers for every listing whose places can be counted. -/
lemma isWellFormed_eq_true_iff {p : Program V}
    (h : (p.symbols.map Symbol.arity).sum < UInt64.size) :
    p.isWellFormed = .ok true ↔ Fills p.symbols 1 := by
  rw [isWellFormed, listsTrees_eq (by omega), Fills, Prod.ext_iff]
  simp

/-- The test answers for every listing whose places can be counted. -/
lemma isWellFormed_eq_false_iff {p : Program V}
    (h : (p.symbols.map Symbol.arity).sum < UInt64.size) :
    p.isWellFormed = .ok false ↔ ¬ Fills p.symbols 1 := by
  rw [isWellFormed, listsTrees_eq (by omega), Fills, Prod.ext_iff]
  simp only [Except.ok.injEq, Bool.and_eq_false_iff, List.isEmpty_eq_false_iff, ne_eq,
    beq_eq_false_iff_ne, not_and_or]

end Program

/-! ### The end of a walk -/

namespace Walk

open Places

variable {V : Type}

/-- Every open node waits for a subtree, and for no more of them than its symbol has arguments. -/
def Waiting (stack : List (Open V)) : Prop :=
  ∀ node ∈ stack, 0 < node.missing ∧ node.missing ≤ node.symbol.arity

/-- The places that a stack of open nodes leaves to what comes next.  A node keeps one of its places
for the subtree around which the nodes above it in the stack are open. -/
def places (stack : List (Open V)) : Nat :=
  (stack.map fun node => node.missing - 1).sum + 1

@[simp] lemma places_cons (node : Open V) (stack : List (Open V)) :
    places (node :: stack) = node.missing - 1 + places stack := by
  rw [places, places, List.map_cons, List.sum_cons, Nat.add_assoc]

lemma waiting_nil : Waiting ([] : List (Open V)) := by
  intro node h
  cases h

lemma waiting_cons {node : Open V} {stack : List (Open V)} :
    Waiting (node :: stack) ↔
      (0 < node.missing ∧ node.missing ≤ node.symbol.arity) ∧ Waiting stack :=
  List.forall_mem_cons

/-- The node of a symbol with arguments waits for all of them. -/
lemma waiting_open {s : Symbol V} {stack : List (Open V)} (hs : s.arity ≠ 0)
    (h : Waiting stack) : Waiting (⟨s, s.arity⟩ :: stack) :=
  waiting_cons.mpr ⟨⟨Nat.pos_of_ne_zero hs, Nat.le_refl _⟩, h⟩

/-- An open node offers the places that its symbol opens when it takes one itself. -/
lemma fill_places_open {s : Symbol V} (hs : s.arity ≠ 0) (symbols : List (Symbol V))
    (stack : List (Open V)) :
    fill symbols (places (⟨s, s.arity⟩ :: stack)) = fill (s :: symbols) (places stack) := by
  have hplaces : places (⟨s, s.arity⟩ :: stack) =
      (stack.map fun node => node.missing - 1).sum + s.arity := by
    rw [places_cons, places]
    change s.arity - 1 + (_ + 1) = _ + s.arity
    omega
  rw [hplaces]
  rfl

/-- A finished subtree completes all open nodes, when it fills the last place, or takes one place
away. -/
lemma complete_cases {stack : List (Open V)} (h : Waiting stack) :
    (complete stack).2 = [] ∧ places stack = 1 ∨
      ∃ node outer, (complete stack).2 = node :: outer ∧ Waiting (node :: outer) ∧
        places stack = places (node :: outer) + 1 := by
  induction stack with
  | nil => exact Or.inl ⟨rfl, rfl⟩
  | cons node outer ih =>
    obtain ⟨⟨hpos, hle⟩, houter⟩ := waiting_cons.mp h
    rw [complete]
    by_cases hlast : node.missing ≤ 1
    · have hone : node.missing = 1 := Nat.le_antisymm hlast hpos
      rw [if_pos hlast, places_cons, hone]
      simpa using ih houter
    · rw [if_neg hlast]
      refine Or.inr ⟨_, outer, rfl, waiting_cons.mpr ⟨⟨?_, ?_⟩, houter⟩, ?_⟩
      · change 0 < node.missing - 1
        omega
      · change node.missing - 1 ≤ node.symbol.arity
        omega
      · rw [places_cons, places_cons]
        change node.missing - 1 + places outer = node.missing - 1 - 1 + places outer + 1
        omega

/-- A walk goes on after a leaf unless the leaf fills the last place. -/
lemma size?_through_leaf {s : Symbol V} (hs : s.arity = 0) (rest : List (Symbol V))
    (stack : List (Open V)) :
    (through (s :: rest) stack).size? =
      if (complete stack).2 = [] then some 1
      else ((through rest (complete stack).2).size?).map (· + 1) := by
  rw [through, if_pos hs]
  rcases complete stack with ⟨visits, _ | ⟨node, outer⟩⟩
  · rfl
  · rw [if_neg (List.cons_ne_nil node outer)]
    rfl

/-- A walk goes on after an inner symbol. -/
lemma size?_through_node {s : Symbol V} (hs : s.arity ≠ 0) (rest : List (Symbol V))
    (stack : List (Open V)) :
    (through (s :: rest) stack).size? =
      ((through rest (⟨s, s.arity⟩ :: stack)).size?).map (· + 1) := by
  rw [through, if_neg hs]
  rfl

/-- A walk takes the symbols that fill its places, whatever comes after them. -/
lemma size?_through_append {used : List (Symbol V)} {stack : List (Open V)} (h : Waiting stack)
    (hused : Fills used (places stack)) (rest : List (Symbol V)) :
    (through (used ++ rest) stack).size? = some used.length := by
  induction used generalizing stack with
  | nil => cases hused
  | cons s used ih =>
    rw [List.cons_append]
    by_cases hs : s.arity = 0
    · rw [size?_through_leaf hs]
      rcases complete_cases h with ⟨hnil, hone⟩ | ⟨node, outer, hcons, hwaiting, hplaces⟩
      · rw [hone, Fills, fill_cons_succ, hs, fill_zero] at hused
        rw [if_pos hnil, (Prod.mk.inj hused).1]
        rfl
      · rw [hplaces, Fills, fill_cons_succ, hs, Nat.add_zero] at hused
        rw [hcons, if_neg (List.cons_ne_nil node outer), ih hwaiting hused]
        rfl
    · have hopen : Fills used (places (⟨s, s.arity⟩ :: stack)) :=
        (fill_places_open hs used stack).trans hused
      rw [size?_through_node hs, ih (waiting_open hs h) hopen]
      rfl

/-- A walk through a listing that leaves places open does not end. -/
lemma size?_through_eq_none {symbols : List (Symbol V)} {stack : List (Open V)} {left : Nat}
    (h : Waiting stack) (hleft : fill symbols (places stack) = ([], left + 1)) :
    (through symbols stack).size? = none := by
  induction symbols generalizing stack with
  | nil => rfl
  | cons s symbols ih =>
    by_cases hs : s.arity = 0
    · rw [size?_through_leaf hs]
      rcases complete_cases h with ⟨_, hone⟩ | ⟨node, outer, hcons, hwaiting, hplaces⟩
      · rw [hone, fill_cons_succ, hs, fill_zero] at hleft
        cases hleft
      · rw [hplaces, fill_cons_succ, hs, Nat.add_zero] at hleft
        rw [hcons, if_neg (List.cons_ne_nil node outer), ih hwaiting hleft]
        rfl
    · have hopen : fill symbols (places (⟨s, s.arity⟩ :: stack)) = ([], left + 1) :=
        (fill_places_open hs symbols stack).trans hleft
      rw [size?_through_node hs, ih (waiting_open hs h) hopen]
      rfl

end Walk

namespace Program

open Places

variable {V : Type}

/-- The subtree at a position consists of the symbols that fill the place there. -/
lemma subtreeEnd_eq_ok {p : Program V} {position : Nat} {sub rest : List (Symbol V)}
    (h : p.symbols.drop position = sub ++ rest) (hsub : Fills sub 1) :
    p.subtreeEnd position = .ok (position + sub.length - 1) := by
  have hsize : (p.walk position).size? = some sub.length := by
    rw [walk, Walk.ofListing, h]
    exact Walk.size?_through_append Walk.waiting_nil hsub rest
  rw [subtreeEnd, lastOf, hsize]

/-- A subtree that reaches beyond the end of the listing asks for the first symbol that is not
there. -/
lemma subtreeEnd_eq_error {p : Program V} {position left : Nat}
    (h : fill (p.symbols.drop position) 1 = ([], left + 1)) :
    p.subtreeEnd position = .error (.missingSymbol (max position p.size) p.size) := by
  have hsize : (p.walk position).size? = none :=
    Walk.size?_through_eq_none Walk.waiting_nil h
  rw [subtreeEnd, lastOf, hsize]

/-- Where a subtree ends, the symbols up to its end fill one place. -/
lemma exists_of_subtreeEnd_eq_ok {p : Program V} {position last : Nat}
    (h : p.subtreeEnd position = .ok last) :
    ∃ sub rest, p.symbols.drop position = sub ++ rest ∧ Fills sub 1 ∧
      last + 1 = position + sub.length := by
  rcases fill_cases (p.symbols.drop position) 1 with ⟨sub, rest, hdrop, hsub⟩ | ⟨left, hleft⟩
  · have hpos : 0 < sub.length := hsub.length_pos
    rw [subtreeEnd_eq_ok hdrop hsub, Except.ok.injEq] at h
    exact ⟨sub, rest, hdrop, hsub, by omega⟩
  · rw [subtreeEnd_eq_error hleft] at h
    cases h

/-! ### The depth -/

/-- The places below each symbol of a listing can be kept in a list. -/
def Storable (symbols : List (Symbol V)) : Prop :=
  ∀ s ∈ symbols, Extent.fits s.arity = true

instance (symbols : List (Symbol V)) : Decidable (Storable symbols) :=
  inferInstanceAs (Decidable (∀ s ∈ symbols, Extent.fits s.arity = true))

/-- No symbol of a listing that fills its places has more arguments than there are symbols. -/
lemma storable_of_fills {symbols : List (Symbol V)} {places : Nat} (h : Fills symbols places)
    (hfits : Extent.fits symbols.length = true) : Storable symbols := by
  have hlength : symbols.length < Extent.bound := of_decide_eq_true hfits
  rw [← h.add_sum_arity] at hlength
  intro s hs
  obtain ⟨before, after, rfl⟩ := List.append_of_mem hs
  rw [List.map_append, List.sum_append, List.map_cons, List.sum_cons] at hlength
  exact decide_eq_true (show s.arity < Extent.bound by omega)

/-- The scan for the depth goes on after symbols that are used up, with a depth for each place that
they leave. -/
lemma depthBelow_append {used : List (Symbol V)} {pending : List Nat} {left : Nat}
    (hfits : Storable used) (hused : fill used pending.length = ([], left)) (greatest : Nat) :
    ∃ pending' greatest', pending'.length = left ∧ ∀ rest,
      depthBelow (used ++ rest) pending greatest = depthBelow rest pending' greatest' := by
  induction used generalizing pending greatest with
  | nil =>
    rw [fill_nil, Prod.mk.injEq] at hused
    exact ⟨pending, greatest, hused.2, fun rest => rfl⟩
  | cons s used ih =>
    cases pending with
    | nil => simp at hused
    | cons depth pending =>
      obtain ⟨hs, hrest⟩ := List.forall_mem_cons.mp hfits
      have hlength : (List.replicate s.arity (depth + 1) ++ pending).length =
          pending.length + s.arity := by
        rw [List.length_append, List.length_replicate, Nat.add_comm]
      rw [List.length_cons, fill_cons_succ, ← hlength] at hused
      obtain ⟨pending', greatest', hleft, heq⟩ := ih hrest hused (max greatest depth)
      refine ⟨pending', greatest', hleft, fun rest => ?_⟩
      rw [List.cons_append, depthBelow, if_pos hs, heq]

/-- The scan for the depth breaks off at a symbol whose places cannot be kept. -/
lemma depthBelow_eq_beyondMemory {used : List (Symbol V)} {pending : List Nat} {left : Nat}
    (hfits : ¬ Storable used) (hused : fill used pending.length = ([], left))
    (rest : List (Symbol V)) (greatest : Nat) :
    depthBelow (used ++ rest) pending greatest = .error .beyondMemory := by
  induction used generalizing pending greatest with
  | nil => exact absurd (fun s hs => by cases hs) hfits
  | cons s used ih =>
    cases pending with
    | nil => simp at hused
    | cons depth pending =>
      rw [List.cons_append, depthBelow]
      by_cases hs : Extent.fits s.arity = true
      · have hrest : ¬ Storable used := fun h => hfits (List.forall_mem_cons.mpr ⟨hs, h⟩)
        have hlength : (List.replicate s.arity (depth + 1) ++ pending).length =
            pending.length + s.arity := by
          rw [List.length_append, List.length_replicate, Nat.add_comm]
        rw [List.length_cons, fill_cons_succ, ← hlength] at hused
        rw [if_pos hs]
        exact ih hrest hused (max greatest depth)
      · rw [if_neg hs]

/-- A listing that is used up has a depth if its places can be kept. -/
lemma depth_eq_ok {p : Program V} {left : Nat} (hfits : Storable p.symbols)
    (hused : fill p.symbols 1 = ([], left)) : ∃ depth, p.depth = .ok depth := by
  obtain ⟨pending, greatest, -, heq⟩ :=
    depthBelow_append hfits (show fill _ [0].length = _ from hused) 0
  refine ⟨greatest, ?_⟩
  rw [depth, ← List.append_nil p.symbols, heq]
  cases pending <;> rfl

/-- A listing has no depth if the places of one of the symbols that are used cannot be kept. -/
lemma depth_eq_beyondMemory {p : Program V} {used rest : List (Symbol V)} {left : Nat}
    (h : p.symbols = used ++ rest) (hfits : ¬ Storable used)
    (hused : fill used 1 = ([], left)) : p.depth = .error .beyondMemory := by
  rw [depth, h]
  exact depthBelow_eq_beyondMemory hfits (show fill used [0].length = _ from hused) rest 0

/-- A tree has no depth only if memory has no room for the tree either. -/
lemma depth_of_not_storable {p : Program V} (h : Fills p.symbols 1) (hfits : ¬ Storable p.symbols) :
    p.depth = .error .beyondMemory ∧ Extent.fits p.size = false := by
  constructor
  · exact depth_eq_beyondMemory (List.append_nil _).symm hfits h
  · by_contra hsize
    exact hfits (storable_of_fills h (Bool.of_not_eq_false hsize))

/-- The places below the symbols of a tree that has a depth can be kept. -/
lemma storable_of_depth {p : Program V} (h : Fills p.symbols 1) {d : Nat} (hd : p.depth = .ok d) :
    Storable p.symbols := by
  by_contra hfits
  rw [(depth_of_not_storable h hfits).1] at hd
  cases hd

end Program

end TreeEvolution
