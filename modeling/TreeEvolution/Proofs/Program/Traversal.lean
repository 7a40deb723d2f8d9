import Mathlib.Data.List.Range
import TreeEvolution.Proofs.Program.Intervals
import TreeEvolution.Proofs.Program.Meaning
import TreeEvolution.Proofs.Program.Stack

/-!
# The order of the visits

A walk that comes to an end has gone through the listing of a tree, and it has visited the nodes of
this tree in postorder.  To say which symbol of the listing a visit is about, the visits of a tree
are put together with positions (`Tree.calls`): a node is visited at the position at which its
listing begins, after its subtrees from left to right.

Then every position of the listing is visited once (`Tree.perm_calls`), and the visits of a subtree
stand together, in the same order as if the walk had begun at the subtree (`Tree.exists_block`).
`traversal_is_postorder` says this of the walk from any position of any listing.
-/

namespace TreeEvolution

namespace Tree

variable {V : Type}

/-! ### Visits with positions -/

mutual

/-- The visits of a tree in postorder, with the positions of the symbols when the listing of the
tree begins at a position. -/
def calls (start : Nat) : Tree V → List (Nat × Visit V)
  | .node s children => callsEach (start + 1) children ++ [(start, (node s children).visit)]

/-- The visits of several trees, one tree after the other. -/
def callsEach (start : Nat) : List (Tree V) → List (Nat × Visit V)
  | [] => []
  | t :: rest => t.calls start ++ callsEach (start + t.listing.length) rest

end

@[simp] lemma calls_node (start : Nat) (s : Symbol V) (children : List (Tree V)) :
    (node s children).calls start =
      callsEach (start + 1) children ++ [(start, (node s children).visit)] := by
  rw [calls]

@[simp] lemma callsEach_nil (start : Nat) : callsEach start ([] : List (Tree V)) = [] := by
  rw [callsEach]

@[simp] lemma callsEach_cons (start : Nat) (t : Tree V) (rest : List (Tree V)) :
    callsEach start (t :: rest) = t.calls start ++ callsEach (start + t.listing.length) rest := by
  rw [callsEach]

lemma callsEach_append (start : Nat) (trees rest : List (Tree V)) :
    callsEach start (trees ++ rest) =
      callsEach start trees ++ callsEach (start + (listings trees).length) rest := by
  induction trees generalizing start with
  | nil => simp
  | cons t trees ih => simp [ih, Nat.add_assoc]

/-- The visits of several trees are those of the single trees, if this holds of each. -/
lemma map_snd_callsEach {trees : List (Tree V)}
    (h : ∀ t ∈ trees, ∀ start, (t.calls start).map Prod.snd = t.visits) (start : Nat) :
    (callsEach start trees).map Prod.snd = (postorders trees).map visit := by
  induction trees generalizing start with
  | nil => simp
  | cons t trees ih =>
    obtain ⟨ht, htrees⟩ := List.forall_mem_cons.mp h
    rw [callsEach_cons, List.map_append, ht, ih htrees, postorders_cons, List.map_append, visits]

/-- Without the positions these are the visits of the tree. -/
lemma map_snd_calls (t : Tree V) (start : Nat) : (t.calls start).map Prod.snd = t.visits := by
  induction t generalizing start with
  | node s children ih =>
    rw [calls_node, List.map_append, map_snd_callsEach ih, visits_node]
    rfl

/-- The positions of several trees follow each other, if those of each tree are its own. -/
lemma perm_callsEach {trees : List (Tree V)}
    (h : ∀ t ∈ trees, ∀ start,
      ((t.calls start).map Prod.fst).Perm (List.range' start t.listing.length)) (start : Nat) :
    ((callsEach start trees).map Prod.fst).Perm
      (List.range' start (listings trees).length) := by
  induction trees generalizing start with
  | nil => simp
  | cons t trees ih =>
    obtain ⟨ht, htrees⟩ := List.forall_mem_cons.mp h
    rw [callsEach_cons, List.map_append, listings_cons, List.length_append,
      ← List.range'_append_1]
    exact (ht start).append (ih htrees _)

/-- Every position of the listing is visited once. -/
lemma perm_calls (t : Tree V) (start : Nat) :
    ((t.calls start).map Prod.fst).Perm (List.range' start t.listing.length) := by
  induction t generalizing start with
  | node s children ih =>
    rw [calls_node, listing_node, List.map_append, List.length_cons, List.range'_succ]
    refine (List.perm_append_singleton start _).trans ?_
    exact (perm_callsEach ih (start + 1)).cons start

/-! ### The visits of a subtree -/

/-- A tree is found in another one whose listing begins at a position: its listing stands in the
listing of the other tree, and its visits stand together in those of the other tree. -/
structure Block (t : Tree V) (start : Nat) (u : Tree V) (position : Nat) : Prop where
  /-- It is a tree in which every symbol has as many arguments as its node has subtrees. -/
  sound : u.Sound
  /-- Its listing begins at its position. -/
  listing : ∃ front back, t.listing = front ++ (u.listing ++ back) ∧
    position = start + front.length
  /-- Its visits come one after the other. -/
  calls : ∃ before after, t.calls start = before ++ u.calls position ++ after

/-- A visit of several trees is a visit of one of them. -/
lemma exists_of_mem_callsEach {trees : List (Tree V)} {start : Nat} {call : Nat × Visit V}
    (h : call ∈ callsEach start trees) :
    ∃ before t after, trees = before ++ t :: after ∧
      call ∈ t.calls (start + (listings before).length) := by
  induction trees generalizing start with
  | nil => simp at h
  | cons t trees ih =>
    rw [callsEach_cons, List.mem_append] at h
    rcases h with h | h
    · exact ⟨[], t, trees, rfl, by simpa using h⟩
    · obtain ⟨before, u, after, rfl, hu⟩ := ih h
      refine ⟨t :: before, u, after, rfl, ?_⟩
      rwa [listings_cons, List.length_append, ← Nat.add_assoc]

/-- What is found in a subtree of a node is found in the node. -/
lemma Block.node {s : Symbol V} {before after : List (Tree V)} {t u : Tree V}
    {start position : Nat}
    (h : t.Block (start + 1 + (listings before).length) u position) :
    (node s (before ++ t :: after)).Block start u position := by
  obtain ⟨hsound, ⟨front, back, hlisting, hposition⟩, ⟨first, last, hcalls⟩⟩ := h
  refine ⟨hsound, ⟨s :: (listings before ++ front), back ++ listings after, ?_, ?_⟩,
    ⟨callsEach (start + 1) before ++ first, last ++
      (callsEach (start + 1 + (listings before).length + t.listing.length) after ++
        [(start, (Tree.node s (before ++ t :: after)).visit)]), ?_⟩⟩
  · rw [listing_node, listings_append, listings_cons, hlisting]
    simp only [List.cons_append, List.append_assoc]
  · rw [hposition, List.length_cons, List.length_append]
    omega
  · rw [calls_node, callsEach_append, callsEach_cons, hcalls]
    simp only [List.append_assoc]

/-- Every visit of a sound tree is the last one of a tree that is found in it. -/
lemma exists_block {t : Tree V} (h : t.Sound) {start : Nat} {call : Nat × Visit V}
    (hcall : call ∈ t.calls start) : ∃ u, t.Block start u call.1 ∧ call.2 = u.visit := by
  induction t generalizing start with
  | node s children ih =>
    rw [calls_node, List.mem_append, List.mem_singleton] at hcall
    rcases hcall with hcall | rfl
    · obtain ⟨before, t, after, rfl, ht⟩ := exists_of_mem_callsEach hcall
      have hmem : t ∈ before ++ t :: after := List.mem_append_right before List.mem_cons_self
      cases h with
      | node harity heach =>
        obtain ⟨u, hu, hvisit⟩ := ih t hmem (heach t hmem) ht
        exact ⟨u, hu.node, hvisit⟩
    · exact ⟨_, ⟨h, ⟨[], [], by simp, rfl⟩, ⟨[], [], by simp⟩⟩, rfl⟩

/-- There is a tree at every position of the listing of a sound tree. -/
lemma exists_block_of_le {t : Tree V} (h : t.Sound) {start position : Nat}
    (hle : start ≤ position) (hlt : position < start + t.listing.length) :
    ∃ u, t.Block start u position := by
  have hmem : position ∈ (t.calls start).map Prod.fst := by
    rw [(t.perm_calls start).mem_iff, List.mem_range'_1]
    exact ⟨hle, hlt⟩
  obtain ⟨call, hcall, rfl⟩ := List.mem_map.mp hmem
  obtain ⟨u, hu, -⟩ := exists_block h hcall
  exact ⟨u, hu⟩

/-- The root of a sound tree is visited in the way that fits its symbol. -/
lemma Sound.fits_visit {t : Tree V} (h : t.Sound) : t.visit.symbol = t.symbol ∧ t.visit.Fits := by
  cases h with
  | @node s children harity heach =>
    cases children with
    | nil => exact ⟨rfl, harity⟩
    | cons u children =>
      refine ⟨rfl, ?_⟩
      change s.arity ≠ 0
      rw [harity]
      exact Nat.succ_ne_zero children.length

/-- What is found in a tree has its root where its listing begins. -/
lemma Block.getElem?_eq {t u : Tree V} {start position : Nat} (h : t.Block start u position)
    {before : List (Symbol V)} (hbefore : before.length = start) (rest : List (Symbol V)) :
    (before ++ (t.listing ++ rest))[position]? = some u.symbol := by
  obtain ⟨front, back, hlisting, rfl⟩ := h.listing
  obtain ⟨s, children⟩ := u
  rw [hlisting, ← hbefore, List.getElem?_append_right (Nat.le_add_right _ _),
    Nat.add_sub_cancel_left]
  simp [symbol]

end Tree

namespace Program

open Places TreeEvolution.Tree

variable {V : Type}

/-- What is found in a tree is a subtree of the program. -/
lemma subtree_of_block {t u : Tree V} {start position : Nat} (h : t.Block start u position)
    {before : List (Symbol V)} (hbefore : before.length = start) (rest : List (Symbol V)) :
    (⟨before ++ (t.listing ++ rest)⟩ : Program V).subtree position = .ok ⟨u.listing⟩ := by
  obtain ⟨front, back, hlisting, rfl⟩ := h.listing
  have hfills : Fills (⟨u.listing⟩ : Program V).symbols 1 := h.sound.fills
  have hsub := subtree_append hfills (before ++ front) (back ++ rest)
  rw [List.length_append, hbefore] at hsub
  simpa only [hlisting, List.append_assoc] using hsub

/-- The visits of a walk that comes to an end are those of the tree that it has gone through. -/
lemma exists_visits_eq {p : Program V} {position last : Nat}
    (h : p.subtreeEnd position = .ok last) :
    ∃ (t : Tree V) (before rest : List (Symbol V)), t.Sound ∧
      p = ⟨before ++ (t.listing ++ rest)⟩ ∧ before.length = position ∧
        last + 1 = position + t.listing.length ∧ (p.walk position).visits = t.visits := by
  obtain ⟨before, rest, sub, rfl, hposition, hsize, hsub⟩ := exists_append_of_subtreeEnd h
  obtain ⟨t, ht, hlisting⟩ := fills_one_iff.mp hsub
  refine ⟨t, before, rest, ht, by rw [hlisting], hposition, by rw [hsize, hlisting, size], ?_⟩
  unfold walk Walk.ofListing
  rw [← hposition, List.drop_left, ← hlisting, visits_through_listing ht, Walk.onward_nil,
    List.append_nil]

/-- **Walks visit in postorder, and every symbol once.**  Where the walk from a position comes to an
end, it has gone through the listing of a tree, and of no other one.  Its visits are those of the
nodes of this tree in postorder.  They take up every position of the listing once, in the way that
fits the symbol there.  For any of these positions, the visits of the subtrees there stand directly
before that of the symbol, from left to right.

A counter that goes up by one at a leaf, and down by one less than the number of its arguments at a
node, has at least the number of arguments when it comes to a node; at the end it is one. -/
theorem traversal_is_postorder {p : Program V} {position last : Nat}
    (h : p.subtreeEnd position = .ok last) :
    ∃ t : Tree V,
      (t.Sound ∧ p.slice? position (last + 1) = some t.listing ∧
        ∀ u : Tree V, u.Sound → p.slice? position (last + 1) = some u.listing → u = t) ∧
      ((p.walk position).visits = t.visits ∧
        (p.walk position).visits = (t.calls position).map Prod.snd) ∧
      (((t.calls position).map Prod.fst).Perm
          (List.range' position (last + 1 - position)) ∧
        ∀ call ∈ t.calls position,
          p.symbols[call.1]? = some call.2.symbol ∧ call.2.Fits) ∧
      (∀ here, position ≤ here → here ≤ last →
        ∃ (s : Symbol V) (children : List (Tree V)), p.symbols[here]? = some s ∧
          (Tree.node s children).Sound ∧
          p.subtree here = .ok ⟨(Tree.node s children).listing⟩ ∧
          ∃ before after, t.calls position =
            before ++ (callsEach (here + 1) children ++
              [(here, (Tree.node s children).visit)]) ++ after) ∧
      (∀ before s after, (p.walk position).visits = before ++ .node s :: after →
        (s.arity : Int) ≤ Visit.counter before) ∧
      Visit.counter (p.walk position).visits = 1 := by
  obtain ⟨t, before, rest, ht, rfl, hposition, hsize, hvisits⟩ := exists_visits_eq h
  have hslice : slice? ⟨before ++ (t.listing ++ rest)⟩ position (last + 1) = some t.listing := by
    rw [hsize, ← hposition]
    exact slice?_append before t.listing rest
  have hlength : last + 1 - position = t.listing.length := by omega
  refine ⟨t, ⟨ht, hslice, fun u hu hlisting => ?_⟩, ⟨hvisits, ?_⟩, ⟨?_, fun call hcall => ?_⟩,
    fun here hle hhere => ?_, fun _ _ _ hsplit => Walk.arity_le_counter hsplit,
    counter_of_subtreeEnd h⟩
  · rw [hslice, Option.some.injEq] at hlisting
    exact listing_injective hu ht hlisting.symm
  · rw [hvisits, map_snd_calls]
  · rw [hlength]
    exact t.perm_calls position
  · obtain ⟨u, hu, hvisit⟩ := exists_block ht hcall
    obtain ⟨hsymbol, hfits⟩ := hu.sound.fits_visit
    rw [hvisit, hsymbol]
    exact ⟨hu.getElem?_eq hposition rest, hfits⟩
  · obtain ⟨u, hu⟩ := exists_block_of_le ht hle (show here < position + t.listing.length by omega)
    have hroot := hu.getElem?_eq hposition rest
    have hcut := subtree_of_block hu hposition rest
    obtain ⟨first, last, hcalls⟩ := hu.calls
    obtain ⟨s, children⟩ := u
    rw [calls_node] at hcalls
    exact ⟨s, children, hroot, hu.sound, hcut, first, last, hcalls⟩

/-- The disjunction of an input and a conjunction. -/
def inputOrConjunction : Tree Bool :=
  .node Boolean.disjunction
    [.node (.input "x" 0) [], .node Boolean.conjunction
      [.node (.input "y" 1) [], .node (Boolean.constant true) []]]

/-- The walk through its listing ends before the input that comes after it.  The conjunction is
visited after its two leaves, and the root is visited last. -/
theorem inputOrConjunction_is_visited_in_postorder :
    subtreeEnd ⟨inputOrConjunction.listing ++ [.input "z" 2]⟩ 0 = .ok 4 ∧
      (walk ⟨inputOrConjunction.listing ++ [.input "z" 2]⟩ 0).visits = inputOrConjunction.visits ∧
      (inputOrConjunction.calls 0).map Prod.fst = [1, 3, 4, 2, 0] ∧
      Visit.counter (walk ⟨inputOrConjunction.listing ++ [.input "z" 2]⟩ 0).visits = 1 := by
  have hleaf : ∀ s : Symbol Bool, s.arity = 0 → (Tree.node s []).Sound :=
    fun s hs => .node hs (List.forall_mem_nil _)
  have hsound : inputOrConjunction.Sound := by
    refine .node rfl (List.forall_mem_cons.mpr ⟨hleaf _ rfl, List.forall_mem_singleton.mpr ?_⟩)
    exact .node rfl
      (List.forall_mem_cons.mpr ⟨hleaf _ rfl, List.forall_mem_singleton.mpr (hleaf _ rfl)⟩)
  have hend : subtreeEnd ⟨inputOrConjunction.listing ++ [.input "z" 2]⟩ 0 = .ok 4 := rfl
  obtain ⟨t, ⟨-, -, hunique⟩, ⟨hvisits, -⟩, -, -, -, hone⟩ := traversal_is_postorder hend
  obtain rfl : inputOrConjunction = t := hunique inputOrConjunction hsound rfl
  exact ⟨hend, hvisits, rfl, hone⟩

end Program

end TreeEvolution
