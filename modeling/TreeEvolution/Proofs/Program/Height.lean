import Mathlib.Data.List.Basic
import TreeEvolution.Proofs.Program.Tree

/-!
# Depths in a tree

The depth of a node is the number of nodes above it, and the height of a tree is the depth of its
deepest leaf.  `Tree.Holds` says which trees stand at which depth below a root, and `Tree.height` is
computed by recursion.

The depth of a program is found with a scan that keeps a stack of the depths of the places to come.
The listing of a tree takes one depth off this stack, whatever lies below it, and leaves the
greatest depth that was met in the tree (`depthBelow_listing`).  So the depth of a program that
lists a sound tree is the height of the tree (`depth_listing`), as long as the places below each of
its symbols can be kept in a list.
-/

namespace TreeEvolution

namespace Tree

variable {V : Type}

/-- A tree holds another one at a depth: there are as many nodes above its root. -/
inductive Holds : Tree V → Nat → Tree V → Prop where
  /-- Nothing is above the root. -/
  | root (t : Tree V) : Holds t 0 t
  /-- What a subtree of the root holds stands one level further down. -/
  | under {s : Symbol V} {children : List (Tree V)} {child u : Tree V} {depth : Nat}
      (mem : child ∈ children) (h : Holds child depth u) : Holds (.node s children) (depth + 1) u

/-- Below the root there is what the subtrees of the root hold. -/
lemma holds_node_iff {s : Symbol V} {children : List (Tree V)} {depth : Nat} {u : Tree V} :
    (node s children).Holds depth u ↔
      (depth = 0 ∧ u = node s children) ∨
        ∃ child ∈ children, ∃ above, depth = above + 1 ∧ child.Holds above u := by
  constructor
  · intro h
    cases h with
    | root => exact Or.inl ⟨rfl, rfl⟩
    | under hmem h => exact Or.inr ⟨_, hmem, _, rfl, h⟩
  · rintro (⟨rfl, rfl⟩ | ⟨child, hmem, above, rfl, h⟩)
    · exact Holds.root _
    · exact Holds.under hmem h

/-! ### Heights -/

mutual

/-- The greatest depth of the nodes of a tree: zero for a leaf, and one more than that of the
highest subtree for any other node. -/
def height : Tree V → Nat
  | .node _ children => heightAbove children

/-- The height of a node with the given subtrees. -/
def heightAbove : List (Tree V) → Nat
  | [] => 0
  | t :: rest => max (t.height + 1) (heightAbove rest)

end

@[simp] lemma height_node (s : Symbol V) (children : List (Tree V)) :
    (node s children).height = heightAbove children := by
  rw [height]

@[simp] lemma heightAbove_nil : heightAbove ([] : List (Tree V)) = 0 := by
  rw [heightAbove]

@[simp] lemma heightAbove_cons (t : Tree V) (rest : List (Tree V)) :
    heightAbove (t :: rest) = max (t.height + 1) (heightAbove rest) := by
  rw [heightAbove]

/-- A node with subtrees is one level higher than one of them. -/
lemma exists_heightAbove_eq {trees : List (Tree V)} (h : trees ≠ []) :
    ∃ t ∈ trees, heightAbove trees = t.height + 1 := by
  induction trees with
  | nil => exact absurd rfl h
  | cons u trees ih =>
    rw [heightAbove_cons]
    by_cases hle : heightAbove trees ≤ u.height + 1
    · exact ⟨u, List.mem_cons_self, Nat.max_eq_left hle⟩
    · have hne : trees ≠ [] := by
        rintro rfl
        exact hle (Nat.zero_le _)
      obtain ⟨t, ht, heq⟩ := ih hne
      refine ⟨t, List.mem_cons_of_mem u ht, ?_⟩
      rw [Nat.max_eq_right (Nat.le_of_not_le hle), heq]

/-- At the height there is a leaf. -/
lemma exists_holds_height (t : Tree V) : ∃ u, t.Holds t.height u ∧ u.children = [] := by
  induction t with
  | node s children ih =>
    rw [height_node]
    by_cases hne : children = []
    · subst hne
      exact ⟨node s [], Holds.root _, rfl⟩
    · obtain ⟨child, hmem, heq⟩ := exists_heightAbove_eq hne
      obtain ⟨u, hu, hleaf⟩ := ih child hmem
      rw [heq]
      exact ⟨u, Holds.under hmem hu, hleaf⟩

/-! ### Depths of leaves -/

/-- Every leaf of a tree stands at a depth between two bounds. -/
def LeavesBetween (lo hi : Nat) (t : Tree V) : Prop :=
  ∀ depth u, t.Holds depth u → u.children = [] → lo ≤ depth ∧ depth ≤ hi

namespace LeavesBetween

variable {s : Symbol V} {children : List (Tree V)} {t : Tree V} {lo hi : Nat}

/-- The leaf of a single node has nothing above it. -/
lemma leaf (s : Symbol V) (hi : Nat) : (node s []).LeavesBetween 0 hi := by
  intro depth u hu _
  rcases holds_node_iff.mp hu with ⟨rfl, -⟩ | ⟨child, hmem, -⟩
  · exact ⟨Nat.le_refl 0, Nat.zero_le hi⟩
  · cases hmem

/-- The leaves below a node are the leaves of its subtrees, one level further down. -/
lemma node (hne : children ≠ []) (h : ∀ t ∈ children, t.LeavesBetween lo hi) :
    (node s children).LeavesBetween (lo + 1) (hi + 1) := by
  intro depth u hu hleaf
  rcases holds_node_iff.mp hu with ⟨-, rfl⟩ | ⟨child, hmem, above, rfl, hbelow⟩
  · exact absurd hleaf hne
  · obtain ⟨hlo, hhi⟩ := h child hmem above u hbelow hleaf
    exact ⟨Nat.succ_le_succ hlo, Nat.succ_le_succ hhi⟩

/-- The height is the depth of a leaf. -/
lemma height (h : t.LeavesBetween lo hi) : lo ≤ t.height ∧ t.height ≤ hi := by
  obtain ⟨u, hu, hleaf⟩ := t.exists_holds_height
  exact h _ u hu hleaf

end LeavesBetween

end Tree

namespace Program

open TreeEvolution.Tree

variable {V : Type}

/-! ### The scan for the depth -/

/-- The scan goes through the listings of several trees with their roots one level below a depth, if
it goes through the listing of each of them. -/
lemma depthBelow_listings {trees : List (Tree V)}
    (h : ∀ t ∈ trees, ∀ rest depth pending greatest,
      depthBelow (t.listing ++ rest) (depth :: pending) greatest =
        depthBelow rest pending (max greatest (depth + t.height)))
    (rest : List (Symbol V)) {depth greatest : Nat} (pending : List Nat)
    (hgreatest : depth ≤ greatest) :
    depthBelow (listings trees ++ rest) (List.replicate trees.length (depth + 1) ++ pending)
        greatest =
      depthBelow rest pending (max greatest (depth + heightAbove trees)) := by
  induction trees generalizing greatest with
  | nil =>
    have hmax : max greatest (depth + heightAbove ([] : List (Tree V))) = greatest := by
      rw [heightAbove_nil]
      exact Nat.max_eq_left hgreatest
    rw [hmax, listings_nil]
    rfl
  | cons t trees ih =>
    obtain ⟨ht, htrees⟩ := List.forall_mem_cons.mp h
    have hmax : max (max greatest (depth + 1 + t.height)) (depth + heightAbove trees) =
        max greatest (depth + max (t.height + 1) (heightAbove trees)) := by
      omega
    rw [listings_cons, List.append_assoc, List.length_cons, List.replicate_succ, List.cons_append,
      ht, ih htrees (Nat.le_trans hgreatest (Nat.le_max_left _ _)), hmax, heightAbove_cons]

/-- The scan goes through the listing of a sound tree with one depth of its stack. -/
lemma depthBelow_listing {t : Tree V} (h : t.Sound) (hfits : Storable t.listing)
    (rest : List (Symbol V)) (depth : Nat) (pending : List Nat) (greatest : Nat) :
    depthBelow (t.listing ++ rest) (depth :: pending) greatest =
      depthBelow rest pending (max greatest (depth + t.height)) := by
  induction t generalizing rest depth pending greatest with
  | node s children ih =>
    cases h with
    | node harity heach =>
      rw [listing_node] at hfits ⊢
      obtain ⟨hs, hbelow⟩ := List.forall_mem_cons.mp hfits
      have hchildren : ∀ u ∈ children, ∀ rest depth pending greatest,
          depthBelow (u.listing ++ rest) (depth :: pending) greatest =
            depthBelow rest pending (max greatest (depth + u.height)) := fun u hu =>
        ih u hu (heach u hu) fun r hr => hbelow r (mem_listings.mpr ⟨u, hu, hr⟩)
      have hmax : max (max greatest depth) (depth + heightAbove children) =
          max greatest (depth + heightAbove children) := by
        omega
      rw [List.cons_append, depthBelow, if_pos hs, harity,
        depthBelow_listings hchildren rest pending (Nat.le_max_right greatest depth), hmax,
        height_node]

/-- The depth of a program that lists a sound tree is the height of the tree. -/
lemma depth_listing {t : Tree V} (h : t.Sound) (hfits : Storable t.listing) :
    depth ⟨t.listing⟩ = .ok t.height := by
  have hscan := depthBelow_listing h hfits [] 0 [] 0
  rw [List.append_nil, Nat.zero_max, Nat.zero_add] at hscan
  exact hscan

end Program

end TreeEvolution
