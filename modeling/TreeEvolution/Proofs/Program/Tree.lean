import Mathlib.Data.List.Basic
import TreeEvolution.Proofs.Program.Places

/-!
# Trees and their listings

A `Tree` is a finite ordered tree whose nodes carry symbols.  It is sound if every symbol has as
many arguments as its node has subtrees; these are the trees that programs stand for.  The listing
of a tree names the symbol of the root and then lists the subtrees from left to right.

Sound trees and the listings that fill one place are the same thing: `Fills` holds exactly of the
listings of sound trees (`fills_one_iff`), and the tree is determined by its listing
(`listing_injective`).  Both are shown for several trees in a row, where the subtrees of the first
root and the trees after it may be taken together: they are the trees that the rest of the listing
lists.

`Tree.along` computes a result by recursion over a tree, `Tree.value` in particular the value on
some inputs, and `Tree.postorder` has the subtrees in the order in which their results are found.
-/

namespace TreeEvolution

/-- A finite ordered tree with symbols at its nodes. -/
inductive Tree (V : Type) where
  /-- A node with its symbol and its subtrees from left to right. -/
  | node (symbol : Symbol V) (children : List (Tree V))

namespace Tree

open Places

variable {V α : Type}

/-- A property of trees holds of all of them if a node has it whenever its subtrees have. -/
@[elab_as_elim, induction_eliminator]
theorem induction {motive : Tree V → Prop}
    (node : ∀ s children, (∀ t ∈ children, motive t) → motive (.node s children)) :
    ∀ t, motive t
  | .node s children => node s children fun t _ => induction node t

/-- The symbol of the root. -/
def symbol : Tree V → Symbol V
  | .node s _ => s

/-- The subtrees of the root. -/
def children : Tree V → List (Tree V)
  | .node _ children => children

/-- A tree in which every symbol has as many arguments as its node has subtrees. -/
inductive Sound : Tree V → Prop where
  /-- A node is sound if the number of its subtrees is right and they are sound. -/
  | node {s : Symbol V} {children : List (Tree V)} (arity : s.arity = children.length)
      (each : ∀ t ∈ children, Sound t) : Sound (.node s children)

mutual

/-- The symbols of a tree from the root downwards. -/
def listing : Tree V → List (Symbol V)
  | .node s children => s :: listings children

/-- The symbols of several trees, one tree after the other. -/
def listings : List (Tree V) → List (Symbol V)
  | [] => []
  | t :: rest => t.listing ++ listings rest

end

@[simp] lemma listing_node (s : Symbol V) (children : List (Tree V)) :
    (node s children).listing = s :: listings children := by
  rw [listing]

@[simp] lemma listings_nil : listings ([] : List (Tree V)) = [] := by
  rw [listings]

@[simp] lemma listings_cons (t : Tree V) (rest : List (Tree V)) :
    listings (t :: rest) = t.listing ++ listings rest := by
  rw [listings]

lemma listings_append (trees rest : List (Tree V)) :
    listings (trees ++ rest) = listings trees ++ listings rest := by
  induction trees with
  | nil => rw [listings_nil, List.nil_append, List.nil_append]
  | cons t trees ih =>
    rw [List.cons_append, listings_cons, listings_cons, ih, List.append_assoc]

/-- A tree has a root. -/
lemma listing_ne_nil (t : Tree V) : t.listing ≠ [] := by
  cases t with
  | node s children =>
    rw [listing_node]
    exact List.cons_ne_nil s _

/-! ### Listings of sound trees -/

/-- The listings of trees that each fill a place fill as many places. -/
lemma fills_listings_of_forall {trees : List (Tree V)} (h : ∀ t ∈ trees, Fills t.listing 1) :
    Fills (listings trees) trees.length := by
  induction trees with
  | nil => exact Fills.nil
  | cons t trees ih =>
    obtain ⟨ht, hrest⟩ := List.forall_mem_cons.mp h
    rw [listings_cons, List.length_cons, Nat.add_comm]
    exact ht.append (ih hrest)

/-- The listing of a sound tree fills one place. -/
lemma Sound.fills {t : Tree V} (h : t.Sound) : Fills t.listing 1 := by
  induction t with
  | node s children ih =>
    cases h with
    | node harity heach =>
      have hchildren : Fills (listings children) (0 + s.arity) := by
        rw [Nat.zero_add, harity]
        exact fills_listings_of_forall fun t ht => ih t ht (heach t ht)
      rw [listing_node]
      exact hchildren.cons

/-- A listing that fills some places lists as many sound trees. -/
lemma exists_listings_eq {symbols : List (Symbol V)} {places : Nat} (h : Fills symbols places) :
    ∃ trees : List (Tree V),
      trees.length = places ∧ (∀ t ∈ trees, t.Sound) ∧ listings trees = symbols := by
  induction symbols generalizing places with
  | nil =>
    rw [Fills, fill_nil, Prod.mk.injEq] at h
    exact ⟨[], h.2.symm, (fun t ht => by cases ht), listings_nil⟩
  | cons s symbols ih =>
    cases places with
    | zero => cases h
    | succ places =>
      obtain ⟨trees, hlength, hsound, hlistings⟩ := ih (show Fills symbols _ from h)
      -- the first trees of the rest are the subtrees of the new root
      have harity : s.arity = (trees.take s.arity).length := by
        rw [List.length_take]
        omega
      refine ⟨node s (trees.take s.arity) :: trees.drop s.arity, ?_, ?_, ?_⟩
      · rw [List.length_cons, List.length_drop]
        omega
      · exact List.forall_mem_cons.mpr
          ⟨.node harity fun t ht => hsound t (List.mem_of_mem_take ht),
            fun t ht => hsound t (List.mem_of_mem_drop ht)⟩
      · rw [listings_cons, listing_node, List.cons_append, ← listings_append,
          List.take_append_drop, hlistings]

/-- A listing fills one place exactly if it is the listing of a sound tree. -/
lemma fills_one_iff {symbols : List (Symbol V)} :
    Fills symbols 1 ↔ ∃ t : Tree V, t.Sound ∧ t.listing = symbols := by
  constructor
  · intro h
    obtain ⟨trees, hlength, hsound, hlistings⟩ := exists_listings_eq h
    obtain ⟨t, rfl⟩ := List.length_eq_one_iff.mp hlength
    rw [listings_cons, listings_nil, List.append_nil] at hlistings
    exact ⟨t, hsound t List.mem_cons_self, hlistings⟩
  · rintro ⟨t, ht, rfl⟩
    exact ht.fills

/-- Equally many sound trees with the same listing are the same trees. -/
lemma listings_injective {symbols : List (Symbol V)} {trees others : List (Tree V)}
    (htrees : ∀ t ∈ trees, t.Sound) (hothers : ∀ t ∈ others, t.Sound)
    (hlength : trees.length = others.length) (h : listings trees = symbols)
    (h' : listings others = symbols) : trees = others := by
  induction symbols generalizing trees others with
  | nil =>
    cases trees with
    | nil => exact (List.eq_nil_of_length_eq_zero hlength.symm).symm
    | cons t trees =>
      rw [listings_cons] at h
      exact absurd (List.append_eq_nil_iff.mp h).1 t.listing_ne_nil
  | cons s symbols ih =>
    obtain _ | ⟨⟨r, children⟩, trees⟩ := trees
    · rw [listings_nil] at h
      cases h
    obtain _ | ⟨⟨r', children'⟩, others⟩ := others
    · cases hlength
    rw [listings_cons, listing_node, List.cons_append, ← listings_append,
      List.cons.injEq] at h h'
    obtain ⟨rfl, h⟩ := h
    obtain ⟨rfl, h'⟩ := h'
    obtain ⟨hroot, htrees⟩ := List.forall_mem_cons.mp htrees
    obtain ⟨hroot', hothers⟩ := List.forall_mem_cons.mp hothers
    cases hroot with
    | node harity heach =>
    cases hroot' with
    | node harity' heach' =>
    have hchildren : children.length = children'.length := harity.symm.trans harity'
    have hrest : children ++ trees = children' ++ others := by
      refine ih (List.forall_mem_append.mpr ⟨heach, htrees⟩)
        (List.forall_mem_append.mpr ⟨heach', hothers⟩) ?_ h h'
      rw [List.length_append, List.length_append, hchildren, Nat.succ.inj hlength]
    obtain ⟨rfl, rfl⟩ := List.append_inj hrest hchildren
    rfl

/-- A sound tree is determined by its listing. -/
lemma listing_injective {t u : Tree V} (ht : t.Sound) (hu : u.Sound)
    (h : t.listing = u.listing) : t = u := by
  have hlistings : ∀ w : Tree V, listings [w] = w.listing := fun w => by
    rw [listings_cons, listings_nil, List.append_nil]
  have heq : [t] = [u] :=
    listings_injective (List.forall_mem_singleton.mpr ht) (List.forall_mem_singleton.mpr hu) rfl
      ((hlistings t).trans h) (hlistings u)
  exact (List.cons.inj heq).1

/-! ### Results by recursion -/

mutual

/-- The result of a tree: of a leaf out of the base, and of any other node out of the results of its
subtrees. -/
def along (result : Symbol V → List α → Except Fault α) (base : List α) :
    Tree V → Except Fault α
  | .node s children => do
    let results ← alongEach result base children
    result s (if children.isEmpty then base else results)

/-- The results of several trees from left to right. -/
def alongEach (result : Symbol V → List α → Except Fault α) (base : List α) :
    List (Tree V) → Except Fault (List α)
  | [] => pure []
  | t :: rest => do
    let a ← t.along result base
    let results ← alongEach result base rest
    pure (a :: results)

end

/-- The value of a tree on some inputs. -/
def value (inputs : List V) (t : Tree V) : Except Fault V :=
  t.along Symbol.apply inputs

mutual

/-- The subtrees of a tree, each after its own subtrees, which stand from left to right. -/
def postorder : Tree V → List (Tree V)
  | .node s children => postorders children ++ [.node s children]

/-- The subtrees of several trees, one tree after the other. -/
def postorders : List (Tree V) → List (Tree V)
  | [] => []
  | t :: rest => t.postorder ++ postorders rest

end

@[simp] lemma postorder_node (s : Symbol V) (children : List (Tree V)) :
    (node s children).postorder = postorders children ++ [node s children] := by
  rw [postorder]

@[simp] lemma postorders_nil : postorders ([] : List (Tree V)) = [] := by
  rw [postorders]

@[simp] lemma postorders_cons (t : Tree V) (rest : List (Tree V)) :
    postorders (t :: rest) = t.postorder ++ postorders rest := by
  rw [postorders]

/-- Several trees in postorder are the single trees in postorder. -/
lemma mem_postorders {trees : List (Tree V)} {w : Tree V} :
    w ∈ postorders trees ↔ ∃ t ∈ trees, w ∈ t.postorder := by
  induction trees with
  | nil =>
    rw [postorders_nil]
    constructor
    · intro h
      cases h
    · rintro ⟨t, ht, -⟩
      cases ht
  | cons t trees ih =>
    rw [postorders_cons, List.mem_append, ih, List.exists_mem_cons_iff]

lemma postorders_append (trees others : List (Tree V)) :
    postorders (trees ++ others) = postorders trees ++ postorders others := by
  induction trees with
  | nil => rw [postorders_nil, List.nil_append, List.nil_append]
  | cons t trees ih =>
    rw [List.cons_append, postorders_cons, postorders_cons, ih, List.append_assoc]

/-- The symbols of several trees are those of the single trees. -/
lemma mem_listings {trees : List (Tree V)} {s : Symbol V} :
    s ∈ listings trees ↔ ∃ t ∈ trees, s ∈ t.listing := by
  induction trees with
  | nil =>
    rw [listings_nil]
    constructor
    · intro h
      cases h
    · rintro ⟨t, ht, -⟩
      cases ht
  | cons t trees ih =>
    rw [listings_cons, List.mem_append, ih, List.exists_mem_cons_iff]

/-- The subtrees of a sound tree are sound, and their symbols are symbols of the tree. -/
lemma Sound.of_mem_postorder {t : Tree V} (h : t.Sound) {u : Tree V} (hu : u ∈ t.postorder) :
    u.Sound ∧ u.symbol ∈ t.listing := by
  induction t with
  | node s children ih =>
    rw [postorder_node, List.mem_append, List.mem_singleton] at hu
    rw [listing_node]
    rcases hu with hu | rfl
    · obtain ⟨w, hw, hu⟩ := mem_postorders.mp hu
      cases h with
      | node harity heach =>
        obtain ⟨hsound, hmem⟩ := ih w hw (heach w hw) hu
        exact ⟨hsound, List.mem_cons_of_mem s (mem_listings.mpr ⟨w, hw, hmem⟩)⟩
    · exact ⟨h, List.mem_cons_self⟩

end Tree

end TreeEvolution
