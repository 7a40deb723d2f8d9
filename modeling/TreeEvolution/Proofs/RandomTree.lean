import Mathlib.Data.List.Basic
import TreeEvolution.Proofs.Outcomes
import TreeEvolution.Proofs.Program.Tree
import TreeEvolution.TreeSampler

/-!
# Random trees by recursion

A sampler lists its trees in a loop, with the depths of the places to come in a stack.  The same
trees are had by recursion: `TreeSampler.tree` draws a root and then the subtrees of the root from
left to right, each of them one level further down.  The stack of the loop has a depth for each call
that the recursion has yet to make, so both ask for the same words in the same order.

The recursion says for itself when a branch ends and what a leaf is; `leafTree_eq`, `stops_eq` and
`grows_eq` compare this with what the loop does in one round.

The two differ in one respect.  The loop has to put as many depths into its stack as a function has
arguments, and where no list can hold them it is broken off; the recursion goes on, to a program
that no list can hold.  `Draw.Matches` is equality up to this, and `sample_is_recursive` compares
the two.
-/

namespace TreeEvolution

variable {σ α β : Type}

/-! ### Equality up to memory -/

/-- A number that is greater than one beyond the items of any list is beyond them as well. -/
lemma Extent.fits_eq_false_of_le {m n : Nat} (h : Extent.fits m = false) (hle : m ≤ n) :
    Extent.fits n = false := by
  have hbound : ¬ m < Extent.bound := of_decide_eq_false h
  exact decide_eq_false fun hlt => hbound (Nat.lt_of_le_of_lt hle hlt)

namespace Draw

/-- Two random computations come to the same from every source.  If there is a shortage, the first
one may also run out of memory where the second one has no value of a size that fits. -/
def Matches (shortage : Prop) (size : α → Nat) (loop recursion : Draw σ α) : Prop :=
  ∀ source, loop.outcome source = recursion.outcome source ∨
    shortage ∧ (∃ rest, loop.outcome source = (.error (.fault .beyondMemory), rest)) ∧
      ∀ a rest, recursion.outcome source = (.ok a, rest) → Extent.fits (size a) = false

namespace Matches

variable {shortage : Prop} {size : α → Nat} {loop recursion : Draw σ α}

lemma refl (draw : Draw σ α) : Matches shortage size draw draw :=
  fun _ => Or.inl rfl

/-- The same draw may come first in both. -/
lemma bind (draw : Draw σ β) {next other : β → Draw σ α}
    (h : ∀ b, Matches shortage size (next b) (other b)) :
    Matches shortage size (draw >>= next) (draw >>= other) := by
  intro source
  rw [outcome_bind, outcome_bind]
  rcases draw.outcome source with ⟨f | b, between⟩
  · exact Or.inl rfl
  · exact h b between

/-- The values of both may be turned into greater ones. -/
lemma map {size' : β → Nat} (h : Matches shortage size loop recursion) (f : α → β)
    (hsize : ∀ a, size a ≤ size' (f a)) :
    Matches shortage size' (do let a ← loop; pure (f a)) (do let a ← recursion; pure (f a)) := by
  intro source
  rw [outcome_bind, outcome_bind]
  rcases h source with heq | ⟨hshortage, ⟨rest, hloop⟩, hlarge⟩
  · rw [heq]
    exact Or.inl rfl
  · refine Or.inr ⟨hshortage, ⟨rest, by rw [hloop]⟩, fun b after hb => ?_⟩
    rcases hrecursion : recursion.outcome source with ⟨e | a, between⟩
    · rw [hrecursion] at hb
      cases hb
    · rw [hrecursion] at hb
      cases hb
      exact Extent.fits_eq_false_of_le (hlarge a _ hrecursion) (hsize a)

/-- The first computation may require that a list holds a number of items, if the second one has no
smaller value. -/
lemma require {count : Nat} (hshortage : Extent.fits count = false → shortage)
    (hsize : recursion.Yields fun a => count ≤ size a)
    (h : Matches shortage size loop recursion) :
    Matches shortage size (do Draw.require (Extent.fits count) .beyondMemory; loop)
      recursion := by
  intro source
  rcases hfits : Extent.fits count with _ | _
  · refine Or.inr ⟨hshortage hfits, ⟨source, rfl⟩, fun a rest ha => ?_⟩
    exact Extent.fits_eq_false_of_le hfits (hsize source a rest ha)
  · exact h source

end Matches

end Draw

/-! ### Listings are not shorter than the number of trees -/

lemma Tree.length_le_length_listings {V : Type} (trees : List (Tree V)) :
    trees.length ≤ (Tree.listings trees).length := by
  induction trees with
  | nil => exact Nat.zero_le _
  | cons t trees ih =>
    have hpos : 0 < t.listing.length := List.length_pos_iff.mpr t.listing_ne_nil
    rw [Tree.listings_cons, List.length_append, List.length_cons]
    omega

namespace TreeSampler

variable {V : Type} [WordSource σ]

/-! ### The recursion -/

/-- A random leaf as a tree: a terminal, where each is equally likely, with a value drawn for it if
it stands for a random constant. -/
def leafTree (t : TreeSampler V) : Draw σ (Tree V) := do
  let s ← Random.element t.vocabulary.terminals t.terminals_ne_nil
  let realised ← s.val.realise
  pure (.node (realised.getD s.val) [])

/-- A random tree with its root at a depth.  A leaf is put if there are no functions, or the branch
has reached the height, or branches may end early, the least height is reached and a coin says so;
and else a function, with a tree one level further down for each of its arguments, from left to
right. -/
def tree (t : TreeSampler V) (grows : Bool) (height depth : Nat) : Draw σ (Tree V) :=
  if h : t.vocabulary.functions.isEmpty || height ≤ depth then t.leafTree
  else do
    let early ←
      (if grows && t.least ≤ depth then Draw.coin t.vocabulary.terminalRatio else pure false :
        Draw σ Bool)
    if early then t.leafTree
    else
      let s ← Random.element t.vocabulary.functions (by simp at h; exact h.1)
      let children ← Draw.times (t.tree grows height (depth + 1)) s.val.arity
      pure (.node s.val children)
termination_by height - depth
decreasing_by
  simp at h
  omega

/-- A random program by recursion: the listing of a random tree, after it has been settled whether
its branches may end early and how high it may be. -/
def recursive (t : TreeSampler V) : Draw σ (Program V) := do
  let grows ←
    (match t.growth with
      | .full => pure false
      | .grow => pure true
      | .ramped => Draw.coin 0.5 : Draw σ Bool)
  let height ← Random.between t.least t.greatest
  let root ← t.tree grows height 0
  pure ⟨root.listing⟩

/-- The listings of random trees with their roots at some depths, one after the other. -/
def listEach (t : TreeSampler V) (grows : Bool) (height : Nat) (depths : List Nat) :
    Draw σ (List (Symbol V)) := do
  let trees ← depths.mapM (t.tree grows height)
  pure (Tree.listings trees)

variable {t : TreeSampler V} {grows : Bool} {height depth : Nat}

lemma listEach_nil : (t.listEach grows height [] : Draw σ (List (Symbol V))) = pure [] := by
  rw [listEach, List.mapM_nil, pure_bind, Tree.listings_nil]

lemma listEach_cons (depths : List Nat) :
    (t.listEach grows height (depth :: depths) : Draw σ (List (Symbol V))) = (do
      let root ← t.tree grows height depth
      let rest ← t.listEach grows height depths
      pure (root.listing ++ rest)) := by
  simp only [listEach, List.mapM_cons, bind_assoc, pure_bind, Tree.listings_cons]

/-- A single root has the listing of a single tree. -/
lemma listEach_singleton :
    (t.listEach grows height [depth] : Draw σ (List (Symbol V))) = (do
      let root ← t.tree grows height depth
      pure root.listing) := by
  simp only [listEach_cons, listEach_nil, pure_bind, List.append_nil]

lemma listEach_append (depths more : List Nat) :
    (t.listEach grows height (depths ++ more) : Draw σ (List (Symbol V))) = (do
      let first ← t.listEach grows height depths
      let rest ← t.listEach grows height more
      pure (first ++ rest)) := by
  simp only [listEach, List.mapM_append, bind_assoc, pure_bind, Tree.listings_append]

/-- Trees with their roots at the same depth are repeated draws of one tree. -/
lemma listEach_replicate (count : Nat) :
    (t.listEach grows height (List.replicate count depth) : Draw σ (List (Symbol V))) = (do
      let trees ← Draw.times (t.tree grows height depth) count
      pure (Tree.listings trees)) := by
  rw [listEach]
  congr 1
  induction count with
  | zero => rw [List.replicate_zero, List.mapM_nil, Draw.times]
  | succ count ih => rw [List.replicate_succ, List.mapM_cons, ih, Draw.times]

/-- There are at least as many symbols as roots. -/
lemma listEach_yields_length (depths : List Nat) :
    Draw.Yields (t.listEach grows height depths : Draw σ (List (Symbol V)))
      fun symbols => depths.length ≤ symbols.length := by
  have htrees : Draw.Yields (depths.mapM (t.tree grows height) : Draw σ (List (Tree V)))
      fun trees => trees.length = depths.length := by
    induction depths with
    | nil =>
      rw [List.mapM_nil]
      exact Draw.Yields.pure rfl
    | cons depth depths ih =>
      rw [List.mapM_cons]
      refine Draw.Yields.bind_any fun root => ih.bind fun trees htrees => Draw.Yields.pure ?_
      rw [List.length_cons, htrees, List.length_cons]
  refine htrees.bind fun trees htrees => Draw.Yields.pure ?_
  rw [← htrees]
  exact Tree.length_le_length_listings trees

/-! ### The loop and the recursion -/

/-- The loop puts the leaf that the recursion puts. -/
lemma leafTree_eq :
    (t.leafTree : Draw σ (Tree V)) = (do let s ← t.leaf; pure (.node s [])) := by
  simp only [leafTree, leaf, bind_assoc, pure_bind]

/-- In the loop a branch ends early where it does so in the recursion. -/
lemma stops_eq :
    (t.stops grows depth : Draw σ Bool) =
      if grows && t.least ≤ depth then Draw.coin t.vocabulary.terminalRatio else pure false :=
  rfl

/-- The loop settles whether branches may end early as the recursion does. -/
lemma grows_eq :
    (t.grows : Draw σ Bool) =
      match t.growth with
      | .full => pure false
      | .grow => pure true
      | .ramped => Draw.coin 0.5 :=
  rfl

/-- A leaf is a tree of its own. -/
lemma leaf_bind_listEach (depths : List Nat) :
    (do
      let root ← (t.leafTree : Draw σ (Tree V))
      let rest ← t.listEach grows height depths
      pure (root.listing ++ rest)) = (do
      let s ← t.leaf
      let rest ← t.listEach grows height depths
      pure (s :: rest)) := by
  simp only [leafTree_eq, bind_assoc, pure_bind, Tree.listing_node, Tree.listings_nil,
    List.cons_append, List.nil_append]

/-- The subtrees of a function are listed before the trees that come after it. -/
lemma function_bind_listEach (s : Symbol V) (depths : List Nat) :
    (do
      let root ← (do
        let children ← Draw.times (t.tree grows height (depth + 1)) s.arity
        pure (.node s children) : Draw σ (Tree V))
      let rest ← t.listEach grows height depths
      pure (root.listing ++ rest)) = (do
      let rest ← t.listEach grows height (List.replicate s.arity (depth + 1) ++ depths)
      pure (s :: rest)) := by
  simp only [listEach_append, listEach_replicate, bind_assoc, pure_bind, Tree.listing_node,
    List.cons_append]

/-- The loop lists what the recursion lists, for all places that are to come.  Each of them is a
call that the recursion has yet to make. -/
lemma expand_matches (t : TreeSampler V) (grows : Bool) (height : Nat) (pending : List Nat) :
    Draw.Matches (∃ s ∈ t.vocabulary.functions, Extent.fits s.arity = false) List.length
      (t.expand grows height pending : Draw σ (List (Symbol V)))
      (t.listEach grows height pending) := by
  have hleaf : ∀ depths : List Nat,
      Draw.Matches (∃ s ∈ t.vocabulary.functions, Extent.fits s.arity = false) List.length
        (t.expand grows height depths : Draw σ (List (Symbol V)))
        (t.listEach grows height depths) →
      Draw.Matches (∃ s ∈ t.vocabulary.functions, Extent.fits s.arity = false) List.length
        (do let s ← t.leaf; let rest ← t.expand grows height depths; pure (s :: rest))
        (do let s ← t.leaf; let rest ← t.listEach grows height depths; pure (s :: rest)) :=
    fun depths ih => Draw.Matches.bind _ fun s => ih.map (s :: ·) fun rest => Nat.le_succ _
  induction pending using expand.induct t height with
  | case1 =>
    rw [expand, listEach_nil]
    exact Draw.Matches.refl _
  | case2 depth pending hends ih =>
    rw [expand, dif_pos hends, listEach_cons, tree, dif_pos hends, leaf_bind_listEach]
    exact hleaf pending ih
  | case3 depth pending hends ih ihbelow =>
    rw [expand, dif_neg hends, stops_eq, listEach_cons, tree, dif_neg hends, bind_assoc]
    refine Draw.Matches.bind _ fun early => ?_
    cases early with
    | true =>
      rw [if_pos rfl, if_pos rfl, leaf_bind_listEach]
      exact hleaf pending ih
    | false =>
      rw [if_neg Bool.false_ne_true, if_neg Bool.false_ne_true, bind_assoc]
      refine Draw.Matches.bind _ fun s => ?_
      rw [function_bind_listEach]
      refine Draw.Matches.require (fun hfits => ⟨s.val, s.property, hfits⟩) ?_
        ((ihbelow s).map (s.val :: ·) fun rest => Nat.le_succ _)
      refine (listEach_yields_length _).bind fun rest hrest => Draw.Yields.pure ?_
      rw [List.length_append, List.length_replicate] at hrest
      rw [List.length_cons]
      omega

/-- A listing that the loop has drawn is that of the tree which the recursion draws. -/
lemma exists_tree_of_expand {source rest : σ} {symbols : List (Symbol V)}
    (h : (t.expand grows height [0] : Draw σ (List (Symbol V))).outcome source =
      (.ok symbols, rest)) :
    ∃ root, (t.tree grows height 0 : Draw σ (Tree V)).outcome source = (.ok root, rest) ∧
      root.listing = symbols := by
  rcases expand_matches t grows height [0] source with heq | ⟨-, ⟨_, hshort⟩, -⟩
  · rw [h, listEach_singleton] at heq
    obtain ⟨root, between, hroot, hlisting⟩ := Draw.outcome_bind_eq_ok.mp heq.symm
    rw [Draw.outcome_pure] at hlisting
    cases hlisting
    exact ⟨root, hroot, rfl⟩
  · rw [h] at hshort
    cases hshort

/-- **Sampling is recursive.**  From every source a sampler comes to what the recursion comes to:
the same program and the same source afterwards, or the same failure.  The one exception is a
vocabulary with a function that has more arguments than a list can hold.  The sampler breaks off
when it draws this function, and the recursion has no program to show for it that a list can
hold. -/
theorem sample_is_recursive (t : TreeSampler V) (source : σ) :
    (t.sample : Draw σ (Program V)).outcome source = t.recursive.outcome source ∨
      (∃ s ∈ t.vocabulary.functions, Extent.fits s.arity = false) ∧
      (∃ rest, (t.sample : Draw σ (Program V)).outcome source =
        (.error (.fault .beyondMemory), rest)) ∧
      ∀ (p : Program V) (rest : σ), t.recursive.outcome source = (.ok p, rest) →
        Extent.fits p.size = false := by
  have hmatches : Draw.Matches (∃ s ∈ t.vocabulary.functions, Extent.fits s.arity = false)
      Program.size (t.sample : Draw σ (Program V)) t.recursive := by
    rw [sample, recursive, grows_eq]
    refine Draw.Matches.bind _ fun grows => Draw.Matches.bind _ fun height => ?_
    have hexpand := expand_matches (σ := σ) t grows height [0]
    rw [listEach_singleton] at hexpand
    have hsize : ∀ symbols : List (Symbol V), symbols.length ≤ Program.size ⟨symbols⟩ :=
      fun symbols => Nat.le_refl _
    have hprogram := hexpand.map Program.mk hsize
    rw [bind_assoc] at hprogram
    simpa only [pure_bind] using hprogram
  exact hmatches source

end TreeSampler

end TreeEvolution
