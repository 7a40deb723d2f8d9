import TreeEvolution.Proofs.Program.Height
import TreeEvolution.Proofs.RandomTree
import TreeEvolution.Proofs.Reliability
import TreeEvolution.Symbol.Boolean

/-!
# The shape of random trees

How deep the leaves of a random tree stand follows from what is settled before it is listed.  All
leaves of a tree that does not grow stand at the height, and the leaves of one that grows stand
between the least height of the sampler and the height.  This is shown of the recursion that draws
the same trees as the loop of the sampler (`tree_leaves`): one level further down there is one level
less to the height, and so also to the least depth of a leaf.

The program that is listed has the height of the tree for its depth (`leaves_of_random_trees`).
-/

namespace TreeEvolution

namespace TreeSampler

open Places TreeEvolution.Tree

variable {V σ : Type} [WordSource σ] {inputs : Nat} {t : TreeSampler V} {grows : Bool}
  {height depth : Nat}

/-! ### Trees of the recursion -/

/-- The least depth of a leaf. -/
def earliest (t : TreeSampler V) (grows : Bool) (height : Nat) : Nat :=
  if grows then t.least else height

/-- A random leaf is a sound tree. -/
lemma leafTree_yields (hv : t.vocabulary.Proper inputs) :
    Draw.Yields (t.leafTree : Draw σ (Tree V)) fun root =>
      root.Sound ∧ ∃ s, root = .node s [] := by
  rw [leafTree_eq]
  refine t.leaf_yields.bind fun s hs => Draw.Yields.pure ⟨?_, s, rfl⟩
  obtain ⟨terminal, hmem, hrealises⟩ := hs
  have harity : s.arity = 0 := hrealises.arity_eq.trans (hv.arity_of_terminal terminal hmem)
  exact .node harity fun u hu => by cases hu

/-- A branch ends early only in a tree that grows, from the least height on. -/
lemma stops_yields : Draw.Yields (t.stops grows depth : Draw σ Bool) fun stops =>
    stops = true → grows = true ∧ t.least ≤ depth := by
  unfold stops
  split
  · rename_i hmay
    rw [Bool.and_eq_true, decide_eq_true_iff] at hmay
    exact (Draw.Yields.trivial _).mono fun _ _ _ => hmay
  · exact Draw.Yields.pure nofun

/-- Random trees are sound. -/
lemma tree_sound (hv : t.vocabulary.Proper inputs) :
    Draw.Yields (t.tree grows height depth : Draw σ (Tree V)) Tree.Sound := by
  induction depth using tree.induct t height with
  | case1 depth hends =>
    rw [tree, dif_pos hends]
    exact (leafTree_yields hv).mono fun root hroot => hroot.1
  | case2 depth hends ih =>
    rw [tree, dif_neg hends]
    refine Draw.Yields.bind_any fun early => ?_
    cases early with
    | true => exact (leafTree_yields hv).mono fun root hroot => hroot.1
    | false =>
      refine Draw.Yields.bind_any fun s => (ih.times s.val.arity).bind fun children hchildren =>
        Draw.Yields.pure ?_
      exact .node hchildren.1.symm hchildren.2

/-- Without functions a random tree is a leaf. -/
lemma tree_yields_leaf (hv : t.vocabulary.Proper inputs) (hnone : t.vocabulary.functions = []) :
    Draw.Yields (t.tree grows height depth : Draw σ (Tree V)) fun root =>
      ∃ s, root = .node s [] := by
  have hends : (t.vocabulary.functions.isEmpty || decide (height ≤ depth)) = true := by
    rw [hnone]
    rfl
  rw [tree, dif_pos hends]
  exact (leafTree_yields hv).mono fun root hroot => hroot.2

/-- With functions the leaves of a random tree stand between the least depth of a leaf and the
height.  Both are counted from the root of the tree, which stands at a depth itself. -/
lemma tree_leaves (hv : t.vocabulary.Proper inputs) (hsome : t.vocabulary.functions ≠ [])
    (hleast : t.least ≤ height) (hdepth : depth ≤ height) :
    Draw.Yields (t.tree grows height depth : Draw σ (Tree V))
      (LeavesBetween (t.earliest grows height - depth) (height - depth)) := by
  have hearliest : t.earliest grows height ≤ height := by
    unfold earliest
    split
    · exact hleast
    · exact Nat.le_refl height
  induction depth using tree.induct t height with
  | case1 depth hends =>
    have hreached : height ≤ depth := by
      simpa only [List.isEmpty_eq_false_iff.mpr hsome, Bool.false_or, decide_eq_true_iff]
        using hends
    rw [tree, dif_pos hends, Nat.sub_eq_zero_of_le (Nat.le_trans hearliest hreached)]
    refine (leafTree_yields hv).mono fun root hroot => ?_
    obtain ⟨s, rfl⟩ := hroot.2
    exact LeavesBetween.leaf s _
  | case2 depth hends ih =>
    have hbelow : depth + 1 ≤ height := (goes_on_iff.mp hends).2
    rw [tree, dif_neg hends, ← stops_eq]
    refine stops_yields.bind fun early hearly => ?_
    cases early with
    | true =>
      obtain ⟨rfl, hle⟩ := hearly rfl
      have hzero : t.earliest true height - depth = 0 := Nat.sub_eq_zero_of_le hle
      rw [if_pos rfl, hzero]
      refine (leafTree_yields hv).mono fun root hroot => ?_
      obtain ⟨s, rfl⟩ := hroot.2
      exact LeavesBetween.leaf s _
    | false =>
      rw [if_neg Bool.false_ne_true]
      refine Draw.Yields.bind_any fun s => ((ih hbelow).times s.val.arity).bind
        fun children hchildren => Draw.Yields.pure ?_
      have hne : children ≠ [] := by
        rw [← List.length_pos_iff, hchildren.1]
        exact Nat.pos_of_ne_zero (hv.arity_of_function s.val s.property)
      intro above u hu hleaf
      obtain ⟨hlo, hhi⟩ := LeavesBetween.node hne hchildren.2 above u hu hleaf
      omega

/-! ### Programs of the sampler -/

/-- A random program lists a random tree, which is drawn as has been settled before. -/
lemma exists_tree_of_sample {source between rest : σ} {p : Program V}
    (hplan : (t.plan : Draw σ (Bool × Nat)).outcome source = (.ok (grows, height), between))
    (h : (t.sample : Draw σ (Program V)).outcome source = (.ok p, rest)) :
    ∃ root, (t.tree grows height 0 : Draw σ (Tree V)).outcome between = (.ok root, rest) ∧
      root.listing = p.symbols := by
  rw [sample_eq_plan] at h
  obtain ⟨settled, between', hsettled, h⟩ := Draw.outcome_bind_eq_ok.mp h
  rw [hplan] at hsettled
  cases hsettled
  obtain ⟨symbols, after, hexpand, h⟩ := Draw.outcome_bind_eq_ok.mp h
  rw [Draw.outcome_pure] at h
  cases h
  exact exists_tree_of_expand hexpand

/-- **Leaves of random trees.**  Take a vocabulary of inputs and any additions, and a sampler with
this vocabulary.  From every source it settles first how branches end and which height, between its
least and its greatest one, is the greatest.  The program that it draws then is the listing of a
single sound tree.  Without functions the tree is a leaf.  With functions all leaves of a tree that
does not grow stand at the height, which is the depth of the program; and the leaves of a tree that
grows stand between the least height and the one that was drawn, so that the depth of the program
lies between the bounds of the sampler.  There is such a program if the vocabulary can be relied
on. -/
theorem leaves_of_random_trees {inputs : Nat} {names : List String} {bare : Vocabulary V}
    (hbare : Vocabulary.ofInputs inputs names = .ok bare)
    (additions : List (Vocabulary.Addition V)) (t : TreeSampler V)
    (ht : t.vocabulary = bare.after additions) (source : σ) :
    ∃ grows height between,
      (t.plan : Draw σ (Bool × Nat)).outcome source = (.ok (grows, height), between) ∧
      t.Allows grows height ∧
      (t.vocabulary.Reliable →
        ∃ p rest, (t.sample : Draw σ (Program V)).outcome source = (.ok p, rest)) ∧
      ∀ (p : Program V) (rest : σ), t.sample.outcome source = (.ok p, rest) →
        ∃ root : Tree V, (root.Sound ∧ root.listing = p.symbols) ∧
          (∀ other : Tree V, other.Sound → other.listing = p.symbols → other = root) ∧
          (t.vocabulary.functions = [] → root.children = [] ∧ p.size = 1) ∧
          (t.vocabulary.functions ≠ [] →
            root.LeavesBetween (if grows then t.least else height) height ∧
            ∃ d, p.depth = .ok d ∧
              if grows then t.least ≤ d ∧ d ≤ t.greatest else d = height) := by
  have hv : t.vocabulary.Proper inputs := by
    rw [ht]
    exact (Vocabulary.proper_of_ofInputs hbare).after additions
  obtain ⟨grows, height, between, hplan, hallows⟩ := t.exists_plan source
  refine ⟨grows, height, between, hplan, hallows, fun hreliable => ?_, fun p rest hp => ?_⟩
  · have hlasts : Draw.FailsOnly (t.sample : Draw σ (Program V)) fun _ => False :=
      sample_failsOnly hreliable
    exact hlasts.exists_outcome_eq_ok source
  · obtain ⟨root, hroot, hlisting⟩ := exists_tree_of_sample hplan hp
    have hsound : root.Sound := tree_sound hv between root rest hroot
    refine ⟨root, ⟨hsound, hlisting⟩, fun other hother h =>
      listing_injective hother hsound (h.trans hlisting.symm), fun hnone => ?_, fun hsome => ?_⟩
    · obtain ⟨s, rfl⟩ := tree_yields_leaf hv hnone between root rest hroot
      refine ⟨rfl, ?_⟩
      rw [Program.size, ← hlisting, listing_node, listings_nil, List.length_singleton]
    · have hleaves : root.LeavesBetween (t.earliest grows height) height :=
        tree_leaves hv hsome hallows.least_le (Nat.zero_le height) between root rest hroot
      -- the scan for the depth went through, so that the places below each symbol can be kept
      obtain ⟨d, hd, -⟩ := sample_depth_yields hv source p rest hp
      have hfills : Fills p.symbols 1 := fills_one_iff.mpr ⟨root, hsound, hlisting⟩
      have hfits : Program.Storable root.listing := hlisting ▸ Program.storable_of_depth hfills hd
      have hdepth : p.depth = .ok root.height := by
        have hscan := Program.depth_listing hsound hfits
        rwa [hlisting] at hscan
      obtain ⟨hlo, hhi⟩ := hleaves.height
      refine ⟨hleaves, root.height, hdepth, ?_⟩
      cases grows with
      | true => exact ⟨hlo, Nat.le_trans hhi hallows.le_greatest⟩
      | false => exact Nat.le_antisymm hhi hlo

/-- A sampler whose trees grow two or three levels high. -/
def growingSampler : TreeSampler Bool where
  growth := .grow
  vocabulary := ⟨1, [.input "y" 0], [Boolean.negation, Boolean.conjunction]⟩
  least := 2
  greatest := 3
  least_le_greatest := by decide
  terminals_ne_nil := List.cons_ne_nil _ _

/-- There is nothing among its symbols that could go wrong. -/
lemma growingSampler_reliable : growingSampler.vocabulary.Reliable := by
  refine ⟨fun name recipe value h => ?_, by decide +kernel, by decide⟩
  cases List.mem_singleton.mp h

/-- From some words the sampler draws a program that is two or three levels deep. -/
theorem growingSampler_grows_two_or_three_levels :
    ∃ (p : Program Bool) (rest : ListedWords) (d : Nat),
      growingSampler.sample.outcome (⟨[0x8000000000000000, 7], 0⟩ : ListedWords) = (.ok p, rest) ∧
      p.depth = .ok d ∧ 2 ≤ d ∧ d ≤ 3 := by
  have hbare : Vocabulary.ofInputs 1 ["y"] = .ok (⟨1, [.input "y" 0], []⟩ : Vocabulary Bool) := rfl
  obtain ⟨grows, height, between, -, hallows, hexists, hshape⟩ :=
    leaves_of_random_trees hbare [.addAll [Boolean.negation, Boolean.conjunction]] growingSampler
      rfl (⟨[0x8000000000000000, 7], 0⟩ : ListedWords)
  obtain ⟨p, rest, hp⟩ := hexists growingSampler_reliable
  obtain ⟨root, -, -, -, hsome⟩ := hshape p rest hp
  obtain ⟨-, d, hd, hbounds⟩ := hsome (List.cons_ne_nil _ _)
  rw [hallows.grow rfl, if_pos rfl] at hbounds
  exact ⟨p, rest, d, hp, hd, hbounds.1, hbounds.2⟩

end TreeSampler

end TreeEvolution
