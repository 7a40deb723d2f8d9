import TreeEvolution.Proofs.Program.Levels
import TreeEvolution.Proofs.TreeShape

/-!
# Levels after a replacement

A replacement takes the place of one subtree by another.  The symbols outside keep their levels,
though those behind the subtree are shifted, and what is put in begins at the level of the position
(`Program.Grafted`).  So the depth of the result can be told from the levels of the program and the
depth of what is put in, without going through the new listing.

Mutation without limits is such a replacement, at a random position and with a random tree.  It
makes a program deeper by as much as the sampler can put below the position, at the most.
-/

namespace TreeEvolution

namespace Program

open Places

variable {V : Type} {before part other rest : List (Symbol V)} {t r child : Program V}
  {here last : Nat}

/-! ### Levels around a part -/

/-- Positions up to a part do not depend on it. -/
lemma level_before (hpart : Fills (before ++ part) 1) (hother : Fills (before ++ other) 1)
    {position : Nat} (hle : position ≤ before.length) :
    level ⟨before ++ other⟩ position = level ⟨before ++ part⟩ position := by
  have hlevel : ∀ more : List (Symbol V), Fills (before ++ more) 1 →
      level ⟨before ++ more⟩ position = around (before.take position) 0 := by
    intro more hmore
    have hsize : position ≤ size ⟨before ++ more⟩ := by
      rw [size, List.length_append]
      omega
    rw [level_eq hmore hsize, List.take_append_of_le_length hle]
  rw [hlevel other hother, hlevel part hpart]

/-- A part begins at the level of its position. -/
lemma level_inside (h : Fills (before ++ (r.symbols ++ rest)) 1) (hr : Fills r.symbols 1)
    {position : Nat} (hposition : position < r.size) :
    level ⟨before ++ (r.symbols ++ rest)⟩ (before.length + position) =
      level ⟨before ++ (r.symbols ++ rest)⟩ before.length + r.level position := by
  have hsize : before.length + position ≤ size ⟨before ++ (r.symbols ++ rest)⟩ := by
    simp only [size, List.length_append] at hposition ⊢
    omega
  obtain ⟨left, hopen, -⟩ := hr.exists_fill_take hposition
  rw [level_eq h hsize, level_eq h (Nat.le_trans (Nat.le_add_right _ _) hsize),
    level_eq hr hposition.le, List.take_length_add_append, List.take_left,
    List.take_append_of_le_length hposition.le, around_append_of_open hopen]

/-- Positions behind a part are shifted and keep their levels when another part is put there. -/
lemma level_behind (h : Fills (before ++ (part ++ rest)) 1) (hpart : Fills part 1)
    (hother : Fills other 1) {position : Nat} (hposition : position ≤ rest.length) :
    level ⟨before ++ (other ++ rest)⟩ (before.length + (other.length + position)) =
      level ⟨before ++ (part ++ rest)⟩ (before.length + (part.length + position)) := by
  have hlevel : ∀ more : List (Symbol V), Fills (before ++ (more ++ rest)) 1 →
      level ⟨before ++ (more ++ rest)⟩ (before.length + (more.length + position)) =
        around (before ++ (more ++ rest.take position)) 0 := by
    intro more hmore
    have hsize : before.length + (more.length + position) ≤ size ⟨before ++ (more ++ rest)⟩ := by
      simp only [size, List.length_append]
      omega
    rw [level_eq hmore hsize, List.take_length_add_append, List.take_length_add_append]
  rw [hlevel part h, hlevel other (h.replace hpart hother)]
  exact hpart.around_replace hother before (rest.take position) 0

/-! ### Grafts -/

/-- A program has been put in the place of the subtree of a program that ends at a position, and
everything has the level that it should have. -/
structure Grafted (t r child : Program V) (here last : Nat) : Prop where
  /-- The subtree ends there. -/
  subtreeEnd : t.subtreeEnd here = .ok last
  /-- The subtree has been replaced. -/
  replaced : t.replaceSubtree here r = .ok child
  /-- The subtree lies within the program. -/
  bounds : here ≤ last ∧ last < t.size
  /-- The size has changed by the difference of the two subtrees. -/
  size : child.size + (last + 1) = t.size + here + r.size
  /-- What comes before the subtree keeps its level. -/
  level_before : ∀ position < here, child.level position = t.level position
  /-- What has been put in begins at the level of the position. -/
  level_inside : ∀ position < r.size,
    child.level (here + position) = t.level here + r.level position
  /-- What comes behind the subtree is shifted and keeps its level. -/
  level_behind : ∀ position, last < position → position < t.size →
    child.level (position + r.size - (last + 1 - here)) = t.level position

/-- A program can be put in the place of any subtree. -/
lemma exists_grafted (ht : Fills t.symbols 1) (hr : Fills r.symbols 1) (hhere : here < t.size) :
    ∃ last child, t.Grafted r child here last ∧ Fills child.symbols 1 := by
  obtain ⟨last, hlast⟩ := exists_subtreeEnd_eq_ok ht hhere
  obtain ⟨before, rest, sub, rfl, rfl, hend, hsub⟩ := exists_append_of_subtreeEnd hlast
  have hchild : Fills (before ++ (r.symbols ++ rest)) 1 := ht.replace hsub hr
  have hpos : 0 < sub.symbols.length := hsub.length_pos
  simp only [size] at hend
  refine ⟨last, ⟨before ++ (r.symbols ++ rest)⟩, ⟨hlast, replaceSubtree_append hsub before rest r,
    ⟨by omega, ?_⟩, ?_, ?_, ?_, ?_⟩, hchild⟩
  · simp only [size, List.length_append]
    omega
  · simp only [size, List.length_append]
    omega
  · intro position hposition
    exact Program.level_before ht hchild hposition.le
  · intro position hposition
    rw [Program.level_inside hchild hr hposition, Program.level_before ht hchild (Nat.le_refl _)]
  · intro position hbehind hposition
    simp only [size, List.length_append] at hposition
    obtain ⟨further, rfl⟩ : ∃ further, position = before.length + (sub.symbols.length + further) :=
      ⟨position - (last + 1), by omega⟩
    have hshifted : before.length + (sub.symbols.length + further) + r.size -
        (last + 1 - before.length) = before.length + (r.symbols.length + further) := by
      simp only [size]
      omega
    rw [hshifted]
    exact Program.level_behind ht hsub hr (by omega)

/-- The levels of the positions outside a subtree. -/
def levelsOutside (t : Program V) (here last : Nat) : Set Nat :=
  t.level '' {position | position < t.size ∧ (position < here ∨ last < position)}

namespace Grafted

/-- The levels are those outside the subtree and those of what has been put in, further down. -/
lemma mem_levels_iff (h : t.Grafted r child here last) {n : Nat} :
    n ∈ child.level '' {position | position < child.size} ↔
      n ∈ t.levelsOutside here last ∨ ∃ position < r.size, n = t.level here + r.level position := by
  obtain ⟨hle, hlt⟩ := h.bounds
  have hsize := h.size
  constructor
  · rintro ⟨position, hposition, rfl⟩
    rw [Set.mem_ofPred_eq] at hposition
    by_cases hbefore : position < here
    · exact Or.inl ⟨position, ⟨by omega, Or.inl hbefore⟩, (h.level_before position hbefore).symm⟩
    · by_cases hinside : position - here < r.size
      · refine Or.inr ⟨position - here, hinside, ?_⟩
        rw [← h.level_inside _ hinside, Nat.add_sub_cancel' (Nat.le_of_not_lt hbefore)]
      · -- the position has been shifted
        have hbehind : last < position + (last + 1 - here) - r.size := by omega
        have horiginal : position + (last + 1 - here) - r.size < t.size := by omega
        have hshifted : position + (last + 1 - here) - r.size + r.size - (last + 1 - here) =
            position := by
          omega
        refine Or.inl ⟨position + (last + 1 - here) - r.size, ⟨horiginal, Or.inr hbehind⟩, ?_⟩
        rw [← h.level_behind _ hbehind horiginal, hshifted]
  · rintro (⟨position, ⟨hposition, hbefore | hbehind⟩, rfl⟩ | ⟨position, hposition, rfl⟩)
    · refine ⟨position, ?_, h.level_before position hbefore⟩
      rw [Set.mem_ofPred_eq]
      omega
    · refine ⟨_, ?_, h.level_behind position hbehind hposition⟩
      rw [Set.mem_ofPred_eq]
      omega
    · refine ⟨here + position, ?_, h.level_inside position hposition⟩
      rw [Set.mem_ofPred_eq]
      omega

/-- The deepest place is outside the subtree, or the deepest one in what has been put in. -/
lemma isGreatest (h : t.Grafted r child here last) {below d : Nat}
    (hbelow : IsGreatest (r.level '' {position | position < r.size}) below)
    (hd : IsGreatest (child.level '' {position | position < child.size}) d) :
    IsGreatest (insert (t.level here + below) (t.levelsOutside here last)) d := by
  obtain ⟨deepest, hdeepest, hlevel⟩ := hbelow.1
  have hinside : t.level here + below ≤ d :=
    hd.2 (h.mem_levels_iff.mpr (Or.inr ⟨deepest, hdeepest, by rw [hlevel]⟩))
  constructor
  · rcases h.mem_levels_iff.mp hd.1 with hout | ⟨position, hposition, rfl⟩
    · exact Or.inr hout
    · have hle : r.level position ≤ below := hbelow.2 ⟨position, hposition, rfl⟩
      exact Or.inl (Nat.le_antisymm (Nat.add_le_add_left hle _) hinside)
  · rintro n (rfl | hn)
    · exact hinside
    · exact hd.2 (h.mem_levels_iff.mpr (Or.inl hn))

/-- The places below the symbols of the result can be kept if those below the symbols of both
programs can. -/
lemma storable (h : t.Grafted r child here last) (ht : Storable t.symbols)
    (hr : Storable r.symbols) : Storable child.symbols := by
  intro s hs
  rcases mem_of_replaceSubtree_eq_ok h.replaced hs with hs | hs
  · exact ht s hs
  · exact hr s hs

/-- The symbols that have been put in are symbols of the result. -/
lemma storable_of_child (h : t.Grafted r child here last) (hchild : Storable child.symbols) :
    Storable r.symbols := by
  obtain ⟨part, rest, -, -, hsymbols⟩ := replaceSubtree_eq_ok h.replaced
  intro s hs
  refine hchild s ?_
  rw [hsymbols]
  exact List.mem_append_right _ (List.mem_append_left rest hs)

/-- The result has the depth that its levels tell. -/
lemma exists_depth (h : t.Grafted r child here last) (hr : Fills r.symbols 1)
    (hchild : Fills child.symbols 1) (hfits : Storable child.symbols) :
    ∃ below d, r.depth = .ok below ∧ child.depth = .ok d ∧
      IsGreatest (insert (t.level here + below) (t.levelsOutside here last)) d := by
  obtain ⟨below, hbelow⟩ := depth_eq_ok (h.storable_of_child hfits) hr
  obtain ⟨d, hd⟩ := depth_eq_ok hfits hchild
  exact ⟨below, d, hbelow, hd,
    h.isGreatest (isGreatest_depth hr hbelow) (isGreatest_depth hchild hd)⟩

/-- Only a result that memory has no room for has no depth. -/
lemma depth_cases (h : t.Grafted r child here last) (hr : Fills r.symbols 1)
    (hchild : Fills child.symbols 1) :
    (∃ below d, r.depth = .ok below ∧ child.depth = .ok d ∧
        IsGreatest (insert (t.level here + below) (t.levelsOutside here last)) d) ∨
      child.depth = .error .beyondMemory ∧ Extent.fits child.size = false := by
  by_cases hfits : Storable child.symbols
  · exact Or.inl (h.exists_depth hr hchild hfits)
  · exact Or.inr (depth_of_not_storable hchild hfits)

/-- The result is not deeper than the program was, or than what has been put in reaches. -/
lemma exists_depth_le (h : t.Grafted r child here last) (ht : Fills t.symbols 1)
    (hr : Fills r.symbols 1) (hchild : Fills child.symbols 1) {d below : Nat}
    (hd : t.depth = .ok d) (hbelow : r.depth = .ok below) :
    ∃ d', child.depth = .ok d' ∧ d' ≤ max d (t.level here + below) := by
  have hfits : Storable child.symbols :=
    h.storable (storable_of_depth ht hd) (storable_of_depth hr hbelow)
  obtain ⟨below', d', hbelow', hd', hgreatest⟩ := h.exists_depth hr hchild hfits
  obtain rfl : below = below' := Except.ok.inj (hbelow.symm.trans hbelow')
  refine ⟨d', hd', ?_⟩
  rcases hgreatest.1 with heq | ⟨position, ⟨hposition, -⟩, heq⟩
  · rw [heq]
    exact Nat.le_max_right _ _
  · rw [← heq]
    exact Nat.le_trans ((isGreatest_depth ht hd).2 ⟨position, hposition, rfl⟩) (Nat.le_max_left _ _)

end Grafted

end Program

namespace Variation

open Places

variable {V σ : Type} [WordSource σ]

/-! ### Mutation without limits -/

/-- After the position has been drawn, mutation without limits draws a tree and puts it there. -/
lemma outcome_mutation {a : Individual V} {hpos : 0 < a.size} {position : Fin a.size}
    {source between : σ}
    (hposition : (Random.below a.size hpos : Draw σ _).outcome source = (.ok position, between))
    (sampler : TreeSampler V) :
    (Mutation.vary ⟨sampler, []⟩ [a]).outcome source =
      (do
        let tree ← sampler.sample
        let child ← Draw.settled (a.code.replaceSubtree position tree)
        pure [⟨child, .pending⟩] : Draw σ (List (Individual V))).outcome between := by
  rw [Mutation.vary, dif_pos hpos, Draw.outcome_bind, hposition]
  rfl

/-- The tree that the sampler draws can be put at the position, and reaches as deep as the sampler
goes. -/
lemma exists_mutated {inputs : Nat} {sampler : TreeSampler V}
    (hv : sampler.vocabulary.Proper inputs) {a : Individual V} (ha : Fills a.code.symbols 1)
    {hpos : 0 < a.size} {position : Fin a.size} {source between rest : σ} {tree : Program V}
    (hposition : (Random.below a.size hpos : Draw σ _).outcome source = (.ok position, between))
    (hsample : sampler.sample.outcome between = (.ok tree, rest)) :
    ∃ last child,
      (Mutation.vary ⟨sampler, []⟩ [a]).outcome source = (.ok [⟨child, .pending⟩], rest) ∧
      a.code.Grafted tree child position last ∧
      (Extent.fits a.size = true → ∃ d d', a.code.depth = .ok d ∧ child.depth = .ok d' ∧
        d' ≤ max d (a.code.level position + sampler.greatest)) := by
  have htree : Fills tree.symbols 1 :=
    (TreeSampler.sample_yields hv between tree rest hsample).fills
  obtain ⟨below, hbelow, hle⟩ := TreeSampler.sample_depth_yields hv between tree rest hsample
  obtain ⟨last, child, hgrafted, hchild⟩ := Program.exists_grafted ha htree position.isLt
  refine ⟨last, child, ?_, hgrafted, ?_⟩
  · rw [outcome_mutation hposition, Draw.outcome_bind, hsample]
    simp only [hgrafted.replaced]
    rfl
  · intro hsize
    obtain ⟨d, hd⟩ := Program.depth_eq_ok (Program.storable_of_fills ha hsize) ha
    obtain ⟨d', hd', hmax⟩ := hgrafted.exists_depth_le ha htree hchild hd hbelow
    exact ⟨d, d', hd, hd', by omega⟩

/-- **Depths after replacements.**  Take a well-formed program, a position in it, and another
well-formed program.  When this is put in the place of the subtree at the position, everything
outside the subtree keeps its level, and the depth of the result is the greatest of the levels
outside and of the level of the position with the depth of what is put in added to it; only a result
of more symbols than the memory has room for has no depth.

Now take a sampler whose vocabulary consists of inputs and any additions.  From every source,
mutation without limits draws a position first and then a tree, and its child is the program with
this tree at that position.  The child is not deeper than the program was or than the level of the
position with the greatest height of the sampler added to it.  Mutation fails only where the sampler
does, and a sampler with a vocabulary that can be relied on never does. -/
theorem depths_after_replacements {inputs : Nat} {names : List String} {bare : Vocabulary V}
    (hbare : Vocabulary.ofInputs inputs names = .ok bare)
    (additions : List (Vocabulary.Addition V)) {t : Program V} (ht : t.isWellFormed = .ok true) :
    (∀ here < t.size, ∀ r : Program V, r.isWellFormed = .ok true →
      ∃ last child, t.Grafted r child here last ∧
        ((∃ below d, r.depth = .ok below ∧ child.depth = .ok d ∧
            IsGreatest (insert (t.level here + below) (t.levelsOutside here last)) d) ∨
          child.depth = .error .beyondMemory ∧ Extent.fits child.size = false)) ∧
    ∀ sampler : TreeSampler V, sampler.vocabulary = bare.after additions →
      ∀ (score : Score) (source : σ),
        ∃ (hpos : 0 < t.size) (position : Fin t.size) (between : σ),
          (Random.below t.size hpos : Draw σ _).outcome source = (.ok position, between) ∧
          ((∃ tree last child rest,
              sampler.sample.outcome between = (.ok tree, rest) ∧
              (Mutation.vary ⟨sampler, []⟩ [⟨t, score⟩]).outcome source =
                (.ok [⟨child, .pending⟩], rest) ∧
              t.Grafted tree child position last ∧
              (Extent.fits t.size = true → ∃ d d', t.depth = .ok d ∧ child.depth = .ok d' ∧
                d' ≤ max d (t.level position + sampler.greatest))) ∨
            ¬ sampler.vocabulary.Reliable ∧ ∃ f rest,
              (sampler.sample : Draw σ (Program V)).outcome between = (.error f, rest) ∧
              (Mutation.vary ⟨sampler, []⟩ [⟨t, score⟩]).outcome source = (.error f, rest)) := by
  have hfills : Fills t.symbols 1 := Program.fills_of_listsTrees ht
  constructor
  · intro here hhere r hr
    have hfillsR : Fills r.symbols 1 := Program.fills_of_listsTrees hr
    obtain ⟨last, child, hgrafted, hchild⟩ := Program.exists_grafted hfills hfillsR hhere
    exact ⟨last, child, hgrafted, hgrafted.depth_cases hfillsR hchild⟩
  · intro sampler hsampler score source
    have hv : sampler.vocabulary.Proper inputs := by
      rw [hsampler]
      exact (Vocabulary.proper_of_ofInputs hbare).after additions
    have hpos : 0 < t.size := hfills.length_pos
    obtain ⟨position, between, hposition⟩ :=
      (Random.below_failsOnly (σ := σ) t.size hpos fun _ => False).exists_outcome_eq_ok source
    refine ⟨hpos, position, between, hposition, ?_⟩
    rcases hsample : (sampler.sample : Draw σ (Program V)).outcome between with ⟨f | tree, rest⟩
    · right
      refine ⟨fun hreliable => ?_, f, rest, rfl, ?_⟩
      · exact TreeSampler.sample_failsOnly (Q := fun _ => False) hreliable between f rest hsample
      · rw [outcome_mutation (a := ⟨t, score⟩) hposition, Draw.outcome_bind, hsample]
    · left
      obtain ⟨last, child, hchild⟩ :=
        exists_mutated hv (a := ⟨t, score⟩) hfills hposition hsample
      exact ⟨tree, last, child, rest, rfl, hchild⟩

/-- A conjunction of an input and a negated input. -/
def inputAndNegation : Program Bool :=
  ⟨[Boolean.conjunction, .input "x" 0, Boolean.negation, .input "y" 1]⟩

/-- It becomes one level deeper when an exclusive disjunction is put below the negation.  When it is
mutated with trees of three levels, its child has at most five. -/
theorem inputAndNegation_is_grafted :
    (∃ last child,
      inputAndNegation.Grafted ⟨[Boolean.exclusion, .input "x" 0, .input "y" 1]⟩ child 3 last ∧
        child.depth = .ok 3) ∧
      ∃ (child : Program Bool) (d : Nat) (rest : ListedWords),
        (Mutation.vary ⟨TreeSampler.growingSampler, []⟩ [⟨inputAndNegation, .pending⟩]).outcome
            (⟨[0xc000000000000000, 7], 0⟩ : ListedWords) = (.ok [⟨child, .pending⟩], rest) ∧
          child.depth = .ok d ∧ d ≤ 5 := by
  have hbare : Vocabulary.ofInputs 1 ["y"] = .ok (⟨1, [.input "y" 0], []⟩ : Vocabulary Bool) := rfl
  have hwell : inputAndNegation.isWellFormed = .ok true := rfl
  obtain ⟨hgrafts, hmutation⟩ := depths_after_replacements (σ := ListedWords) hbare
    [.addAll [Boolean.negation, Boolean.conjunction]] hwell
  constructor
  · obtain ⟨last, child, hgrafted, -⟩ :=
      hgrafts 3 (by decide) ⟨[Boolean.exclusion, .input "x" 0, .input "y" 1]⟩ rfl
    have hreplaced := hgrafted.replaced
    refine ⟨last, child, hgrafted, ?_⟩
    cases hreplaced
    rfl
  · obtain ⟨hpos, position, between, -, hchild | ⟨hfails, -⟩⟩ :=
      hmutation TreeSampler.growingSampler rfl .pending ⟨[0xc000000000000000, 7], 0⟩
    · obtain ⟨tree, last, child, rest, -, houtcome, -, hdepth⟩ := hchild
      obtain ⟨d, d', hd, hd', hmax⟩ := hdepth rfl
      have hlevel : ∀ position : Fin inputAndNegation.size,
          inputAndNegation.level position ≤ 2 := by decide
      have htwo : (2 : Nat) = d := Except.ok.inj (show .ok 2 = Except.ok d from hd)
      refine ⟨child, d', rest, houtcome, hd', ?_⟩
      have hat : inputAndNegation.level position ≤ 2 := hlevel position
      have hgreatest : TreeSampler.growingSampler.greatest = 3 := rfl
      omega
    · exact absurd TreeSampler.growingSampler_reliable hfails

end Variation

end TreeEvolution
