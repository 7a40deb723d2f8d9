import TreeEvolution.Proofs.Program.Surgery
import TreeEvolution.Symbol.Boolean

/-!
# Replacements at two positions

A replacement moves everything that comes after it in the listing, and leaves everything before it
where it was.  So two replacements can be made in either order, as long as the positions of the
second one are counted in the listing that the first one has left.

There are two cases.  A position after the end of a subtree stands apart from the subtree; it is
shifted by as much as the listing has become longer or shorter (`replaceSubtree_apart`).  A position
up to the end of the subtree stands inside it, and then the replacement there is one of the whole
subtree (`replaceSubtree_inside`).
-/

namespace TreeEvolution

namespace Program

open Places

variable {V : Type}

/-! ### Parts of a listing -/

/-- A listing that is cut at two positions has a part between them. -/
lemma exists_between {before part rest front more : List (Symbol V)}
    (h : before ++ (part ++ rest) = front ++ more)
    (hle : before.length + part.length ≤ front.length) :
    ∃ between, front = before ++ (part ++ between) ∧ rest = between ++ more := by
  rw [← List.append_assoc, List.append_eq_append_iff] at h
  rcases h with ⟨between, hfront, hrest⟩ | ⟨excess, hexcess, hmore⟩
  · exact ⟨between, by rw [hfront, List.append_assoc], hrest⟩
  · -- there is nothing that the first cut has beyond the second
    have hlength : before.length + part.length = front.length + excess.length := by
      rw [← List.length_append, hexcess, List.length_append]
    have hnil : excess = [] := List.eq_nil_of_length_eq_zero (by omega)
    subst hnil
    rw [List.append_nil] at hexcess
    exact ⟨[], by rw [← hexcess, List.append_nil], hmore.symm⟩

/-- The part behind two others is what a replacement takes the place of. -/
lemma replaceSubtree_behind {other : Program V} (hother : Fills other.symbols 1)
    (before part between rest : List (Symbol V)) (replacement : Program V) :
    (⟨before ++ (part ++ (between ++ (other.symbols ++ rest)))⟩ : Program V).replaceSubtree
        (before.length + part.length + between.length) replacement =
      .ok ⟨before ++ (part ++ (between ++ (replacement.symbols ++ rest)))⟩ := by
  have h := replaceSubtree_append hother (before ++ (part ++ between)) rest replacement
  have hlength : (before ++ (part ++ between)).length =
      before.length + part.length + between.length := by
    simp only [List.length_append, Nat.add_assoc]
  rw [hlength] at h
  simpa only [List.append_assoc] using h

/-! ### Two replacements -/

/-- A subtree and one that begins after its end may be replaced in either order. -/
lemma replaceSubtree_apart {t : Program V} {here last there stop : Nat}
    (hlast : t.subtreeEnd here = .ok last) (hend : t.subtreeEnd there = .ok stop)
    (hlt : last < there) (r s : Program V) :
    ∃ first second both : Program V,
      t.replaceSubtree there s = .ok first ∧ first.replaceSubtree here r = .ok both ∧
      t.replaceSubtree here r = .ok second ∧
      second.replaceSubtree (there + r.size - (last + 1 - here)) s = .ok both := by
  obtain ⟨before, rest, sub, rfl, rfl, hsize, hsub⟩ := exists_append_of_subtreeEnd hlast
  obtain ⟨front, more, other, hsplit, rfl, -, hother⟩ := exists_append_of_subtreeEnd hend
  obtain ⟨between, rfl, rfl⟩ : ∃ between, front = before ++ (sub.symbols ++ between) ∧
      rest = between ++ (other.symbols ++ more) := by
    refine exists_between (Program.mk.inj hsplit) ?_
    simp only [size] at hsize
    omega
  have hthere : (before ++ (sub.symbols ++ between)).length =
      before.length + sub.symbols.length + between.length := by
    simp only [List.length_append, Nat.add_assoc]
  -- the second position, after `r` has come into the place of the subtree
  have hshifted : (before ++ (sub.symbols ++ between)).length + r.size -
      (last + 1 - before.length) = before.length + r.symbols.length + between.length := by
    simp only [size] at hsize ⊢
    omega
  have hfirst := replaceSubtree_behind hother before sub.symbols between more s
  have hsecond := replaceSubtree_behind hother before r.symbols between more s
  rw [← hthere] at hfirst
  rw [← hshifted] at hsecond
  exact ⟨_, _, _, hfirst, replaceSubtree_append hsub before _ r,
    replaceSubtree_append hsub before _ r, hsecond⟩

/-- A replacement inside a subtree is a replacement of the subtree. -/
lemma replaceSubtree_inside {t : Program V} {here last there : Nat}
    (hlast : t.subtreeEnd here = .ok last) (hle : here ≤ there) (hthere : there ≤ last)
    (r : Program V) :
    ∃ sub inner child : Program V,
      t.subtree here = .ok sub ∧ sub.replaceSubtree (there - here) r = .ok inner ∧
      t.replaceSubtree there r = .ok child ∧ t.replaceSubtree here inner = .ok child := by
  obtain ⟨before, front, more, rest, part, rfl, rfl, hfront, -, hsub, hpart⟩ :=
    exists_append_inside hlast hle hthere
  have hposition : there = (before ++ front).length := by
    rw [List.length_append]
    omega
  refine ⟨⟨front ++ (part.symbols ++ more)⟩, ⟨front ++ (r.symbols ++ more)⟩,
    ⟨before ++ (front ++ (r.symbols ++ (more ++ rest)))⟩, subtree_append hsub before rest, ?_, ?_,
    ?_⟩
  · rw [← hfront]
    exact replaceSubtree_append hpart front more r
  · rw [hposition]
    simpa only [List.append_assoc] using
      replaceSubtree_append hpart (before ++ front) (more ++ rest) r
  · simpa only [List.append_assoc] using
      replaceSubtree_append hsub before rest ⟨front ++ (r.symbols ++ more)⟩

/-- **Replacements do not interfere.**  Take a well-formed program and a position in it, where a
subtree begins that has an end.  At a position after the end another subtree begins, and it does not
matter which of the two is replaced first: when the one at the earlier position is, then the other
one is found as many places further on as the listing has become longer, or further back as it has
become shorter.  At a position up to the end a replacement comes to the same as a replacement of the
whole subtree, by what this replacement makes of the subtree.  It does not matter what is put in. -/
theorem replacements_do_not_interfere {t : Program V} (ht : t.isWellFormed = .ok true)
    {here : Nat} (hhere : here < t.size) :
    ∃ last, t.subtreeEnd here = .ok last ∧
      (∀ there, last < there → there < t.size → ∀ r s : Program V,
        ∃ first second both : Program V,
          t.replaceSubtree there s = .ok first ∧ first.replaceSubtree here r = .ok both ∧
          t.replaceSubtree here r = .ok second ∧
          second.replaceSubtree (there + r.size - (last + 1 - here)) s = .ok both) ∧
      ∀ there, here ≤ there → there ≤ last → ∀ r : Program V,
        ∃ sub inner child : Program V,
          t.subtree here = .ok sub ∧ sub.replaceSubtree (there - here) r = .ok inner ∧
          t.replaceSubtree there r = .ok child ∧ t.replaceSubtree here inner = .ok child := by
  have hfills : Fills t.symbols 1 := fills_of_listsTrees ht
  obtain ⟨last, hlast⟩ := exists_subtreeEnd_eq_ok hfills hhere
  refine ⟨last, hlast, ?_, ?_⟩
  · intro there hlt hthere r s
    obtain ⟨stop, hend⟩ := exists_subtreeEnd_eq_ok hfills hthere
    exact replaceSubtree_apart hlast hend hlt r s
  · intro there hle hthere r
    exact replaceSubtree_inside hlast hle hthere r

/-- A conjunction of a negation and a disjunction. -/
def negationAndDisjunction : Program Bool :=
  ⟨[Boolean.conjunction, Boolean.negation, .input "x" 0, Boolean.disjunction, .input "x" 0,
    .input "y" 1]⟩

/-- A constant comes into the disjunction and an exclusive disjunction in the place of the negation,
in either order; the position in the disjunction is shifted from four to five. -/
theorem negationAndDisjunction_is_edited_twice :
    ∃ first second both : Program Bool,
      negationAndDisjunction.replaceSubtree 4 ⟨[Boolean.constant true]⟩ = .ok first ∧
      first.replaceSubtree 1 ⟨[Boolean.exclusion, .input "x" 0, .input "y" 1]⟩ = .ok both ∧
      negationAndDisjunction.replaceSubtree 1
          ⟨[Boolean.exclusion, .input "x" 0, .input "y" 1]⟩ = .ok second ∧
      second.replaceSubtree 5 ⟨[Boolean.constant true]⟩ = .ok both := by
  have hwell : negationAndDisjunction.isWellFormed = .ok true := rfl
  obtain ⟨last, hlast, hapart, -⟩ :=
    replacements_do_not_interfere hwell (show 1 < negationAndDisjunction.size by decide)
  obtain rfl : 2 = last := Except.ok.inj hlast
  exact hapart 4 (by decide) (by decide) _ _

end Program

end TreeEvolution
