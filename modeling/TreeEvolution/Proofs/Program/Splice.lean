import TreeEvolution.Proofs.Program.Surgery
import TreeEvolution.Symbol.Boolean

/-!
# Replacements in any listing

A subtree may be replaced wherever it comes to an end, whether or not the listing around it is that
of a tree.  The symbols before it and after it stay where they are, and what is put in is the
subtree there afterwards.  Since both the old and the new part fill one place, the places of the
whole listing come out the same (`Places.Fills.replace_iff`), and so does the test for
well-formedness.

The test counts places in 64 bits and breaks off when they do not suffice.  A list of symbols with
many arguments may stay below this bound and exceed it after a replacement: `greatestArity` does.
-/

namespace TreeEvolution

open Places

variable {V : Type}

/-- Parts that fill one place stand for each other, in any listing. -/
lemma Places.Fills.replace_iff {before part other more : List (Symbol V)} {places : Nat}
    (hpart : Fills part 1) (hother : Fills other 1) :
    Fills (before ++ (other ++ more)) places ↔ Fills (before ++ (part ++ more)) places :=
  ⟨fun h => h.replace hother hpart, fun h => h.replace hpart hother⟩

namespace Program

/-! ### The test for well-formedness -/

/-- The test tells whether a listing fills its places, or breaks off because there are too many. -/
lemma listsTrees_cases (symbols : List (Symbol V)) (places : Nat) :
    listsTrees symbols places = .error .countOverflow ∨
      ∃ answer, listsTrees symbols places = .ok answer ∧
        (answer = true ↔ Fills symbols places) := by
  induction symbols generalizing places with
  | nil => exact Or.inr ⟨places == 0, rfl, by simp [Fills]⟩
  | cons s symbols ih =>
    cases places with
    | zero => exact Or.inr ⟨false, rfl, by simp [Fills]⟩
    | succ places =>
      rw [listsTrees]
      split
      · exact ih (places + s.arity)
      · exact Or.inl rfl

/-- The test does not break off if the arguments of all symbols can be counted. -/
lemma exists_isWellFormed_eq_ok {p : Program V}
    (h : (p.symbols.map Symbol.arity).sum < UInt64.size) :
    ∃ answer, p.isWellFormed = .ok answer := by
  rw [isWellFormed, listsTrees_eq (by omega)]
  exact ⟨_, rfl⟩

/-- Two listings of which one fills its place exactly if the other does get the same answer, if they
get one. -/
lemma isWellFormed_eq_or {p q : Program V} (hp : (p.symbols.map Symbol.arity).sum < UInt64.size)
    (hiff : Fills q.symbols 1 ↔ Fills p.symbols 1) :
    q.isWellFormed = p.isWellFormed ∨
      UInt64.size ≤ (q.symbols.map Symbol.arity).sum ∧
        q.isWellFormed = .error .countOverflow := by
  rcases listsTrees_cases q.symbols 1 with hbroken | ⟨answer, hq, hanswer⟩
  · refine Or.inr ⟨?_, hbroken⟩
    by_contra hlt
    obtain ⟨answer, hq⟩ := exists_isWellFormed_eq_ok (Nat.lt_of_not_le hlt)
    rw [show q.isWellFormed = _ from hbroken] at hq
    cases hq
  · left
    obtain ⟨original, horiginal⟩ := exists_isWellFormed_eq_ok hp
    have hsame : answer = true ↔ original = true := by
      rw [hanswer, hiff, ← isWellFormed_eq_true_iff hp, horiginal, Except.ok.injEq]
    rw [horiginal, Bool.eq_iff_iff.mpr hsame.symm]
    exact hq

/-! ### Replacements -/

/-- **Replacements are splices.**  Take any list of symbols whose arguments can be counted, and a
position at which a subtree comes to an end.  The subtree can be replaced by any well-formed
program.  The result has as many symbols as there are outside the subtree and in the program that is
put in; the symbols before and after it are the same, in the same order, and its subtree at the
position is the program that was put in.  It is well formed exactly if the list was, but the test
may break off where the arguments of the new list cannot be counted.  What is cut out may be put
back, and when another program is put in after the first, the first leaves no trace. -/
theorem replacements_are_splices {t r : Program V} {position last : Nat}
    (ht : (t.symbols.map Symbol.arity).sum < UInt64.size)
    (hlast : t.subtreeEnd position = .ok last) (hr : r.isWellFormed = .ok true)
    (s : Program V) :
    ∃ child sub other : Program V,
      t.replaceSubtree position r = .ok child ∧
      (position ≤ last ∧ last < t.size ∧
        child.size = t.size - (last + 1 - position) + r.size) ∧
      (child.symbols.take position = t.symbols.take position ∧
        child.symbols.drop (position + r.size) = t.symbols.drop (last + 1)) ∧
      child.subtree position = .ok r ∧
      (child.isWellFormed = t.isWellFormed ∨
        UInt64.size ≤ (child.symbols.map Symbol.arity).sum ∧
          child.isWellFormed = .error .countOverflow) ∧
      (t.subtree position = .ok sub ∧ t.replaceSubtree position sub = .ok t) ∧
      t.replaceSubtree position s = .ok other ∧ child.replaceSubtree position s = .ok other := by
  obtain ⟨before, rest, sub, rfl, rfl, hend, hsub⟩ := exists_append_of_subtreeEnd hlast
  have hfills : Fills r.symbols 1 := fills_of_listsTrees hr
  have hpos : 0 < sub.size := hsub.length_pos
  refine ⟨⟨before ++ (r.symbols ++ rest)⟩, sub, ⟨before ++ (s.symbols ++ rest)⟩,
    replaceSubtree_append hsub before rest r, ⟨by omega, ?_, ?_⟩, ⟨?_, ?_⟩,
    subtree_append hfills before rest, isWellFormed_eq_or ht (hsub.replace_iff hfills),
    ⟨subtree_append hsub before rest, replaceSubtree_append hsub before rest sub⟩,
    replaceSubtree_append hsub before rest s, replaceSubtree_append hfills before rest s⟩
  · simp only [size, List.length_append] at hend ⊢
    omega
  · simp only [size, List.length_append] at hend ⊢
    omega
  · rw [List.take_left, List.take_left]
  · rw [hend, ← List.drop_drop, List.drop_left, ← List.drop_drop, List.drop_left]
    exact List.drop_left.trans List.drop_left.symm

/-- A listing that goes on after its first symbol. -/
def leftOverNegation : Program Bool :=
  ⟨[.input "x" 0, Boolean.negation, .input "y" 1]⟩

/-- A constant takes the place of the negation in it. -/
theorem leftOverNegation_takes_constant :
    ∃ child, leftOverNegation.replaceSubtree 1 ⟨[Boolean.constant true]⟩ = .ok child ∧
      child.size = 2 ∧ child.subtree 1 = .ok ⟨[Boolean.constant true]⟩ ∧
      child.isWellFormed = .ok false := by
  have hend : leftOverNegation.subtreeEnd 1 = .ok 2 := rfl
  have hconstant : (⟨[Boolean.constant true]⟩ : Program Bool).isWellFormed = .ok true := rfl
  obtain ⟨child, -, -, hchild, ⟨-, -, hsize⟩, -, hsub, htest, -⟩ :=
    replacements_are_splices (by decide) hend hconstant ⟨[]⟩
  refine ⟨child, hchild, hsize, hsub, ?_⟩
  rcases htest with htest | ⟨hlarge, -⟩
  · exact htest
  · cases hchild
    exact absurd hlarge (by decide)

/-- A symbol with so many arguments that no further ones could be counted, and a leaf. -/
def greatestArity : Program Bool :=
  ⟨[.function "f" 18446744073709551615 Boolean.all (by decide), Boolean.constant true]⟩

/-- The symbols of the list can be counted and it is no tree, but after the replacement of its leaf
by a conjunction the test does not tell. -/
theorem greatestArity_cannot_be_judged :
    (greatestArity.symbols.map Symbol.arity).sum < UInt64.size ∧
      greatestArity.subtreeEnd 1 = .ok 1 ∧
      (⟨[Boolean.conjunction, Boolean.constant true, Boolean.constant true]⟩ :
        Program Bool).isWellFormed = .ok true ∧
      ¬ ∃ child, greatestArity.replaceSubtree 1
          ⟨[Boolean.conjunction, Boolean.constant true, Boolean.constant true]⟩ = .ok child ∧
        child.isWellFormed = greatestArity.isWellFormed := by
  refine ⟨by decide, rfl, rfl, ?_⟩
  rintro ⟨child, hchild, htest⟩
  cases hchild
  cases htest

end Program

end TreeEvolution
