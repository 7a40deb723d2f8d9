import TreeEvolution.Proofs.Program.Splice
import TreeEvolution.Proofs.Program.Tree
import TreeEvolution.Proofs.Variation
import TreeEvolution.Symbol.Boolean

/-!
# Subtrees as intervals of a listing

The subtree at a position takes up the symbols of the listing from the position to the end of the
subtree.  This holds in any listing: the walk from the position runs out of symbols, or it ends
inside the listing and has gone through the listing of a tree (`runsOut_or_isSubtree`).

These intervals are those of a tree.  Where one of them begins inside another one, it ends inside
the other one too and is a subtree of it (`exists_subtree_inside`); so two of them that overlap are
one inside the other.  In a well-formed listing there is one at every position, and its test for
well-formedness never breaks off, since it counts no more places than that of the whole listing
(`isWellFormed_subtree`).

Cutting and putting in take parts out of a listing between two positions.  `slice?` does so only if
both lie in the listing and in this order; all parts that are ever taken are such slices.
-/

namespace TreeEvolution

namespace Program

open Places

variable {V : Type}

/-! ### The test for parts of a listing -/

/-- The test of a listing goes on after symbols that are used up. -/
lemma listsTrees_of_append {used more : List (Symbol V)} {places left : Nat} {answer : Bool}
    (hused : fill used places = ([], left))
    (h : listsTrees (used ++ more) places = .ok answer) : listsTrees more left = .ok answer := by
  induction used generalizing places with
  | nil =>
    simp only [fill_nil, Prod.mk.injEq, true_and] at hused
    subst hused
    exact h
  | cons s used ih =>
    cases places with
    | zero => simp at hused
    | succ places =>
      rw [List.cons_append, listsTrees] at h
      split at h
      · exact ih hused h
      · cases h

/-- Where places can be counted, so can fewer places. -/
lemma exists_listsTrees_eq_ok {symbols more : List (Symbol V)} {places further : Nat}
    {answer : Bool} (h : listsTrees (symbols ++ more) (places + further) = .ok answer) :
    ∃ answer, listsTrees symbols places = .ok answer := by
  induction symbols generalizing places with
  | nil => exact ⟨_, rfl⟩
  | cons s symbols ih =>
    cases places with
    | zero => exact ⟨false, rfl⟩
    | succ places =>
      rw [Nat.add_right_comm, List.cons_append, listsTrees] at h
      split at h
      · rename_i hcount
        rw [Nat.add_right_comm] at h
        have hfewer : places + s.arity < UInt64.size := by omega
        rw [listsTrees, if_pos hfewer]
        exact ih h
      · cases h

/-- The subtrees of a well-formed program are well formed. -/
lemma isWellFormed_subtree {p sub : Program V} {position : Nat} (h : p.isWellFormed = .ok true)
    (hsub : p.subtree position = .ok sub) : sub.isWellFormed = .ok true := by
  obtain ⟨hfills, rest, hdrop⟩ := subtree_eq_ok hsub
  have hpos : 0 < (p.symbols.drop position).length := by
    rw [hdrop, List.length_append]
    exact Nat.add_pos_left hfills.length_pos _
  have hposition : position < p.symbols.length := by
    rw [List.length_drop] at hpos
    omega
  obtain ⟨left, hbefore, -⟩ := (fills_of_listsTrees h).exists_fill_take hposition
  -- one of the places that are open at the position is for the subtree
  have hcount : listsTrees (sub.symbols ++ rest) (1 + left) = .ok true := by
    rw [isWellFormed, ← List.take_append_drop position p.symbols] at h
    rw [← hdrop, Nat.add_comm]
    exact listsTrees_of_append hbefore h
  obtain ⟨answer, hanswer⟩ := exists_listsTrees_eq_ok hcount
  rcases listsTrees_cases sub.symbols 1 with hbroken | ⟨found, hfound, hiff⟩
  · rw [hbroken] at hanswer
    cases hanswer
  · rw [isWellFormed, hfound, hiff.mpr hfills]

/-! ### Slices -/

/-- The symbols from a position up to another one, if both lie in the listing and in this order. -/
def slice? (p : Program V) (first past : Nat) : Option (List (Symbol V)) :=
  if first ≤ past ∧ past ≤ p.size then some ((p.symbols.drop first).take (past - first)) else none

/-- The symbols before a position are a slice. -/
lemma slice?_take {p : Program V} {position : Nat} (h : position ≤ p.size) :
    p.slice? 0 position = some (p.symbols.take position) := by
  simp [slice?, h]

/-- The symbols from a position on are a slice. -/
lemma slice?_drop {p : Program V} {position : Nat} (h : position ≤ p.size) :
    p.slice? position p.size = some (p.symbols.drop position) := by
  unfold slice?
  rw [if_pos ⟨h, Nat.le_refl p.size⟩, size, ← List.length_drop, List.take_length]

/-- What stands between two parts of a listing is a slice of it. -/
lemma slice?_append (before symbols rest : List (Symbol V)) :
    slice? ⟨before ++ (symbols ++ rest)⟩ before.length (before.length + symbols.length) =
      some symbols := by
  simp [slice?, size, ← Nat.add_assoc]

/-- The walk from a position runs out of symbols, and nothing is cut out or put in. -/
structure RunsOut (p : Program V) (position : Nat) (f : Fault) : Prop where
  /-- It asks for the first symbol that is not there. -/
  message : f.message? = some ("malformed expression: subtree needs element " ++
    toString (max position p.size) ++ " of " ++ toString p.size)
  /-- There is no end of the subtree. -/
  subtreeEnd : p.subtreeEnd position = .error f
  /-- There is no subtree. -/
  subtree : p.subtree position = .error f
  /-- There is nothing to replace. -/
  replaceSubtree : ∀ r : Program V, p.replaceSubtree position r = .error f

/-- The symbols from a position to another one are a subtree, which can be cut out and replaced. -/
structure IsSubtree (p : Program V) (first last : Nat) (sub : Program V) : Prop where
  /-- The subtree has an end. -/
  subtreeEnd : p.subtreeEnd first = .ok last
  /-- It begins and ends in the listing. -/
  bounds : first ≤ last ∧ last < p.size
  /-- Its symbols are those between its beginning and its end. -/
  slice : p.slice? first (last + 1) = some sub.symbols
  /-- They are the listing of a tree. -/
  tree : ∃ t : Tree V, t.Sound ∧ t.listing = sub.symbols
  /-- The test finds them well formed if their arguments can be counted. -/
  wellFormed : (sub.symbols.map Symbol.arity).sum < UInt64.size → sub.isWellFormed = .ok true
  /-- They are what is cut out. -/
  subtree : p.subtree first = .ok sub
  /-- What stands before and after them stays where it is when they are replaced. -/
  replaceSubtree : ∃ front back, p.slice? 0 first = some front ∧
    p.slice? (last + 1) p.size = some back ∧
      ∀ r : Program V, p.replaceSubtree first r = .ok ⟨front ++ r.symbols ++ back⟩

/-- Where a subtree comes to an end, it is an interval of the listing. -/
lemma exists_isSubtree {p : Program V} {first last : Nat} (h : p.subtreeEnd first = .ok last) :
    ∃ sub, p.IsSubtree first last sub := by
  obtain ⟨sub, rest, hdrop, hsub, hlength⟩ := exists_of_subtreeEnd_eq_ok h
  have hpos : 0 < sub.length := hsub.length_pos
  have hsize : p.size - first = sub.length + rest.length := by
    rw [size, ← List.length_drop, hdrop, List.length_append]
  have hlast : first ≤ last + 1 ∧ last + 1 ≤ p.size := by omega
  have htake : (p.symbols.drop first).take (last + 1 - first) = sub := by
    rw [hdrop, hlength, Nat.add_sub_cancel_left, List.take_left]
  refine ⟨⟨sub⟩, h, by omega, ?_, Tree.fills_one_iff.mp hsub,
    fun hcount => (isWellFormed_eq_true_iff hcount).mpr hsub, ?_, ?_⟩
  · rw [slice?, if_pos hlast, htake]
  · rw [← htake]
    exact bind_eq_ok.mpr ⟨last, h, rfl⟩
  · refine ⟨_, _, slice?_take (Nat.le_trans hlast.1 hlast.2), slice?_drop hlast.2, fun r => ?_⟩
    exact bind_eq_ok.mpr ⟨last, h, rfl⟩

/-- The walk from a position runs out of symbols or goes through a subtree. -/
lemma runsOut_or_isSubtree (p : Program V) (position : Nat) :
    (∃ f, p.RunsOut position f) ∨ ∃ last sub, p.IsSubtree position last sub := by
  rcases fill_cases (p.symbols.drop position) 1 with ⟨sub, rest, hdrop, hsub⟩ | ⟨left, hleft⟩
  · exact Or.inr ⟨_, exists_isSubtree (subtreeEnd_eq_ok hdrop hsub)⟩
  · have hend := subtreeEnd_eq_error hleft
    refine Or.inl ⟨.missingSymbol (max position p.size) p.size, rfl, hend, ?_, fun r => ?_⟩
    · exact bind_eq_error.mpr (Or.inl hend)
    · exact bind_eq_error.mpr (Or.inl hend)

/-! ### Intervals inside each other -/

/-- A subtree that begins inside another one ends inside it, and is a subtree of it. -/
lemma exists_subtree_inside {p : Program V} {here last there : Nat}
    (hlast : p.subtreeEnd here = .ok last) (hle : here ≤ there) (hthere : there ≤ last) :
    ∃ stop sub inner, p.subtreeEnd there = .ok stop ∧ stop ≤ last ∧ p.subtree here = .ok sub ∧
      sub.subtree (there - here) = .ok inner ∧ p.subtree there = .ok inner := by
  obtain ⟨before, front, more, rest, part, rfl, rfl, hfront, hsize, hsub, hpart⟩ :=
    exists_append_inside hlast hle hthere
  have hposition : (before ++ front).length = there := by
    rw [List.length_append]
    omega
  have hlisting : before ++ (front ++ (part.symbols ++ more) ++ rest) =
      before ++ front ++ (part.symbols ++ (more ++ rest)) := by
    simp only [List.append_assoc]
  obtain ⟨stop, hstop, hend⟩ := exists_subtreeEnd_append hpart (before ++ front) (more ++ rest)
  have hinner := subtree_append hpart (before ++ front) (more ++ rest)
  rw [hposition, ← hlisting] at hstop hinner
  refine ⟨stop, _, part, hstop, ?_, subtree_append hsub before rest, ?_, hinner⟩
  · simp only [List.length_append] at hsize hend
    omega
  · rw [← hfront]
    exact subtree_append hpart front more

/-- A random subtree of a well-formed program is well formed, and there always is one. -/
lemma exists_randomSubtree {σ : Type} [WordSource σ] {p : Program V}
    (h : p.isWellFormed = .ok true) (source : σ) :
    ∃ position sub rest, p.randomSubtree.outcome source = (.ok (position, sub), rest) ∧
      p.subtree position = .ok sub := by
  have hfails := randomSubtree_failsOnly (σ := σ) (fills_of_listsTrees h) fun _ => False
  obtain ⟨⟨position, sub⟩, rest, hdraw⟩ := hfails.exists_outcome_eq_ok source
  exact ⟨position, sub, rest, hdraw, randomSubtree_yields p source _ rest hdraw⟩

/-- **Subtrees are intervals that form a tree.**  In any list of symbols and at any position, the
walk from there asks for the first symbol that is not there, or it comes to an end in the list.  In
that case the symbols up to the end are the listing of a tree, and everything that cutting and
putting in take out of the list lies in it.

In a well-formed program there is a subtree at every position.  Of two of them the second begins
after the end of the first, or it ends where the first one does or before that and is a subtree of
it.  A random subtree can be had from any source of words, and is always a well-formed program. -/
theorem subtrees_form_a_tree {σ : Type} [WordSource σ] (p : Program V) :
    (∀ position, (∃ f, p.RunsOut position f) ∨ ∃ last sub, p.IsSubtree position last sub) ∧
    (p.isWellFormed = .ok true →
      (∀ here there, here < there → there < p.size → ∃ last stop,
        p.subtreeEnd here = .ok last ∧ p.subtreeEnd there = .ok stop ∧
        (last < there ∨ there ≤ last ∧ stop ≤ last ∧ ∃ sub inner, p.subtree here = .ok sub ∧
          sub.subtree (there - here) = .ok inner ∧ p.subtree there = .ok inner)) ∧
      ∀ source : σ, ∃ position last sub rest,
        p.randomSubtree.outcome source = (.ok (position, sub), rest) ∧
          p.IsSubtree position last sub ∧ sub.isWellFormed = .ok true) := by
  refine ⟨p.runsOut_or_isSubtree, fun h => ⟨fun here there hlt hthere => ?_, fun source => ?_⟩⟩
  · have hfills : Fills p.symbols 1 := fills_of_listsTrees h
    obtain ⟨last, hlast⟩ := exists_subtreeEnd_eq_ok hfills (Nat.lt_trans hlt hthere)
    by_cases hapart : last < there
    · obtain ⟨stop, hstop⟩ := exists_subtreeEnd_eq_ok hfills hthere
      exact ⟨last, stop, hlast, hstop, Or.inl hapart⟩
    · have hinside : there ≤ last := Nat.le_of_not_lt hapart
      obtain ⟨stop, sub, inner, hstop, hle, hsub, hinner, hsame⟩ :=
        exists_subtree_inside hlast (Nat.le_of_lt hlt) hinside
      exact ⟨last, stop, hlast, hstop, Or.inr ⟨hinside, hle, sub, inner, hsub, hinner, hsame⟩⟩
  · obtain ⟨position, sub, rest, hdraw, hsub⟩ := exists_randomSubtree h source
    obtain ⟨last, hlast, -⟩ := bind_eq_ok.mp hsub
    obtain ⟨found, hfound⟩ := exists_isSubtree hlast
    obtain rfl : found = sub := Except.ok.inj (hfound.subtree.symm.trans hsub)
    exact ⟨position, last, found, rest, hdraw, hfound, isWellFormed_subtree h hsub⟩

/-- The disjunction of a negation and a conjunction. -/
def negationOrConjunction : Program Bool :=
  ⟨[Boolean.disjunction, Boolean.negation, .input "x" 0, Boolean.conjunction, .input "x" 0,
    .input "y" 1]⟩

/-- The negation comes to an end before the conjunction, and the conjunction has the last input
inside.  What is drawn with the word one half is one of its subtrees. -/
theorem negationOrConjunction_has_subtrees :
    negationOrConjunction.isWellFormed = .ok true ∧
      (∃ last stop, negationOrConjunction.subtreeEnd 1 = .ok last ∧
        negationOrConjunction.subtreeEnd 3 = .ok stop ∧ last < 3) ∧
      (∃ sub inner, negationOrConjunction.subtree 3 = .ok sub ∧ sub.subtree 2 = .ok inner ∧
        negationOrConjunction.subtree 5 = .ok inner) ∧
      ∃ position last sub rest,
        negationOrConjunction.randomSubtree.outcome (⟨[0x8000000000000000], 0⟩ : ListedWords) =
          (.ok (position, sub), rest) ∧
        negationOrConjunction.IsSubtree position last sub ∧ sub.isWellFormed = .ok true := by
  have hwell : negationOrConjunction.isWellFormed = .ok true := rfl
  obtain ⟨-, hnested⟩ := subtrees_form_a_tree (σ := ListedWords) negationOrConjunction
  obtain ⟨hpairs, hdraws⟩ := hnested hwell
  refine ⟨hwell, ?_, ?_, hdraws _⟩
  · obtain ⟨last, stop, hlast, hstop, -⟩ := hpairs 1 3 (by decide) (by decide)
    obtain rfl : 2 = last := Except.ok.inj hlast
    exact ⟨2, stop, hlast, hstop, by decide⟩
  · obtain ⟨last, stop, hlast, -, hcases⟩ := hpairs 3 5 (by decide) (by decide)
    obtain rfl : 5 = last := Except.ok.inj hlast
    rcases hcases with hapart | ⟨-, -, sub, inner, hsub, hinner, hsame⟩
    · exact absurd hapart (by decide)
    · exact ⟨sub, inner, hsub, hinner, hsame⟩

end Program

end TreeEvolution
