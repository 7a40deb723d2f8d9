import Mathlib.Data.List.Basic
import TreeEvolution.Proofs.Outcomes
import TreeEvolution.Proofs.Program.Vacancies

/-!
# Cutting and putting in

Subtrees can be cut out of a listing and put into it.  A subtree at a position is a part of the
listing that fills one place (`subtree_eq_ok`), and putting another part in its stead leaves what
stands before and after it as it is (`replaceSubtree_eq_ok`).  Since all parts that fill one place
may stand for each other (`Places.Fills.replace`), a listing that fills its places does so after the
replacement.

The other way round, a listing that is written as what stands before a part, the part, and the rest
shows what the operations on that part come to (`subtree_append`, `replaceSubtree_append`).
-/

namespace TreeEvolution

namespace Places.Fills

variable {V : Type} {before part other more : List (Symbol V)} {places : Nat}

/-- A part that fills one place may stand for any other such part. -/
lemma replace (h : Fills (before ++ (part ++ more)) places) (hpart : Fills part 1)
    (hother : Fills other 1) : Fills (before ++ (other ++ more)) places := by
  obtain ⟨left, hbefore, hrest⟩ := exists_fill_of_append h
  rw [Fills, fill_append hbefore]
  cases left with
  | zero =>
    have hpos : 0 < part.length := hpart.length_pos
    rw [fill_zero, Prod.mk.injEq, List.append_eq_nil_iff] at hrest
    rw [hrest.1.1] at hpos
    cases hpos
  | succ left =>
    rw [hother.fill_append_succ, ← hpart.fill_append_succ]
    exact hrest

end Places.Fills

namespace Program

open Places

variable {V : Type}

/-- A subtree fills one place, and what follows it in the listing is left. -/
lemma subtree_eq_ok {p sub : Program V} {position : Nat} (h : p.subtree position = .ok sub) :
    Fills sub.symbols 1 ∧ ∃ rest, p.symbols.drop position = sub.symbols ++ rest := by
  obtain ⟨last, hlast, h⟩ := bind_eq_ok.mp h
  obtain ⟨part, rest, hdrop, hpart, hend⟩ := exists_of_subtreeEnd_eq_ok hlast
  cases h
  have htake : (p.symbols.drop position).take (last + 1 - position) = part := by
    rw [hdrop, hend, Nat.add_sub_cancel_left]
    exact List.take_left
  change Fills ((p.symbols.drop position).take (last + 1 - position)) 1 ∧ _
  rw [htake]
  exact ⟨hpart, rest, hdrop⟩

/-- A replacement takes the place of a part that fills one place, and everything else stays where it
is. -/
lemma replaceSubtree_eq_ok {p replacement child : Program V} {position : Nat}
    (h : p.replaceSubtree position replacement = .ok child) :
    ∃ part rest, p.symbols = p.symbols.take position ++ (part ++ rest) ∧ Fills part 1 ∧
      child.symbols = p.symbols.take position ++ (replacement.symbols ++ rest) := by
  obtain ⟨last, hlast, h⟩ := bind_eq_ok.mp h
  obtain ⟨part, rest, hdrop, hpart, hend⟩ := exists_of_subtreeEnd_eq_ok hlast
  cases h
  have hrest : p.symbols.drop (last + 1) = rest := by
    rw [hend, ← List.drop_drop, hdrop]
    exact List.drop_left
  refine ⟨part, rest, ?_, hpart, ?_⟩
  · rw [← hdrop, List.take_append_drop]
  · change p.symbols.take position ++ replacement.symbols ++ p.symbols.drop (last + 1) = _
    rw [hrest, List.append_assoc]

/-- The symbols of a subtree are symbols of the program. -/
lemma mem_of_subtree_eq_ok {p sub : Program V} {position : Nat} (h : p.subtree position = .ok sub)
    {s : Symbol V} (hs : s ∈ sub.symbols) : s ∈ p.symbols := by
  obtain ⟨-, rest, hdrop⟩ := subtree_eq_ok h
  refine List.mem_of_mem_drop (i := position) ?_
  rw [hdrop]
  exact List.mem_append_left rest hs

/-- A replacement brings in no symbols but its own. -/
lemma mem_of_replaceSubtree_eq_ok {p replacement child : Program V} {position : Nat}
    (h : p.replaceSubtree position replacement = .ok child) {s : Symbol V}
    (hs : s ∈ child.symbols) : s ∈ p.symbols ∨ s ∈ replacement.symbols := by
  obtain ⟨part, rest, hp, -, hchild⟩ := replaceSubtree_eq_ok h
  rw [hchild, List.mem_append, List.mem_append] at hs
  rcases hs with hs | hs | hs
  · exact Or.inl (List.mem_of_mem_take hs)
  · exact Or.inr hs
  · rw [hp]
    exact Or.inl (List.mem_append_right _ (List.mem_append_right part hs))

/-- There is a subtree at every position of a program. -/
lemma exists_subtreeEnd_eq_ok {p : Program V} (h : Fills p.symbols 1) {position : Nat}
    (hposition : position < p.size) : ∃ last, p.subtreeEnd position = .ok last := by
  rcases fill_cases (p.symbols.drop position) 1 with ⟨sub, rest, hdrop, hsub⟩ | ⟨left, hleft⟩
  · exact ⟨_, subtreeEnd_eq_ok hdrop hsub⟩
  · -- the symbols from the position on would leave a place open
    have hnone : vacancies (p.symbols.drop position) = 0 := h.vacancies_drop hposition
    rw [vacancies, hleft] at hnone
    exact absurd hnone (Nat.succ_ne_zero left)

/-- The subtree at a position can be cut out. -/
lemma exists_subtree_eq_ok {p : Program V} (h : Fills p.symbols 1) {position : Nat}
    (hposition : position < p.size) : ∃ sub, p.subtree position = .ok sub := by
  obtain ⟨last, hlast⟩ := exists_subtreeEnd_eq_ok h hposition
  exact ⟨_, bind_eq_ok.mpr ⟨last, hlast, rfl⟩⟩

/-- The subtree at a position can be replaced. -/
lemma exists_replaceSubtree_eq_ok {p : Program V} (h : Fills p.symbols 1) {position : Nat}
    (hposition : position < p.size) (replacement : Program V) :
    ∃ child, p.replaceSubtree position replacement = .ok child := by
  obtain ⟨last, hlast⟩ := exists_subtreeEnd_eq_ok h hposition
  exact ⟨_, bind_eq_ok.mpr ⟨last, hlast, rfl⟩⟩

/-- Where a subtree can be cut out, another one can be put in. -/
lemma exists_replaceSubtree_of_subtree {p sub : Program V} {position : Nat}
    (h : p.subtree position = .ok sub) (replacement : Program V) :
    ∃ child, p.replaceSubtree position replacement = .ok child := by
  obtain ⟨last, hlast, -⟩ := bind_eq_ok.mp h
  exact ⟨_, bind_eq_ok.mpr ⟨last, hlast, rfl⟩⟩

/-- A program that fills one place does so after the replacement of a subtree by another. -/
lemma fills_of_replaceSubtree_eq_ok {p replacement child : Program V} {position : Nat}
    (h : p.replaceSubtree position replacement = .ok child) (hp : Fills p.symbols 1)
    (hreplacement : Fills replacement.symbols 1) : Fills child.symbols 1 := by
  obtain ⟨part, rest, hsplit, hpart, hchild⟩ := replaceSubtree_eq_ok h
  rw [hsplit] at hp
  rw [hchild]
  exact hp.replace hpart hreplacement

/-! ### Exchanges -/

/-- Two programs with the subtrees at a position of each of them exchanged. -/
def exchange (a b : Program V) (here there : Nat) : Except Fault (Program V × Program V) := do
  let fromA ← a.subtree here
  let fromB ← b.subtree there
  let left ← a.replaceSubtree here fromB
  let right ← b.replaceSubtree there fromA
  pure (left, right)

/-- In an exchange each subtree is cut out of its program and put into the other one. -/
lemma exchange_eq_ok_iff {a b left right : Program V} {here there : Nat} :
    a.exchange b here there = .ok (left, right) ↔ ∃ fromA fromB,
      a.subtree here = .ok fromA ∧ b.subtree there = .ok fromB ∧
        a.replaceSubtree here fromB = .ok left ∧ b.replaceSubtree there fromA = .ok right := by
  constructor
  · intro h
    obtain ⟨fromA, hfromA, h⟩ := bind_eq_ok.mp h
    obtain ⟨fromB, hfromB, h⟩ := bind_eq_ok.mp h
    obtain ⟨_, hleft, h⟩ := bind_eq_ok.mp h
    obtain ⟨_, hright, h⟩ := bind_eq_ok.mp h
    cases h
    exact ⟨fromA, fromB, hfromA, hfromB, hleft, hright⟩
  · rintro ⟨fromA, fromB, hfromA, hfromB, hleft, hright⟩
    refine bind_eq_ok.mpr ⟨fromA, hfromA, bind_eq_ok.mpr ⟨fromB, hfromB, ?_⟩⟩
    exact bind_eq_ok.mpr ⟨left, hleft, bind_eq_ok.mpr ⟨right, hright, rfl⟩⟩

/-! ### Listings around a subtree -/

/-- A program with a subtree consists of what stands before it, the subtree, and the rest. -/
lemma exists_append_of_subtree {p sub : Program V} {position : Nat}
    (h : p.subtree position = .ok sub) : ∃ before rest, before.length = position ∧
      p.symbols = before ++ (sub.symbols ++ rest) ∧ Fills sub.symbols 1 := by
  obtain ⟨hsub, rest, hdrop⟩ := subtree_eq_ok h
  have hle : position ≤ p.symbols.length := by
    by_contra hlt
    rw [List.drop_eq_nil_of_le (Nat.le_of_not_le hlt)] at hdrop
    have hnil : sub.symbols = [] := (List.append_eq_nil_iff.mp hdrop.symm).1
    exact Nat.ne_of_gt hsub.length_pos (List.length_eq_zero_iff.mpr hnil)
  refine ⟨p.symbols.take position, rest, List.length_take_of_le hle, ?_, hsub⟩
  rw [← hdrop, List.take_append_drop]

/-- The subtree behind some symbols is the part that fills one place. -/
lemma exists_subtreeEnd_append {sub : List (Symbol V)} (hsub : Fills sub 1)
    (before rest : List (Symbol V)) :
    ∃ last, (⟨before ++ (sub ++ rest)⟩ : Program V).subtreeEnd before.length = .ok last ∧
      last + 1 = before.length + sub.length := by
  have hdrop : (before ++ (sub ++ rest)).drop before.length = sub ++ rest := List.drop_left
  have hpos : 0 < sub.length := hsub.length_pos
  exact ⟨_, subtreeEnd_eq_ok hdrop hsub, by omega⟩

/-- A listing with an end of a subtree consists of what stands before the subtree, the subtree, and
the rest. -/
lemma exists_append_of_subtreeEnd {p : Program V} {position last : Nat}
    (h : p.subtreeEnd position = .ok last) : ∃ (before rest : List (Symbol V)) (sub : Program V),
      p = ⟨before ++ (sub.symbols ++ rest)⟩ ∧ before.length = position ∧
        last + 1 = position + sub.size ∧ Fills sub.symbols 1 := by
  obtain ⟨sub, hsub⟩ : ∃ sub, p.subtree position = .ok sub :=
    ⟨_, bind_eq_ok.mpr ⟨last, h, rfl⟩⟩
  obtain ⟨before, rest, hlength, hp, hfills⟩ := exists_append_of_subtree hsub
  obtain ⟨last', hlast', hend⟩ := exists_subtreeEnd_append hfills before rest
  rw [← hp, hlength] at hlast'
  rw [hlength] at hend
  obtain rfl : last = last' := Except.ok.inj (h.symm.trans hlast')
  exact ⟨before, rest, sub, by rw [← hp], hlength, hend, hfills⟩

/-- At a position inside a subtree, the subtree consists of what stands before the position, another
subtree, and the rest. -/
lemma exists_append_inside {p : Program V} {here last there : Nat}
    (h : p.subtreeEnd here = .ok last) (hle : here ≤ there) (hthere : there ≤ last) :
    ∃ (before front more rest : List (Symbol V)) (part : Program V),
      p = ⟨before ++ (front ++ (part.symbols ++ more) ++ rest)⟩ ∧ before.length = here ∧
        front.length = there - here ∧
        last + 1 = here + (front ++ (part.symbols ++ more)).length ∧
        Fills (⟨front ++ (part.symbols ++ more)⟩ : Program V).symbols 1 ∧
        Fills part.symbols 1 := by
  obtain ⟨before, rest, sub, rfl, rfl, hsize, hsub⟩ := exists_append_of_subtreeEnd h
  have hinside : there - before.length < sub.size := by omega
  obtain ⟨stop, hstop⟩ := exists_subtreeEnd_eq_ok hsub hinside
  obtain ⟨front, more, part, rfl, hfront, -, hpart⟩ := exists_append_of_subtreeEnd hstop
  exact ⟨before, front, more, rest, part, rfl, rfl, hfront, hsize, hsub, hpart⟩

/-- The part behind some symbols that fills one place is the subtree there. -/
lemma subtree_append {sub : Program V} (hsub : Fills sub.symbols 1)
    (before rest : List (Symbol V)) :
    (⟨before ++ (sub.symbols ++ rest)⟩ : Program V).subtree before.length = .ok sub := by
  obtain ⟨last, hlast, hend⟩ := exists_subtreeEnd_append hsub before rest
  refine bind_eq_ok.mpr ⟨last, hlast, ?_⟩
  rw [hend, Nat.add_sub_cancel_left, List.drop_left, List.take_left]
  rfl

/-- The part behind some symbols that fills one place is what a replacement takes the place of. -/
lemma replaceSubtree_append {sub : Program V} (hsub : Fills sub.symbols 1)
    (before rest : List (Symbol V)) (replacement : Program V) :
    (⟨before ++ (sub.symbols ++ rest)⟩ : Program V).replaceSubtree before.length replacement =
      .ok ⟨before ++ (replacement.symbols ++ rest)⟩ := by
  obtain ⟨last, hlast, hend⟩ := exists_subtreeEnd_append hsub before rest
  refine bind_eq_ok.mpr ⟨last, hlast, ?_⟩
  rw [hend, List.take_left, ← List.drop_drop, List.drop_left, List.drop_left, List.append_assoc]
  rfl

end Program

end TreeEvolution
