import TreeEvolution.Proofs.Program.Meaning
import TreeEvolution.Proofs.Program.Surgery

/-!
# Values after a replacement

What a program evaluates to depends on a subtree only through the value of the subtree.  In a
listing the subtree may stand below any number of open nodes, so the statement is first shown of
trees: when a part of the listing of some trees is the listing of a sound tree, and another sound
tree is put in its stead, then the listing is again that of as many trees, with the same results
(`exists_listings_replace`).  The induction is on the symbols before the part, where the subtrees of
the first root and the trees after it are taken together as usual.

A failure is an outcome like any other here.  A subtree that fails may be replaced by one that fails
in the same way, and failures elsewhere in the program stay the first to be met, if they were.
-/

namespace TreeEvolution

open Places

variable {V α : Type} {result : Symbol V → List α → Except Fault α} {base : List α}

namespace Tree

/-! ### Trees with the same results -/

/-- Trees with the same results, tree by tree. -/
def Alike (result : Symbol V → List α → Except Fault α) (base : List α) :
    List (Tree V) → List (Tree V) → Prop :=
  List.Forall₂ fun t u => t.along result base = u.along result base

lemma Alike.refl (trees : List (Tree V)) : Alike result base trees trees :=
  List.forall₂_refl trees

/-- They come to the same. -/
lemma Alike.alongEach_eq {trees others : List (Tree V)} (h : Alike result base trees others) :
    alongEach result base trees = alongEach result base others := by
  induction h with
  | nil => rfl
  | cons heq _ ih => rw [alongEach_cons, alongEach_cons, heq, ih]

/-- The result of a node depends on the results of its subtrees only. -/
lemma Alike.along_node_eq {children others : List (Tree V)} (h : Alike result base children others)
    (s : Symbol V) :
    (node s children).along result base = (node s others).along result base := by
  have hempty : children.isEmpty = others.isEmpty := by
    cases h <;> rfl
  rw [along_node, along_node, h.alongEach_eq, hempty]

/-- The first tree of a listing can be told from what comes after it. -/
lemma eq_of_listing_append_eq {t u : Tree V} (ht : t.Sound) (hu : u.Sound)
    {more rest : List (Symbol V)} (h : t.listing ++ more = u.listing ++ rest) :
    t = u ∧ more = rest := by
  have hrest : more = rest := by
    have hmore := ht.fills.fill_append_succ more 0
    rw [h, hu.fills.fill_append_succ rest 0, fill_zero, fill_zero] at hmore
    exact (Prod.mk.inj hmore).1.symm
  subst hrest
  exact ⟨listing_injective ht hu (List.append_cancel_right h), rfl⟩

/-- A tree may be put in the stead of another one with the same result, anywhere in the listing of
some trees. -/
lemma exists_listings_replace {sub other : Tree V} (hsub : sub.Sound) (hother : other.Sound)
    (heq : other.along result base = sub.along result base) {before rest : List (Symbol V)}
    {trees : List (Tree V)} (hsound : ∀ t ∈ trees, t.Sound)
    (h : listings trees = before ++ (sub.listing ++ rest)) :
    ∃ others : List (Tree V), (∀ t ∈ others, t.Sound) ∧ Alike result base others trees ∧
      listings others = before ++ (other.listing ++ rest) := by
  induction before generalizing trees with
  | nil =>
    cases trees with
    | nil =>
      rw [listings_nil, List.nil_append] at h
      exact absurd (List.append_eq_nil_iff.mp h.symm).1 sub.listing_ne_nil
    | cons t trees =>
      obtain ⟨ht, htrees⟩ := List.forall_mem_cons.mp hsound
      rw [listings_cons] at h
      obtain ⟨rfl, rfl⟩ := eq_of_listing_append_eq ht hsub h
      exact ⟨other :: trees, List.forall_mem_cons.mpr ⟨hother, htrees⟩,
        .cons heq (Alike.refl trees), listings_cons other trees⟩
  | cons s before ih =>
    obtain _ | ⟨⟨r, children⟩, trees⟩ := trees
    · rw [listings_nil] at h
      cases h
    rw [listings_cons, listing_node, List.cons_append, ← listings_append, List.cons_append,
      List.cons.injEq] at h
    obtain ⟨rfl, h⟩ := h
    obtain ⟨hroot, htrees⟩ := List.forall_mem_cons.mp hsound
    cases hroot with
    | node harity heach =>
      obtain ⟨others, hsound', halike, hlistings⟩ :=
        ih (List.forall_mem_append.mpr ⟨heach, htrees⟩) h
      -- the first of the new trees are the subtrees of the root, as before
      have hchildren := List.forall₂_take_append others children trees halike
      have hrest := List.forall₂_drop_append others children trees halike
      refine ⟨node r (others.take children.length) :: others.drop children.length, ?_,
        .cons (Alike.along_node_eq hchildren r) hrest, ?_⟩
      · refine List.forall_mem_cons.mpr ⟨.node ?_ fun t ht => hsound' t (List.mem_of_mem_take ht),
          fun t ht => hsound' t (List.mem_of_mem_drop ht)⟩
        rw [harity, hchildren.length_eq]
      · rw [listings_cons, listing_node, List.cons_append, ← listings_append,
          List.take_append_drop, hlistings]
        rfl

end Tree

namespace Program

open TreeEvolution.Tree

/-! ### Programs with the same outcome -/

/-- Parts with the same outcome on some inputs stand for each other in a program. -/
lemma evaluate_replace {before rest : List (Symbol V)} {sub other : Program V} {inputs : List V}
    (h : Fills (before ++ (sub.symbols ++ rest)) 1) (hsub : Fills sub.symbols 1)
    (hother : Fills other.symbols 1) (heq : other.evaluate inputs = sub.evaluate inputs) :
    evaluate ⟨before ++ (other.symbols ++ rest)⟩ inputs =
      evaluate ⟨before ++ (sub.symbols ++ rest)⟩ inputs := by
  obtain ⟨whole, hwhole, hlisting⟩ := fills_one_iff.mp h
  obtain ⟨part, hpart, hpart_eq⟩ := fills_one_iff.mp hsub
  obtain ⟨new, hnew, hnew_eq⟩ := fills_one_iff.mp hother
  have hvalue : new.along Symbol.apply inputs = part.along Symbol.apply inputs := by
    change new.value inputs = part.value inputs
    rw [← evaluate_listing hnew, ← evaluate_listing hpart, hnew_eq, hpart_eq]
    exact heq
  have hsplit : listings [whole] = before ++ (part.listing ++ rest) := by
    rw [listings_cons, listings_nil, List.append_nil, hlisting, hpart_eq]
  obtain ⟨others, hsound, halike, hothers⟩ := exists_listings_replace hpart hnew hvalue
    (List.forall_mem_singleton.mpr hwhole) hsplit
  cases halike with
  | cons hsame hnone =>
    cases hnone
    rw [listings_cons, listings_nil, List.append_nil, hnew_eq] at hothers
    rw [← hothers, ← hlisting, evaluate_listing (hsound _ List.mem_cons_self),
      evaluate_listing hwhole]
    exact hsame

/-- **Replacement is compositional.**  Take a well-formed program, a position in it, and some
inputs.  The listing has symbols before the position, those of the subtree there, and symbols after
them.  If a program has a value on the inputs, then it may be put in at the position just as well as
a constant with this value, which then stands alone between the symbols before and after: the
results have the same value, or fail in the same way.  Any two well-formed programs with the same
outcome on the inputs may be put in for each other.  And a well-formed program that has the outcome
of the subtree at the position may take the place of the subtree without a change to the outcome of
the whole. -/
theorem replacement_is_compositional {p : Program V} (hp : p.isWellFormed = .ok true)
    {position : Nat} (hposition : position < p.size) (inputs : List V) :
    ∃ (before rest : List (Symbol V)) (sub : Program V),
      (p.symbols = before ++ (sub.symbols ++ rest) ∧ before.length = position ∧
        p.subtree position = .ok sub) ∧
      (∀ (r : Program V) (value : V), r.evaluate inputs = .ok value → ∀ name, ∃ child other,
        p.replaceSubtree position r = .ok child ∧
          child.symbols = before ++ (r.symbols ++ rest) ∧
          p.replaceSubtree position ⟨[.constant name value]⟩ = .ok other ∧
          other.symbols = before ++ .constant name value :: rest ∧
          child.evaluate inputs = other.evaluate inputs) ∧
      (∀ r s : Program V, r.isWellFormed = .ok true → s.isWellFormed = .ok true →
        r.evaluate inputs = s.evaluate inputs → ∃ child other,
          p.replaceSubtree position r = .ok child ∧ p.replaceSubtree position s = .ok other ∧
            child.evaluate inputs = other.evaluate inputs) ∧
      ∀ r : Program V, r.isWellFormed = .ok true → r.evaluate inputs = sub.evaluate inputs →
        ∃ child, p.replaceSubtree position r = .ok child ∧
          child.evaluate inputs = p.evaluate inputs := by
  have hfills : Fills p.symbols 1 := fills_of_listsTrees hp
  obtain ⟨last, hlast⟩ := exists_subtreeEnd_eq_ok hfills hposition
  obtain ⟨before, rest, sub, rfl, rfl, -, hsub⟩ := exists_append_of_subtreeEnd hlast
  have hput : ∀ r : Program V, replaceSubtree ⟨before ++ (sub.symbols ++ rest)⟩ before.length r =
      .ok ⟨before ++ (r.symbols ++ rest)⟩ := replaceSubtree_append hsub before rest
  have hsame : ∀ r s : Program V, Fills r.symbols 1 → Fills s.symbols 1 →
      r.evaluate inputs = s.evaluate inputs →
      evaluate ⟨before ++ (r.symbols ++ rest)⟩ inputs =
        evaluate ⟨before ++ (s.symbols ++ rest)⟩ inputs :=
    fun r s hr hs heq => evaluate_replace (hfills.replace hsub hs) hs hr heq
  refine ⟨before, rest, sub, ⟨rfl, rfl, subtree_append hsub before rest⟩,
    fun r value hr name => ?_, fun r s hr hs heq => ?_, fun r hr heq => ?_⟩
  · have hvalue :=
      hsame r ⟨[.constant name value]⟩ (fills_of_evaluate_eq_ok hr) rfl (by rw [hr]; rfl)
    exact ⟨_, _, hput r, rfl, hput _, rfl, hvalue⟩
  · exact ⟨_, _, hput r, hput s, hsame r s (fills_of_listsTrees hr) (fills_of_listsTrees hs) heq⟩
  · exact ⟨_, hput r, hsame r sub (fills_of_listsTrees hr) hsub heq⟩

/-- The negation of an input, or the input. -/
def tautology : Program Bool :=
  ⟨[Boolean.disjunction, Boolean.negation, .input "x" 0, .input "x" 0]⟩

/-- On a true and a false input, the second of them may take the place of the negation. -/
theorem tautology_takes_input :
    ∃ child, tautology.replaceSubtree 1 ⟨[.input "y" 1]⟩ = .ok child ∧
      child.evaluate [true, false] = .ok true := by
  have hwell : tautology.isWellFormed = .ok true := rfl
  have hposition : 1 < tautology.size := by decide
  obtain ⟨-, -, sub, ⟨-, -, hsub⟩, -, -, hreplace⟩ :=
    replacement_is_compositional hwell hposition [true, false]
  obtain ⟨child, hchild, hvalue⟩ := hreplace ⟨[.input "y" 1]⟩ rfl (by cases hsub; rfl)
  exact ⟨child, hchild, hvalue⟩

end Program

end TreeEvolution
