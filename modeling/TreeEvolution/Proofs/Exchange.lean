import Mathlib.Data.List.Perm.Basic
import TreeEvolution.Proofs.Variation
import TreeEvolution.Symbol.Boolean

/-!
# Exchange of subtrees

Crossover cuts a random subtree out of each of two programs and puts each of them where the other
one was.  `Program.exchange` is this operation at given positions.  What it makes of two listings of
trees is collected in `Program.Exchanged`: each child is the listing of a tree again and has the
subtree of the other parent at the position of its own, and no symbol is lost or doubled.  Since the
subtrees that were put in begin where the others began, exchanging them at the same positions once
more brings back the parents.

`crossover_exchanges` says that crossover without limits is such an exchange, whatever the words of
the source are.
-/

namespace TreeEvolution

namespace Program

open Places

variable {V : Type} {a b left right : Program V} {here there : Nat}

/-- What the exchange of subtrees makes of two listings of trees. -/
structure Exchanged (a b left right : Program V) (here there : Nat) : Prop where
  /-- The positions are those of symbols. -/
  inside : here < a.size ∧ there < b.size
  /-- The children are what the exchange at the positions comes to. -/
  exchanged : a.exchange b here there = .ok (left, right)
  /-- Each child has the subtree of the other parent at the position of its own. -/
  grafted : left.subtree here = b.subtree there ∧ right.subtree there = a.subtree here
  /-- The symbols of the children are those of the parents, in another order. -/
  perm : (left.symbols ++ right.symbols).Perm (a.symbols ++ b.symbols)
  /-- Each child is the listing of a tree. -/
  fills : Fills left.symbols 1 ∧ Fills right.symbols 1
  /-- The test for well-formedness says so if its numbers reach as far. -/
  wellFormed : a.size + b.size ≤ UInt64.size →
    left.isWellFormed = .ok true ∧ right.isWellFormed = .ok true
  /-- The exchange at the same positions of the children brings back the parents. -/
  undone : left.exchange right here there = .ok (a, b)

/-! ### The exchange of two parts -/

/-- Parts that fill one place are exchanged as they stand. -/
lemma exchange_append {fromA fromB : Program V} (hA : Fills fromA.symbols 1)
    (hB : Fills fromB.symbols 1) (before rest before' rest' : List (Symbol V)) :
    exchange ⟨before ++ (fromA.symbols ++ rest)⟩ ⟨before' ++ (fromB.symbols ++ rest')⟩
        before.length before'.length =
      .ok (⟨before ++ (fromB.symbols ++ rest)⟩, ⟨before' ++ (fromA.symbols ++ rest')⟩) := by
  exact exchange_eq_ok_iff.mpr ⟨fromA, fromB, subtree_append hA before rest,
    subtree_append hB before' rest', replaceSubtree_append hA before rest fromB,
    replaceSubtree_append hB before' rest' fromA⟩

/-- Two lists keep their members when a part of the one is exchanged for a part of the other. -/
lemma perm_exchange {α : Type} (before part rest before' part' rest' : List α) :
    ((before ++ (part' ++ rest)) ++ (before' ++ (part ++ rest'))).Perm
      ((before ++ (part ++ rest)) ++ (before' ++ (part' ++ rest'))) := by
  classical
  rw [List.perm_iff_count]
  intro x
  simp only [List.count_append]
  omega

/-- Neither of two programs is longer than two others with the same symbols taken together. -/
lemma le_size_of_perm (h : (left.symbols ++ right.symbols).Perm (a.symbols ++ b.symbols)) :
    left.size ≤ a.size + b.size ∧ right.size ≤ a.size + b.size := by
  have hsize : left.size + right.size = a.size + b.size := by
    simpa only [size, List.length_append] using h.length_eq
  exact ⟨hsize ▸ Nat.le_add_right _ _, hsize ▸ Nat.le_add_left _ _⟩

/-- Programs whose subtrees can be exchanged consist of the subtrees and of what stands around
them. -/
lemma exists_append_of_exchange (h : a.exchange b here there = .ok (left, right)) :
    ∃ before rest before' rest', ∃ fromA fromB : Program V,
      (before.length = here ∧ before'.length = there) ∧
        (Fills fromA.symbols 1 ∧ Fills fromB.symbols 1) ∧
        (a = ⟨before ++ (fromA.symbols ++ rest)⟩ ∧ b = ⟨before' ++ (fromB.symbols ++ rest')⟩) ∧
        left = ⟨before ++ (fromB.symbols ++ rest)⟩ ∧
        right = ⟨before' ++ (fromA.symbols ++ rest')⟩ := by
  obtain ⟨fromA, fromB, hfromA, hfromB, -, -⟩ := exchange_eq_ok_iff.mp h
  obtain ⟨before, rest, rfl, ha, hA⟩ := exists_append_of_subtree hfromA
  obtain ⟨before', rest', rfl, hb, hB⟩ := exists_append_of_subtree hfromB
  obtain ⟨symbols⟩ := a
  obtain ⟨symbols'⟩ := b
  dsimp only at ha hb
  subst ha hb
  rw [exchange_append hA hB] at h
  cases h
  exact ⟨before, rest, before', rest', fromA, fromB, ⟨rfl, rfl⟩, ⟨hA, hB⟩, ⟨rfl, rfl⟩, rfl, rfl⟩

/-- The exchange of subtrees loses and doubles nothing, and it can be undone. -/
lemma exchanged_of_eq_ok (ha : Fills a.symbols 1) (hb : Fills b.symbols 1)
    (h : a.exchange b here there = .ok (left, right)) : Exchanged a b left right here there := by
  obtain ⟨before, rest, before', rest', fromA, fromB, ⟨rfl, rfl⟩, ⟨hA, hB⟩, ⟨rfl, rfl⟩, rfl, rfl⟩ :=
    exists_append_of_exchange h
  -- The part that is put in begins where the other one began, so that it is found there again.
  have hleft : Fills (before ++ (fromB.symbols ++ rest)) 1 := ha.replace hA hB
  have hright : Fills (before' ++ (fromA.symbols ++ rest')) 1 := hb.replace hB hA
  have hperm := perm_exchange before fromA.symbols rest before' fromB.symbols rest'
  refine ⟨⟨?_, ?_⟩, h, ⟨?_, ?_⟩, hperm, ⟨hleft, hright⟩, fun hsize => ?_,
    exchange_append hB hA before rest before' rest'⟩
  · have hpos : 0 < fromA.symbols.length := hA.length_pos
    rw [size, List.length_append, List.length_append]
    omega
  · have hpos : 0 < fromB.symbols.length := hB.length_pos
    rw [size, List.length_append, List.length_append]
    omega
  · rw [subtree_append hB, subtree_append hB]
  · rw [subtree_append hA, subtree_append hA]
  · obtain ⟨hleftSize, hrightSize⟩ := le_size_of_perm hperm
    exact ⟨isWellFormed_of_fills hleft (Nat.le_trans hleftSize hsize),
      isWellFormed_of_fills hright (Nat.le_trans hrightSize hsize)⟩

end Program

namespace Variation

open Places

variable {V σ : Type} [WordSource σ] {a b : Individual V}

/-! ### Crossover without limits -/

/-- Individuals that are more than leaves come out of crossover with two subtrees exchanged. -/
lemma crossover_exchange_yields (hsize : ¬ (a.size < 2 ∨ b.size < 2)) :
    Draw.Yields (Crossover.vary ⟨[]⟩ [a, b] : Draw σ (List (Individual V))) fun children =>
      ∃ here there left right, a.code.exchange b.code here there = .ok (left, right) ∧
        children = [⟨left, .pending⟩, ⟨right, .pending⟩] := by
  refine (Crossover.vary_yields ⟨[]⟩ a b).mono fun children hchildren => ?_
  rcases hchildren with ⟨hsmall, -⟩ | ⟨-, here, there, left, right, hexchange, hkept⟩
  · exact absurd hsmall hsize
  · cases hkept
    exact ⟨here, there, left, right, hexchange, rfl⟩

/-- Two listings of trees can always be crossed. -/
lemma crossover_exchange_failsOnly (ha : Fills a.code.symbols 1) (hb : Fills b.code.symbols 1)
    (Q : Failure → Prop) :
    Draw.FailsOnly (Crossover.vary ⟨[]⟩ [a, b] : Draw σ (List (Individual V))) Q :=
  Crossover.vary_failsOnly ⟨[]⟩ ha hb fun _ _ _ _ _ => Draw.FailsOnly.settled ⟨_, rfl⟩

/-- **Crossover exchanges subtrees.**  Two individuals with well-formed programs, one of them a
single leaf, come out of crossover without limits as they are, scores included, and no word is
drawn.  From all others there always come two children without a score, which are the parents with
the subtrees at two positions exchanged. -/
theorem crossover_exchanges (ha : a.code.isWellFormed = .ok true)
    (hb : b.code.isWellFormed = .ok true) (source : σ) :
    (a.size < 2 ∨ b.size < 2 →
      (Crossover.vary ⟨[]⟩ [a, b]).outcome source = (.ok [a, b], source)) ∧
    (¬ (a.size < 2 ∨ b.size < 2) →
      ∃ here there left right rest,
        (Crossover.vary ⟨[]⟩ [a, b]).outcome source =
          (.ok [⟨left, .pending⟩, ⟨right, .pending⟩], rest) ∧
        Program.Exchanged a.code b.code left right here there) := by
  have hfillsA : Fills a.code.symbols 1 := Program.fills_of_listsTrees ha
  have hfillsB : Fills b.code.symbols 1 := Program.fills_of_listsTrees hb
  constructor
  · intro hsize
    have hsmall : (decide (a.size < 2) || decide (b.size < 2)) = true := by
      rw [Bool.or_eq_true, decide_eq_true_iff, decide_eq_true_iff]
      exact hsize
    rw [Crossover.vary, if_pos hsmall, Draw.outcome_pure]
  · intro hsize
    obtain ⟨children, rest, houtcome⟩ :=
      (crossover_exchange_failsOnly hfillsA hfillsB fun _ => False).exists_outcome_eq_ok source
    obtain ⟨here, there, left, right, hexchange, rfl⟩ :=
      crossover_exchange_yields hsize source children rest houtcome
    exact ⟨here, there, left, right, rest, houtcome,
      Program.exchanged_of_eq_ok hfillsA hfillsB hexchange⟩

/-- A conjunction of two inputs. -/
def conjunctive : Individual Bool :=
  ⟨⟨[Boolean.conjunction, .input "x" 0, .input "y" 1]⟩, ⟨0.75, true⟩⟩

/-- The negation of an exclusive disjunction. -/
def negative : Individual Bool :=
  ⟨⟨[Boolean.negation, Boolean.exclusion, .input "x" 0, .input "y" 1]⟩, ⟨0.5, true⟩⟩

/-- A conjunction and a negation exchange subtrees when the words zero and one half are drawn. -/
theorem conjunctive_crosses_negative :
    conjunctive.code.isWellFormed = .ok true ∧ negative.code.isWellFormed = .ok true ∧
      ∃ here there left right rest,
        (Crossover.vary ⟨[]⟩ [conjunctive, negative]).outcome
            (⟨[0, 0x8000000000000000], 0⟩ : ListedWords) =
          (.ok [⟨left, .pending⟩, ⟨right, .pending⟩], rest) ∧
        Program.Exchanged conjunctive.code negative.code left right here there :=
  ⟨rfl, rfl, (crossover_exchanges rfl rfl _).2 (by decide)⟩

end Variation

end TreeEvolution
