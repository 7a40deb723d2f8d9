import Mathlib.Algebra.BigOperators.Intervals
import Mathlib.Algebra.BigOperators.Ring.Finset
import Mathlib.Algebra.Order.BigOperators.Group.Finset
import TreeEvolution.Proofs.TreeShape

/-!
# The growth of random trees

A sampler lists a tree by taking one place after the other from its stack.  Here the single turns of
this loop can be seen: `TreeSampler.turn` puts one symbol at the place that comes next, and
`TreeSampler.turns` repeats it.

The number of places to come may rise with a turn, so it does not say when the loop ends.  What goes
down with every turn is the room at these places, `TreeSampler.room`: the number of symbols that
there would be if all functions were as wide as allowed and all branches reached the height.  The
symbols that have been listed and the room that is left never come to more than the room at the
start (`Advances`).  This bounds both the number of turns and the length of the listing, whatever
the words of the source are (`growth_comes_to_an_end`).
-/

namespace TreeEvolution

namespace TreeSampler

variable {V σ : Type} {t : TreeSampler V} {grows : Bool} {height : Nat}

/-! ### Room for symbols -/

/-- The number of nodes of a tree with some levels below its root, in which every node above the
last level has the same number of arguments. -/
def nodes (arity : Nat) : Nat → Nat
  | 0 => 1
  | levels + 1 => 1 + arity * nodes arity levels

/-- The levels of the tree have as many nodes as the powers of the number of arguments say. -/
lemma nodes_eq_sum (arity levels : Nat) :
    nodes arity levels = ∑ i ∈ Finset.range (levels + 1), arity ^ i := by
  induction levels with
  | zero => rw [nodes, Finset.sum_range_one, pow_zero]
  | succ levels ih =>
    rw [nodes, ih, Finset.mul_sum, Finset.sum_range_succ' _ (levels + 1), pow_zero, Nat.add_comm]
    simp only [pow_succ']

/-- There is a root. -/
lemma nodes_pos (arity levels : Nat) : 0 < nodes arity levels := by
  cases levels with
  | zero => exact Nat.one_pos
  | succ levels => exact Nat.add_pos_left Nat.one_pos _

/-- The room at the places to come: the number of nodes below them, if all functions are as wide as
allowed and all branches reach the height. -/
def room (arity height : Nat) (pending : List Nat) : Nat :=
  (pending.map fun depth => nodes arity (height - depth)).sum

lemma room_cons (arity height depth : Nat) (pending : List Nat) :
    room arity height (depth :: pending) =
      nodes arity (height - depth) + room arity height pending := by
  rw [room, List.map_cons, List.sum_cons, room]

/-- There is some room as long as there is a place to come. -/
lemma room_eq_zero_iff {arity height : Nat} {pending : List Nat} :
    room arity height pending = 0 ↔ pending = [] := by
  cases pending with
  | nil => exact iff_of_true rfl rfl
  | cons depth pending =>
    have hpos := nodes_pos arity (height - depth)
    rw [room_cons]
    exact iff_of_false (by omega) (List.cons_ne_nil _ _)

/-- A place has room for a symbol and all that is below the symbol, if only functions that are not
too wide are put above the height, and leaves from there on. -/
lemma succ_room_replicate_le {arity height depth count : Nat} (pending : List Nat)
    (hcount : count = 0 ∨ depth < height ∧ count ≤ arity) :
    room arity height (List.replicate count (depth + 1) ++ pending) + 1 ≤
      room arity height (depth :: pending) := by
  rcases hcount with rfl | ⟨hdepth, hcount⟩
  · have hpos := nodes_pos arity (height - depth)
    rw [List.replicate_zero, List.nil_append, room_cons]
    omega
  obtain ⟨levels, hlevels⟩ : ∃ levels, height = depth + 1 + levels :=
    Nat.exists_eq_add_of_lt hdepth |>.imp fun levels h => by omega
  have habove : height - depth = levels + 1 := by omega
  have hbelow : height - (depth + 1) = levels := by omega
  have hscaled : count * nodes arity levels ≤ arity * nodes arity levels :=
    Nat.mul_le_mul_right _ hcount
  have hsplit : room arity height (List.replicate count (depth + 1) ++ pending) =
      count * nodes arity levels + room arity height pending := by
    rw [room, List.map_append, List.sum_append, List.map_replicate, List.sum_replicate_nat, hbelow,
      room]
  rw [hsplit, room_cons, habove, nodes]
  omega

/-! ### Turns of the loop -/

/-- A listing that is under way. -/
structure Sprout (V : Type) where
  /-- The symbols that have been listed. -/
  listed : List (Symbol V)
  /-- The depths of the places to come. -/
  pending : List Nat

/-- The listing with nothing but a place for the root. -/
def Sprout.seed : Sprout V := ⟨[], [0]⟩

/-- A listing has advanced, where functions have at most some number of arguments. -/
structure Advances (arity height : Nat) (before after : Sprout V) : Prop where
  /-- No more symbols have been listed than there was room for. -/
  within : after.listed.length + room arity height after.pending ≤
    before.listed.length + room arity height before.pending
  /-- No place has been left out. -/
  beyond : before.listed.length + before.pending.length ≤
    after.listed.length + after.pending.length

lemma Advances.refl (arity height : Nat) (s : Sprout V) : Advances arity height s s :=
  ⟨Nat.le_refl _, Nat.le_refl _⟩

lemma Advances.trans {arity height : Nat} {before between after : Sprout V}
    (h : Advances arity height before between) (h' : Advances arity height between after) :
    Advances arity height before after :=
  ⟨Nat.le_trans h'.within h.within, Nat.le_trans h.beyond h'.beyond⟩

variable [WordSource σ]

/-- There are functions where a branch may go on. -/
lemma functions_ne_nil {depth : Nat}
    (h : ¬ (t.vocabulary.functions.isEmpty || decide (height ≤ depth)) = true) :
    t.vocabulary.functions ≠ [] :=
  (goes_on_iff.mp h).1

/-- The symbol that is put at some depth, and the number of places that it opens below. -/
def choice (t : TreeSampler V) (grows : Bool) (height depth : Nat) : Draw σ (Symbol V × Nat) :=
  if h : t.vocabulary.functions.isEmpty || height ≤ depth then do
    let s ← t.leaf
    pure (s, 0)
  else do
    if ← t.stops grows depth then
      let s ← t.leaf
      pure (s, 0)
    else
      let s ← Random.element t.vocabulary.functions (functions_ne_nil h)
      Draw.require (Extent.fits s.val.arity) .beyondMemory
      pure (s.val, s.val.arity)

/-- One turn of the loop: a symbol is put at the place that comes next, if there is one. -/
def turn (t : TreeSampler V) (grows : Bool) (height : Nat) : Sprout V → Draw σ (Sprout V)
  | ⟨listed, []⟩ => pure ⟨listed, []⟩
  | ⟨listed, depth :: pending⟩ => do
    let put ← t.choice grows height depth
    pure ⟨listed ++ [put.1], List.replicate put.2 (depth + 1) ++ pending⟩

/-- Some turns of the loop. -/
def turns (t : TreeSampler V) (grows : Bool) (height : Nat) : Nat → Sprout V → Draw σ (Sprout V)
  | 0, s => pure s
  | n + 1, s => do
    let next ← t.turn grows height s
    t.turns grows height n next

/-- All turns of the loop. -/
def finish (t : TreeSampler V) (grows : Bool) (height : Nat) (s : Sprout V) :
    Draw σ (Sprout V) := do
  let rest ← t.expand grows height s.pending
  pure ⟨s.listed ++ rest, []⟩

/-- The sampler lists one symbol after the other. -/
lemma expand_cons (depth : Nat) (pending : List Nat) :
    (t.expand grows height (depth :: pending) : Draw σ (List (Symbol V))) = (do
      let put ← t.choice grows height depth
      let rest ← t.expand grows height (List.replicate put.2 (depth + 1) ++ pending)
      pure (put.1 :: rest)) := by
  rw [expand, choice]
  split
  · simp only [bind_assoc, pure_bind, List.replicate_zero, List.nil_append]
  · rw [bind_assoc]
    congr 1
    funext stops
    cases stops with
    | true => simp only [if_true, bind_assoc, pure_bind, List.replicate_zero, List.nil_append]
    | false => simp only [Bool.false_eq_true, if_false, bind_assoc, pure_bind]

/-- The loop is a turn and then the loop again. -/
lemma finish_eq_turn_bind (s : Sprout V) :
    (t.finish grows height s : Draw σ (Sprout V)) =
      (t.turn grows height s >>= t.finish grows height) := by
  obtain ⟨listed, pending⟩ := s
  cases pending with
  | nil => rw [turn, pure_bind]
  | cons depth pending =>
    simp only [finish, turn, expand_cons, bind_assoc, pure_bind, List.append_assoc,
      List.singleton_append]

/-! ### What a turn does -/

/-- Places are opened only above the height, and not more than the widest function has. -/
lemma choice_yields {arity : Nat} (harity : ∀ s ∈ t.vocabulary.functions, s.arity ≤ arity)
    (depth : Nat) :
    Draw.Yields (t.choice grows height depth : Draw σ (Symbol V × Nat)) fun put =>
      put.2 = 0 ∨ depth < height ∧ put.2 ≤ arity := by
  have hleaf : Draw.Yields (do let s ← t.leaf; pure (s, 0) : Draw σ (Symbol V × Nat)) fun put =>
      put.2 = 0 ∨ depth < height ∧ put.2 ≤ arity :=
    Draw.Yields.bind_any fun _ => Draw.Yields.pure (Or.inl rfl)
  unfold choice
  split
  · exact hleaf
  · rename_i hends
    have habove : depth < height := (goes_on_iff.mp hends).2
    refine Draw.Yields.bind_any fun stops => ?_
    cases stops with
    | true => exact hleaf
    | false =>
      exact Draw.Yields.bind_any fun s => Draw.Yields.bind_any fun _ =>
        Draw.Yields.pure (Or.inr ⟨habove, harity s.val s.property⟩)

/-- A turn lists one symbol, and the listing advances. -/
lemma turn_yields {arity : Nat} (harity : ∀ s ∈ t.vocabulary.functions, s.arity ≤ arity)
    (s : Sprout V) :
    Draw.Yields (t.turn grows height s : Draw σ (Sprout V)) fun next =>
      Advances arity height s next ∧
        (s.pending ≠ [] → next.listed.length = s.listed.length + 1) := by
  obtain ⟨listed, pending⟩ := s
  cases pending with
  | nil => exact Draw.Yields.pure ⟨Advances.refl _ _ _, fun h => absurd rfl h⟩
  | cons depth pending =>
    refine (choice_yields harity depth).bind fun put hput => Draw.Yields.pure ?_
    have hlisted : (listed ++ [put.1]).length = listed.length + 1 := by
      rw [List.length_append, List.length_singleton]
    have hroom : room arity height (List.replicate put.2 (depth + 1) ++ pending) + 1 ≤
        room arity height (depth :: pending) := succ_room_replicate_le pending hput
    refine ⟨⟨?_, ?_⟩, fun _ => hlisted⟩
    · simp only [hlisted]
      omega
    · simp only [hlisted, List.length_append, List.length_replicate, List.length_cons]
      omega

/-- Turns let the listing advance. -/
lemma turns_yields {arity : Nat} (harity : ∀ s ∈ t.vocabulary.functions, s.arity ≤ arity)
    (n : Nat) (s : Sprout V) :
    Draw.Yields (t.turns grows height n s : Draw σ (Sprout V)) (Advances arity height s) := by
  induction n generalizing s with
  | zero => exact Draw.Yields.pure (Advances.refl _ _ _)
  | succ n ih =>
    exact (turn_yields harity s).bind fun next hnext =>
      (ih next).mono fun _ hafter => hnext.1.trans hafter

/-- There is no more to the loop than as many turns as there is room for symbols. -/
lemma turns_eq_finish {arity : Nat} (harity : ∀ s ∈ t.vocabulary.functions, s.arity ≤ arity)
    {n : Nat} {s : Sprout V} (hn : room arity height s.pending ≤ n) :
    (t.turns grows height n s : Draw σ (Sprout V)) = t.finish grows height s := by
  induction n generalizing s with
  | zero =>
    obtain ⟨listed, pending⟩ := s
    obtain rfl : pending = [] := room_eq_zero_iff.mp (Nat.le_zero.mp hn)
    rw [turns, finish, expand, pure_bind, List.append_nil]
  | succ n ih =>
    obtain ⟨listed, pending⟩ := s
    cases pending with
    | nil =>
      rw [turns, turn, pure_bind]
      exact ih (Nat.zero_le n)
    | cons depth pending =>
      rw [turns, finish_eq_turn_bind]
      refine (turn_yields harity _).bind_congr fun next hnext => ih ?_
      have hwithin := hnext.1.within
      have hlisted := hnext.2 (List.cons_ne_nil _ _)
      omega

/-! ### Programs of the sampler -/

/-- A place for the root has room for a whole tree. -/
lemma room_seed (arity height : Nat) :
    room arity height (Sprout.seed : Sprout V).pending = nodes arity height := by
  rw [Sprout.seed, room_cons, Nat.sub_zero]
  rfl

/-- The sampler goes through all turns of the loop, after it has been settled how. -/
lemma sample_bind_eq_finish (t : TreeSampler V) :
    (do let p ← t.sample; pure ⟨p.symbols, []⟩ : Draw σ (Sprout V)) = (do
      let settled ← t.plan
      t.finish settled.1 settled.2 .seed) := by
  simp only [sample_eq_plan, finish, Sprout.seed, bind_assoc, pure_bind, List.nil_append]

/-- A program has room in the tree, and there is a symbol in it. -/
lemma size_of_advances {arity height : Nat} {p : Program V}
    (h : Advances arity height .seed ⟨p.symbols, []⟩) :
    1 ≤ p.size ∧ p.size ≤ nodes arity height := by
  have hwithin : p.size ≤ 0 + room arity height (Sprout.seed : Sprout V).pending := h.within
  rw [room_seed, Nat.zero_add] at hwithin
  exact ⟨h.beyond, hwithin⟩

/-- **Growth comes to an end.**  Take a sampler whose functions have at most `arity` arguments.
From every source it settles first a height between its least and its greatest one.  The loop that
lists the tree then has no place left after at most as many turns as a tree of this height with
`arity` subtrees at each node has nodes, and it has come to what the sampler comes to.  At no time
has it listed more symbols than this, and the program that the sampler returns has no more; it has
a single one if there are no functions.  If one can draw from the vocabulary, the sampler returns a
program; the exception is a vocabulary with a function whose arguments no list can hold, where the
loop may also be broken off for lack of memory. -/
theorem growth_comes_to_an_end (t : TreeSampler V) {arity : Nat}
    (harity : ∀ s ∈ t.vocabulary.functions, s.arity ≤ arity) (source : σ) :
    ∃ grows height between,
      (t.plan : Draw σ (Bool × Nat)).outcome source = (.ok (grows, height), between) ∧
      t.Allows grows height ∧
      (∀ n, ∑ i ∈ Finset.range (height + 1), arity ^ i ≤ n →
        (t.turns grows height n .seed : Draw σ (Sprout V)).outcome between =
          (do let p ← t.sample; pure ⟨p.symbols, []⟩ : Draw σ (Sprout V)).outcome source) ∧
      (∀ (n : Nat) (s : Sprout V) (rest : σ),
        (t.turns grows height n .seed).outcome between = (.ok s, rest) →
          s.listed.length ≤ ∑ i ∈ Finset.range (height + 1), arity ^ i) ∧
      (∀ (p : Program V) (rest : σ), t.sample.outcome source = (.ok p, rest) →
        p.size ≤ ∑ i ∈ Finset.range (height + 1), arity ^ i ∧
        (t.vocabulary.functions = [] → p.size = 1)) ∧
      (t.vocabulary.Drawable →
        (∃ p rest, (t.sample : Draw σ (Program V)).outcome source = (.ok p, rest)) ∨
        t.vocabulary.Overflows ∧ ∃ rest, (t.sample : Draw σ (Program V)).outcome source =
          (.error (.fault .beyondMemory), rest)) := by
  obtain ⟨grows, height, between, hplan, hallows⟩ := t.exists_plan source
  have hall : ∀ {width n : Nat}, (∀ s ∈ t.vocabulary.functions, s.arity ≤ width) →
      nodes width height ≤ n →
      (t.turns grows height n .seed : Draw σ (Sprout V)).outcome between =
        (do let p ← t.sample; pure ⟨p.symbols, []⟩ : Draw σ (Sprout V)).outcome source := by
    intro width n hwidth hn
    rw [turns_eq_finish hwidth (by rwa [room_seed]), sample_bind_eq_finish, Draw.outcome_bind,
      hplan]
  have hsize : ∀ {width : Nat} {p : Program V} {rest : σ},
      (∀ s ∈ t.vocabulary.functions, s.arity ≤ width) →
      t.sample.outcome source = (.ok p, rest) → 1 ≤ p.size ∧ p.size ≤ nodes width height := by
    intro width p rest hwidth hp
    have hdone := hall hwidth (Nat.le_refl _)
    rw [Draw.outcome_bind, hp] at hdone
    exact size_of_advances (turns_yields hwidth _ _ _ _ _ hdone)
  simp only [← nodes_eq_sum]
  refine ⟨grows, height, between, hplan, hallows, fun n hn => hall harity hn,
    fun n s rest hs => ?_, fun p rest hp => ⟨(hsize harity hp).2, fun hnone => ?_⟩,
    fun hdrawable => ?_⟩
  · have hwithin := (turns_yields harity n _ between s rest hs).within
    rw [room_seed] at hwithin
    exact Nat.le_trans (Nat.le_add_right _ _) (Nat.le_trans hwithin (Nat.zero_add _).le)
  · -- without functions there is only room for the root
    have hzero : ∀ s ∈ t.vocabulary.functions, s.arity ≤ 0 := by
      rw [hnone]
      exact List.forall_mem_nil _
    have hroot : nodes 0 height = 1 := by
      cases height with
      | zero => rfl
      | succ levels => rw [nodes, Nat.zero_mul]
    obtain ⟨hpos, hle⟩ := hsize hzero hp
    exact Nat.le_antisymm (hroot ▸ hle) hpos
  · have hfails : Draw.FailsOnly (t.sample : Draw σ (Program V)) fun f =>
        t.vocabulary.Overflows ∧ f = .fault .beyondMemory :=
      sample_failsOnly_of_drawable hdrawable fun hwide => ⟨hwide, rfl⟩
    rcases hsample : (t.sample : Draw σ (Program V)).outcome source with ⟨f | p, rest⟩
    · obtain ⟨hwide, rfl⟩ := hfails source f rest hsample
      exact Or.inr ⟨hwide, rest, rfl⟩
    · exact Or.inl ⟨p, rest, rfl⟩

/-- From some words the sampler whose trees are three levels high at most, with two subtrees at a
node at most, draws a program of fifteen symbols at most. -/
theorem growingSampler_lists_at_most_fifteen :
    ∃ (p : Program Bool) (rest : ListedWords),
      growingSampler.sample.outcome (⟨[0x8000000000000000, 7], 0⟩ : ListedWords) = (.ok p, rest) ∧
      p.size ≤ 15 := by
  obtain ⟨grows, height, between, -, hallows, -, -, hsize, hends⟩ :=
    growth_comes_to_an_end growingSampler
      (by decide : ∀ s ∈ growingSampler.vocabulary.functions, s.arity ≤ 2)
      (⟨[0x8000000000000000, 7], 0⟩ : ListedWords)
  rcases hends growingSampler_reliable.drawable with ⟨p, rest, hp⟩ | ⟨hwide, -⟩
  · have hheight : Finset.range (height + 1) ⊆ Finset.range 4 :=
      Finset.range_subset_range.mpr (Nat.succ_le_succ hallows.le_greatest)
    exact ⟨p, rest, hp, (hsize p rest hp).1.trans (Finset.sum_le_sum_of_subset hheight)⟩
  · exact absurd hwide growingSampler_reliable.not_overflows

end TreeSampler

end TreeEvolution
