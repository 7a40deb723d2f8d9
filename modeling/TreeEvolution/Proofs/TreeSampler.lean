import TreeEvolution.Proofs.Program.Places
import TreeEvolution.Proofs.Vocabulary
import TreeEvolution.TreeSampler

/-!
# Random trees fill their places

Whatever words a sampler draws, it lists as many subtrees as there are places to come, out of
symbols that its vocabulary supplies.  The induction follows the places: a leaf takes one of them
away, and a function replaces it by as many as it has arguments.

The same induction shows that no symbol lies below the height (`sample_depth_yields`): a function is
only put at a place above it.

Before a tree is listed it is settled how its branches end and how high it may be
(`TreeSampler.plan`).
-/

namespace TreeEvolution

open Places

namespace Program

variable {V : Type}

/-- The listing of one tree, made of symbols that a vocabulary supplies. -/
structure Supplied (v : Vocabulary V) (p : Program V) : Prop where
  /-- The listing fills one place. -/
  fills : Fills p.symbols 1
  /-- The vocabulary supplies the symbols. -/
  supplies : ∀ s ∈ p.symbols, v.Supplies s

end Program

namespace TreeSampler

variable {V σ : Type} {inputs : Nat}

/-- A sampler has the properties it was built with. -/
lemma of_eq_ok {growth : Growth} {v : Vocabulary V} {least greatest : Nat} {t : TreeSampler V}
    (h : of growth v least greatest = .ok t) :
    t.growth = growth ∧ t.vocabulary = v ∧ t.least = least ∧ t.greatest = greatest := by
  unfold of at h
  split at h
  · split at h
    · cases h
    · cases h
      exact ⟨rfl, rfl, rfl, rfl⟩
  · cases h

/-- There is a sampler exactly if there are heights and leaves to choose from. -/
lemma exists_of_eq_ok_iff {growth : Growth} {v : Vocabulary V} {least greatest : Nat} :
    (∃ t, of growth v least greatest = .ok t) ↔ least ≤ greatest ∧ v.terminals ≠ [] := by
  constructor
  · rintro ⟨t, ht⟩
    obtain ⟨-, rfl, rfl, rfl⟩ := of_eq_ok ht
    exact ⟨t.least_le_greatest, t.terminals_ne_nil⟩
  · rintro ⟨hheights, hterminals⟩
    unfold of
    rw [dif_pos hheights]
    split
    · exact absurd ‹_› hterminals
    · exact ⟨_, rfl⟩

variable [WordSource σ]

/-- A branch may go on where there are functions and the height has not been reached. -/
lemma goes_on_iff {t : TreeSampler V} {height depth : Nat} :
    ¬ (t.vocabulary.functions.isEmpty || decide (height ≤ depth)) = true ↔
      t.vocabulary.functions ≠ [] ∧ depth < height := by
  simp only [Bool.or_eq_true, List.isEmpty_iff, decide_eq_true_iff, not_or, Nat.not_le, ne_eq]

/-- A random leaf comes from a terminal. -/
lemma leaf_yields (t : TreeSampler V) :
    Draw.Yields (t.leaf : Draw σ (Symbol V))
      fun s => ∃ terminal ∈ t.vocabulary.terminals, s.Realises terminal :=
  Draw.Yields.bind_any fun terminal =>
    (terminal.val.realise_yields).bind fun _ hrealised =>
      Draw.Yields.pure ⟨terminal.val, terminal.property, hrealised⟩

/-- The symbols that may be listed for some places. -/
def Lists (t : TreeSampler V) (places : Nat) (symbols : List (Symbol V)) : Prop :=
  Fills symbols places ∧ ∀ s ∈ symbols, t.vocabulary.Supplies s

/-- A random leaf may be put in front. -/
lemma leaf_bind_yields {t : TreeSampler V} (hv : t.vocabulary.Proper inputs) {places : Nat}
    {draw : Draw σ (List (Symbol V))} (h : draw.Yields (t.Lists places)) :
    Draw.Yields (do let s ← t.leaf; let rest ← draw; pure (s :: rest) : Draw σ (List (Symbol V)))
      (t.Lists (places + 1)) := by
  refine t.leaf_yields.bind fun s hs => h.bind fun rest hrest => Draw.Yields.pure ?_
  obtain ⟨terminal, hmem, hrealises⟩ := hs
  have harity : s.arity = 0 := hrealises.arity_eq.trans (hv.arity_of_terminal terminal hmem)
  constructor
  · refine Fills.cons ?_
    rw [harity]
    exact hrest.1
  · exact List.forall_mem_cons.mpr ⟨.leaf hmem hrealises, hrest.2⟩

/-- The subtrees that a sampler lists fill the places to come. -/
lemma expand_yields {t : TreeSampler V} (hv : t.vocabulary.Proper inputs) (grows : Bool)
    (height : Nat) (pending : List Nat) :
    Draw.Yields (t.expand grows height pending : Draw σ (List (Symbol V)))
      (t.Lists pending.length) := by
  induction pending using expand.induct t height with
  | case1 =>
    rw [expand]
    exact Draw.Yields.pure ⟨Fills.nil, fun s hs => by cases hs⟩
  | case2 depth pending hends ih =>
    rw [expand, dif_pos hends]
    exact leaf_bind_yields hv ih
  | case3 depth pending hends ih ihbelow =>
    rw [expand, dif_neg hends]
    refine Draw.Yields.bind_any fun stops => ?_
    cases stops with
    | true => exact leaf_bind_yields hv ih
    | false =>
      refine Draw.Yields.bind_any fun s => Draw.Yields.bind_any fun _ =>
        (ihbelow s).bind fun rest hrest => Draw.Yields.pure ⟨Fills.cons ?_, ?_⟩
      · have hfills := hrest.1
        rw [List.length_append, List.length_replicate, Nat.add_comm] at hfills
        exact hfills
      · exact List.forall_mem_cons.mpr ⟨.inner s.property, hrest.2⟩

/-- A random program is the listing of one tree, made of symbols of the vocabulary. -/
lemma sample_yields {t : TreeSampler V} (hv : t.vocabulary.Proper inputs) :
    Draw.Yields (t.sample : Draw σ (Program V)) (Program.Supplied t.vocabulary) := by
  refine Draw.Yields.bind_any fun grows => Draw.Yields.bind_any fun height => ?_
  refine (expand_yields hv grows height [0]).bind fun symbols hsymbols => Draw.Yields.pure ?_
  exact ⟨hsymbols.1, hsymbols.2⟩

/-! ### Heights of random trees -/

/-- A random number lies between its bounds. -/
lemma between_yields {lo hi : Nat} (h : lo ≤ hi) :
    Draw.Yields (Random.between lo hi : Draw σ Nat) fun n => lo ≤ n ∧ n ≤ hi := by
  refine Draw.Yields.bind_any fun offset => Draw.Yields.pure ?_
  have hoffset : offset.val < hi - lo + 1 := offset.isLt
  change lo ≤ lo + offset.val ∧ lo + offset.val ≤ hi
  omega

/-- The listing of subtrees at some depths has no symbol below a height. -/
def Reaches (height : Nat) (pending : List Nat) (symbols : List (Symbol V)) : Prop :=
  ∀ greatest ≤ height, ∃ d, Program.depthBelow symbols pending greatest = .ok d ∧ d ≤ height

/-- A symbol at some depth may be put in front of the subtrees that come after it. -/
lemma Reaches.cons {height depth : Nat} {pending : List Nat} {s : Symbol V}
    {rest : List (Symbol V)} (hfits : Extent.fits s.arity = true) (hdepth : depth ≤ height)
    (h : Reaches height (List.replicate s.arity (depth + 1) ++ pending) rest) :
    Reaches height (depth :: pending) (s :: rest) := by
  intro greatest hgreatest
  rw [Program.depthBelow, if_pos hfits]
  exact h (max greatest depth) (Nat.max_le.mpr ⟨hgreatest, hdepth⟩)

/-- A random leaf may be put in front of the subtrees that come after it. -/
lemma leaf_bind_reaches {t : TreeSampler V} (hv : t.vocabulary.Proper inputs) {height depth : Nat}
    {pending : List Nat} (hdepth : depth ≤ height) {draw : Draw σ (List (Symbol V))}
    (h : draw.Yields (Reaches height pending)) :
    Draw.Yields (do let s ← t.leaf; let rest ← draw; pure (s :: rest) : Draw σ (List (Symbol V)))
      (Reaches height (depth :: pending)) := by
  refine t.leaf_yields.bind fun s hs => h.bind fun rest hrest => Draw.Yields.pure ?_
  obtain ⟨terminal, hmem, hrealises⟩ := hs
  have harity : s.arity = 0 := hrealises.arity_eq.trans (hv.arity_of_terminal terminal hmem)
  refine Reaches.cons ?_ hdepth ?_
  · rw [harity]
    rfl
  · rw [harity]
    exact hrest

/-- The subtrees that a sampler lists end at the height. -/
lemma expand_reaches {t : TreeSampler V} (hv : t.vocabulary.Proper inputs) (grows : Bool)
    (height : Nat) (pending : List Nat) (hpending : ∀ depth ∈ pending, depth ≤ height) :
    Draw.Yields (t.expand grows height pending : Draw σ (List (Symbol V)))
      (Reaches height pending) := by
  induction pending using expand.induct t height with
  | case1 =>
    rw [expand]
    exact Draw.Yields.pure fun greatest hgreatest => ⟨greatest, rfl, hgreatest⟩
  | case2 depth pending hends ih =>
    obtain ⟨hdepth, hpending⟩ := List.forall_mem_cons.mp hpending
    rw [expand, dif_pos hends]
    exact leaf_bind_reaches hv hdepth (ih hpending)
  | case3 depth pending hends ih ihbelow =>
    obtain ⟨hdepth, hpending⟩ := List.forall_mem_cons.mp hpending
    rw [expand, dif_neg hends]
    refine Draw.Yields.bind_any fun stops => ?_
    cases stops with
    | true => exact leaf_bind_reaches hv hdepth (ih hpending)
    | false =>
      -- A function only stands where the height has not been reached.
      have hlt : depth < height := (goes_on_iff.mp hends).2
      refine Draw.Yields.bind_any fun s => Draw.Yields.require.bind fun _ hfits => ?_
      have hbelow : ∀ d ∈ List.replicate s.val.arity (depth + 1) ++ pending, d ≤ height := by
        intro d hd
        rcases List.mem_append.mp hd with hd | hd
        · rw [List.eq_of_mem_replicate hd]
          exact hlt
        · exact hpending d hd
      exact (ihbelow s hbelow).bind fun rest hrest =>
        Draw.Yields.pure (Reaches.cons hfits hdepth hrest)

/-- A random program has no symbol below the greatest height of its sampler. -/
lemma sample_depth_yields {t : TreeSampler V} (hv : t.vocabulary.Proper inputs) :
    Draw.Yields (t.sample : Draw σ (Program V)) fun p => ∃ d, p.depth = .ok d ∧ d ≤ t.greatest := by
  refine Draw.Yields.bind_any fun grows => ?_
  refine (between_yields t.least_le_greatest).bind fun height hheight => ?_
  have hroot : ∀ depth ∈ [0], depth ≤ height :=
    List.forall_mem_singleton.mpr (Nat.zero_le height)
  refine (expand_reaches hv grows height [0] hroot).bind fun symbols hsymbols =>
    Draw.Yields.pure ?_
  obtain ⟨d, hd, hle⟩ := hsymbols 0 (Nat.zero_le height)
  exact ⟨d, hd, Nat.le_trans hle hheight.2⟩

/-! ### What is settled before a tree is listed -/

/-- Whether the branches of the next tree may end early, and how high it may be. -/
def plan (t : TreeSampler V) : Draw σ (Bool × Nat) := do
  let grows ← t.grows
  let height ← Random.between t.least t.greatest
  pure (grows, height)

/-- A sampler may settle on a way to grow and a height. -/
structure Allows (t : TreeSampler V) (grows : Bool) (height : Nat) : Prop where
  /-- All branches of full trees reach the height. -/
  full : t.growth = .full → grows = false
  /-- The branches of other trees may end early, unless it is settled tree by tree. -/
  grow : t.growth = .grow → grows = true
  /-- The height is not too small. -/
  least_le : t.least ≤ height
  /-- The height is not too great. -/
  le_greatest : height ≤ t.greatest

/-- What is settled is allowed. -/
lemma plan_yields (t : TreeSampler V) :
    Draw.Yields (t.plan : Draw σ (Bool × Nat)) fun settled => t.Allows settled.1 settled.2 := by
  have hgrows : Draw.Yields (t.grows : Draw σ Bool) fun grows =>
      (t.growth = .full → grows = false) ∧ (t.growth = .grow → grows = true) := by
    unfold grows
    generalize t.growth = growth
    cases growth with
    | full => exact Draw.Yields.pure ⟨fun _ => rfl, nofun⟩
    | grow => exact Draw.Yields.pure ⟨nofun, fun _ => rfl⟩
    | ramped => exact (Draw.Yields.trivial _).mono fun _ _ => ⟨nofun, nofun⟩
  exact hgrows.bind fun grows hgrows => (between_yields t.least_le_greatest).bind
    fun height hheight => Draw.Yields.pure ⟨hgrows.1, hgrows.2, hheight.1, hheight.2⟩

/-- A tree is listed by what has been settled. -/
lemma sample_eq_plan (t : TreeSampler V) :
    (t.sample : Draw σ (Program V)) = (do
      let settled ← t.plan
      let symbols ← t.expand settled.1 settled.2 [0]
      pure ⟨symbols⟩) := by
  simp only [sample, plan, bind_assoc, pure_bind]

end TreeSampler

end TreeEvolution
