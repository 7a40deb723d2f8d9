import Mathlib.Data.List.Basic
import Mathlib.Data.List.Zip
import TreeEvolution.Limit
import TreeEvolution.Proofs.Outcomes
import TreeEvolution.Proofs.Program.Places
import TreeEvolution.Symbol.Boolean

/-!
# Individuals within limits

Limits are applied one after the other, each to what the one before has let through.  After a veto
this is the parent, who may break the next limit himself.  All the same the limits act as one: a
child survives if it is within every limit, and else its parent takes the place, whatever he is like
(`Limit.survivor`).  The reason is that a veto is final, since a limit that looks at a parent can
only choose between him and himself (`Limit.survivor_append`).

A limit can be checked of the listing of any tree that memory has room for.
-/

namespace TreeEvolution

open Places

variable {V : Type} {limits : List Limit} {i j : Individual V}

/-! ### What limits admit -/

namespace Limit

variable {greatest : Nat}

/-- Whether a limit admits an individual depends on its program only. -/
lemma admits_congr (h : j.code = i.code) (limit : Limit) : limit.admits j = limit.admits i := by
  cases limit with
  | size greatest => rw [admits, admits, Individual.size, Individual.size, h]
  | depth greatest => rw [admits, admits, Individual.depth, Individual.depth, h]

/-- A limit on size admits an individual of at most that size. -/
lemma admits_size_iff : (size greatest).admits i = .ok true ↔ i.size ≤ greatest := by
  simp [admits]

/-- A limit on depth admits an individual of at most that depth. -/
lemma admits_depth_iff :
    (depth greatest).admits i = .ok true ↔ ∃ d, i.depth = .ok d ∧ d ≤ greatest := by
  rw [admits, bind_eq_ok]
  constructor
  · rintro ⟨d, hd, hle⟩
    exact ⟨d, hd, of_decide_eq_true (Except.ok.inj hle)⟩
  · rintro ⟨d, hd, hle⟩
    exact ⟨d, hd, congrArg Except.ok (decide_eq_true hle)⟩

end Limit

namespace Individual

/-- An individual is within limits if each of them admits it. -/
def Within (limits : List Limit) (i : Individual V) : Prop :=
  ∀ limit ∈ limits, limit.admits i = .ok true

/-- Only the program matters. -/
lemma Within.congr (h : i.Within limits) (hcode : j.code = i.code) : j.Within limits := by
  intro limit hlimit
  rw [Limit.admits_congr hcode]
  exact h limit hlimit

/-- With fewer limits there are more individuals within them. -/
lemma Within.mono {more : List Limit} (h : i.Within more) (hlimits : limits ⊆ more) :
    i.Within limits :=
  fun limit hlimit => h limit (hlimits hlimit)

/-- An individual meets limits if it is not longer and not deeper than any of them says. -/
structure Meets (limits : List Limit) (i : Individual V) : Prop where
  /-- The program is not too long. -/
  size : ∀ greatest, .size greatest ∈ limits → i.size ≤ greatest
  /-- The program is not too deep. -/
  depth : ∀ greatest, .depth greatest ∈ limits → ∃ d, i.depth = .ok d ∧ d ≤ greatest

/-- The limits admit the individuals that meet them. -/
lemma within_iff_meets : i.Within limits ↔ i.Meets limits := by
  constructor
  · intro h
    exact ⟨fun greatest hmem => Limit.admits_size_iff.mp (h _ hmem),
      fun greatest hmem => Limit.admits_depth_iff.mp (h _ hmem)⟩
  · intro h limit hlimit
    cases limit with
    | size greatest => exact Limit.admits_size_iff.mpr (h.size greatest hlimit)
    | depth greatest => exact Limit.admits_depth_iff.mpr (h.depth greatest hlimit)

end Individual

namespace Limit

variable {limit : Limit} {parent child kept : Individual V}
  {parents children after : List (Individual V)} {f : Fault}

/-! ### Survivors -/

/-- Whether a limit lets a program pass. -/
def passes (limit : Limit) (p : Program V) : Bool :=
  match limit.admits { code := p } with
  | .ok admitted => admitted
  | .error _ => false

/-- A limit lets a program pass if it admits an individual with it. -/
lemma passes_iff : limit.passes i.code = true ↔ limit.admits i = .ok true := by
  have hcode : limit.admits { code := i.code } = limit.admits i := admits_congr rfl limit
  rw [passes, hcode]
  cases limit.admits i with
  | ok admitted => rw [Except.ok.injEq]
  | error f => exact ⟨nofun, nofun⟩

/-- All limits let a program pass if an individual with it is within them. -/
lemma all_passes_iff :
    (limits.all fun limit => limit.passes i.code) = true ↔ i.Within limits := by
  rw [List.all_eq_true]
  exact forall₂_congr fun limit _ => passes_iff

/-- The child if all limits let it pass, and else the individual it is derived from. -/
def survivor (limits : List Limit) (parent child : Individual V) : Individual V :=
  if limits.all fun limit => limit.passes child.code then child else parent

/-- A child within the limits survives. -/
lemma survivor_of_within (h : child.Within limits) : survivor limits parent child = child :=
  if_pos (all_passes_iff.mpr h)

/-- In the place of any other child there is the parent. -/
lemma survivor_of_not_within (h : ¬ child.Within limits) :
    survivor limits parent child = parent :=
  if_neg fun hall => h (all_passes_iff.mp hall)

/-- It does not matter in which order the limits come, and how often. -/
lemma survivor_congr {others : List Limit} (h : ∀ limit, limit ∈ others ↔ limit ∈ limits) :
    survivor others parent child = survivor limits parent child := by
  have hiff : child.Within others ↔ child.Within limits :=
    forall_congr' fun limit => imp_congr_left (h limit)
  by_cases hwithin : child.Within limits
  · rw [survivor_of_within hwithin, survivor_of_within (hiff.mpr hwithin)]
  · rw [survivor_of_not_within hwithin, survivor_of_not_within fun h => hwithin (hiff.mp h)]

/-- Limits that are applied after others can only choose between the parent and himself where the
others have had a veto. -/
lemma survivor_append (passed more : List Limit) (parent child : Individual V) :
    survivor (passed ++ more) parent child =
      survivor more parent (survivor passed parent child) := by
  have happend : child.Within (passed ++ more) ↔ child.Within passed ∧ child.Within more :=
    List.forall_mem_append
  by_cases hpassed : child.Within passed
  · rw [survivor_of_within hpassed]
    by_cases hmore : child.Within more
    · rw [survivor_of_within hmore, survivor_of_within (happend.mpr ⟨hpassed, hmore⟩)]
    · rw [survivor_of_not_within hmore, survivor_of_not_within fun h => hmore (happend.mp h).2]
  · have hboth : ¬ child.Within (passed ++ more) := fun h => hpassed (happend.mp h).1
    rw [survivor_of_not_within hpassed, survivor_of_not_within hboth, survivor, ite_self]

/-- A single limit lets the survivor through. -/
lemma eq_survivor_of_enforce (h : limit.enforce parent child = .ok kept) :
    kept = survivor [limit] parent child := by
  obtain ⟨admitted, hadmits, h⟩ := bind_eq_ok.mp h
  cases admitted with
  | true =>
    cases h
    exact (survivor_of_within (List.forall_mem_singleton.mpr hadmits)).symm
  | false =>
    cases h
    refine (survivor_of_not_within fun hwithin => ?_).symm
    rw [List.forall_mem_singleton.mp hwithin] at hadmits
    cases hadmits

/-- Whoever survives is a parent or a child. -/
lemma mem_of_mem_survivors (hi : i ∈ parents.zipWith (survivor limits) children) :
    i ∈ parents ∨ i ∈ children := by
  rw [← List.map_uncurry_zip_eq_zipWith] at hi
  obtain ⟨⟨parent, child⟩, hpair, rfl⟩ := List.mem_map.mp hi
  obtain ⟨hparent, hchild⟩ := List.of_mem_zip hpair
  by_cases hwithin : child.Within limits
  · rw [Function.uncurry_apply_pair, survivor_of_within hwithin]
    exact Or.inr hchild
  · rw [Function.uncurry_apply_pair, survivor_of_not_within hwithin]
    exact Or.inl hparent

/-- A limit that is applied to children lets through the survivor in each place. -/
lemma eq_zipWith_of_enforceEach (h : limit.enforceEach parents children = .ok after) :
    after = parents.zipWith (survivor [limit]) children := by
  induction parents, children using enforceEach.induct generalizing after with
  | case1 parent parents child children ih =>
    rw [enforceEach] at h
    obtain ⟨first, hfirst, h⟩ := bind_eq_ok.mp h
    obtain ⟨others, hothers, h⟩ := bind_eq_ok.mp h
    cases h
    rw [List.zipWith_cons_cons, eq_survivor_of_enforce hfirst, ih hothers]
  | case2 parents children hcases =>
    rw [enforceEach] at h
    · cases h
      cases parents with
      | nil => rfl
      | cons parent parents =>
        cases children with
        | nil => rfl
        | cons child children => exact (hcases parent parents child children rfl rfl).elim
    · exact hcases

/-- All limits together let through the survivor in each place.  The induction is on the limits,
and what the first of them lets through stands for the children of the others. -/
lemma eq_zipWith_of_enforceAll (hlength : children.length = parents.length)
    (h : enforceAll limits parents children = .ok after) :
    after = parents.zipWith (survivor limits) children := by
  induction limits generalizing children with
  | nil =>
    cases h
    rw [← List.map_uncurry_zip_eq_zipWith]
    exact (List.map_snd_zip (Nat.le_of_eq hlength)).symm
  | cons limit limits ih =>
    rw [enforceAll, List.foldlM_cons] at h
    obtain ⟨between, hbetween, h⟩ := bind_eq_ok.mp h
    have hfirst : between = parents.zipWith (survivor [limit]) children :=
      eq_zipWith_of_enforceEach hbetween
    have hbetweenLength : between.length = parents.length := by
      rw [hfirst, List.length_zipWith, hlength, Nat.min_self]
    rw [ih hbetweenLength h, hfirst, List.zipWith_zipWith_right, List.zipWith3_same_left]
    refine congrArg (fun choose => parents.zipWith choose children) ?_
    funext parent child
    exact (survivor_append [limit] limits parent child).symm

/-- After several limits there are only parents and children. -/
lemma mem_of_enforceAll (h : enforceAll limits parents children = .ok after) (hi : i ∈ after) :
    i ∈ parents ∨ i ∈ children := by
  induction limits generalizing children with
  | nil =>
    cases h
    exact Or.inr hi
  | cons limit limits ih =>
    rw [enforceAll, List.foldlM_cons] at h
    obtain ⟨between, hbetween, h⟩ := bind_eq_ok.mp h
    rw [eq_zipWith_of_enforceEach hbetween] at h
    exact (ih h).elim Or.inl mem_of_mem_survivors

/-- Individuals that limits let through have the property of parents and children. -/
lemma forall_mem_of_enforceAll {bred : Individual V → Prop} (hparents : ∀ i ∈ parents, bred i)
    (hchildren : ∀ i ∈ children, bred i) (h : enforceAll limits parents children = .ok after) :
    ∀ i ∈ after, bred i := by
  intro i hi
  rcases mem_of_enforceAll h hi with hi | hi
  · exact hparents i hi
  · exact hchildren i hi

/-! ### Limits that cannot be checked -/

/-- A limit can be checked of the listing of a tree, unless lists cannot hold the places below one
of its symbols. -/
lemma eq_beyondMemory_of_admits (hi : Fills i.code.symbols 1) (h : limit.admits i = .error f) :
    f = .beyondMemory ∧ ¬ Program.Storable i.code.symbols := by
  cases limit with
  | size greatest => cases h
  | depth greatest =>
    have hempty : ¬ i.code.isEmpty = true := by
      rw [Program.isEmpty, List.isEmpty_iff_length_eq_zero]
      exact Nat.ne_of_gt hi.length_pos
    have hdepth : i.code.depth = .error f := by
      rcases bind_eq_error.mp h with h | ⟨d, -, h⟩
      · rwa [Individual.depth, if_neg hempty] at h
      · cases h
    by_cases hstorable : Program.Storable i.code.symbols
    · obtain ⟨d, hd⟩ := Program.depth_eq_ok hstorable hi
      rw [hd] at hdepth
      cases hdepth
    · rw [(Program.depth_of_not_storable hi hstorable).1] at hdepth
      cases hdepth
      exact ⟨rfl, hstorable⟩

/-- A limit cannot be applied only if it cannot be checked of a child. -/
lemma exists_of_enforceEach_eq_error (h : limit.enforceEach parents children = .error f) :
    ∃ i ∈ children, limit.admits i = .error f := by
  induction parents, children using enforceEach.induct with
  | case1 parent parents child children ih =>
    rw [enforceEach] at h
    rcases bind_eq_error.mp h with h | ⟨kept, -, h⟩
    · rcases bind_eq_error.mp h with h | ⟨admitted, -, h⟩
      · exact ⟨child, List.mem_cons_self, h⟩
      · split at h <;> cases h
    · rcases bind_eq_error.mp h with h | ⟨others, -, h⟩
      · obtain ⟨i, hi, h⟩ := ih h
        exact ⟨i, List.mem_cons_of_mem child hi, h⟩
      · cases h
  | case2 parents children hcases =>
    rw [enforceEach] at h
    · cases h
    · exact hcases

/-- Limits cannot be applied only if one of them cannot be checked of a parent or a child. -/
lemma exists_of_enforceAll_eq_error (h : enforceAll limits parents children = .error f) :
    ∃ (limit : Limit) (i : Individual V), (i ∈ parents ∨ i ∈ children) ∧
      limit.admits i = .error f := by
  induction limits generalizing children with
  | nil => cases h
  | cons limit limits ih =>
    rw [enforceAll, List.foldlM_cons] at h
    rcases bind_eq_error.mp h with h | ⟨between, hbetween, h⟩
    · obtain ⟨i, hi, h⟩ := exists_of_enforceEach_eq_error h
      exact ⟨limit, i, Or.inr hi, h⟩
    · rw [eq_zipWith_of_enforceEach hbetween] at h
      obtain ⟨limit', i, hi, h⟩ := ih h
      exact ⟨limit', i, hi.elim Or.inl mem_of_mem_survivors, h⟩

/-- Among listings of trees, limits fail only for one that memory has no room for. -/
lemma exists_large_of_enforceAll_eq_error (hparents : ∀ i ∈ parents, Fills i.code.symbols 1)
    (hchildren : ∀ i ∈ children, Fills i.code.symbols 1)
    (h : enforceAll limits parents children = .error f) :
    f = .beyondMemory ∧ ∃ i, (i ∈ parents ∨ i ∈ children) ∧ Extent.fits i.size = false := by
  obtain ⟨limit, i, hi, hadmits⟩ := exists_of_enforceAll_eq_error h
  have hfills : Fills i.code.symbols 1 := hi.elim (hparents i) (hchildren i)
  obtain ⟨rfl, hwide⟩ := eq_beyondMemory_of_admits hfills hadmits
  exact ⟨rfl, i, hi, (Program.depth_of_not_storable hfills hwide).2⟩

/-! ### Limits as one -/

/-- What several limits leave of the children of some individuals. -/
structure Sifted (limits : List Limit) (parents children kept : List (Individual V)) : Prop where
  /-- There is somebody in each place. -/
  length : kept.length = parents.length
  /-- A child that meets all limits keeps the place. -/
  child : ∀ (place : Nat) (parent child : Individual V), parents[place]? = some parent →
    children[place]? = some child → child.Meets limits → kept[place]? = some child
  /-- The place of any other child goes back to the parent. -/
  parent : ∀ (place : Nat) (parent child : Individual V), parents[place]? = some parent →
    children[place]? = some child → ¬ child.Meets limits → kept[place]? = some parent

/-- The survivors are what is left. -/
lemma sifted_survivors (hlength : children.length = parents.length) :
    Sifted limits parents children (parents.zipWith (survivor limits) children) := by
  refine ⟨?_, ?_, ?_⟩
  · rw [List.length_zipWith, hlength, Nat.min_self]
  · intro place parent child hparent hchild hmeets
    rw [List.getElem?_zipWith, hparent, hchild]
    exact congrArg some (survivor_of_within (Individual.within_iff_meets.mpr hmeets))
  · intro place parent child hparent hchild hmeets
    rw [List.getElem?_zipWith, hparent, hchild]
    exact congrArg some (survivor_of_not_within fun h => hmeets (Individual.within_iff_meets.mp h))

/-- **Limits act as one.**  Take any limits on size and depth, in any order and with repetitions,
and as many well-formed children as there are well-formed parents.  When the limits are applied one
after the other, a child that meets all of them keeps its place, and the place of any other child
goes back to its parent, with his score, even if he breaks a limit himself; nobody else matters.
Applying limits fails only for want of memory, if there is a parent or a child of more symbols than
the memory has room for.  If there is none, then other limits come to the same as long as they are
the same up to order and repetitions. -/
theorem limits_act_as_one (limits : List Limit) {parents children : List (Individual V)}
    (hlength : children.length = parents.length)
    (hparents : ∀ i ∈ parents, i.code.isWellFormed = .ok true)
    (hchildren : ∀ i ∈ children, i.code.isWellFormed = .ok true) :
    ((∃ kept, enforceAll limits parents children = .ok kept ∧
        Sifted limits parents children kept) ∨
      enforceAll limits parents children = .error .beyondMemory ∧
        ∃ i, (i ∈ parents ∨ i ∈ children) ∧ Extent.fits i.size = false) ∧
    ((∀ i, i ∈ parents ∨ i ∈ children → Extent.fits i.size = true) →
      ∀ others : List Limit, (∀ limit, limit ∈ others ↔ limit ∈ limits) →
        enforceAll others parents children = enforceAll limits parents children) := by
  have hfillsP : ∀ i ∈ parents, Fills i.code.symbols 1 := fun i hi =>
    Program.fills_of_listsTrees (hparents i hi)
  have hfillsC : ∀ i ∈ children, Fills i.code.symbols 1 := fun i hi =>
    Program.fills_of_listsTrees (hchildren i hi)
  constructor
  · rcases h : enforceAll limits parents children with f | kept
    · obtain ⟨rfl, hlarge⟩ := exists_large_of_enforceAll_eq_error hfillsP hfillsC h
      exact Or.inr ⟨rfl, hlarge⟩
    · obtain rfl := eq_zipWith_of_enforceAll hlength h
      exact Or.inl ⟨_, rfl, sifted_survivors hlength⟩
  · intro hfits others hsame
    have hany : ∀ any : List Limit, enforceAll any parents children =
        .ok (parents.zipWith (survivor any) children) := by
      intro any
      rcases h : enforceAll any parents children with f | kept
      · obtain ⟨-, i, hi, hlarge⟩ := exists_large_of_enforceAll_eq_error hfillsP hfillsC h
        rw [hfits i hi] at hlarge
        cases hlarge
      · rw [eq_zipWith_of_enforceAll hlength h]
    have hsurvivor : survivor (V := V) others = survivor limits := by
      funext parent child
      exact survivor_congr hsame
    rw [hany others, hany limits, hsurvivor]

/-- An individual whose program negates an input several times. -/
def negations (count : Nat) (score : Score) : Individual Bool :=
  ⟨⟨List.replicate count Boolean.negation ++ [.input "x" 0]⟩, score⟩

/-- Two parents, of whom the first is deeper than one level. -/
def twoParents : List (Individual Bool) :=
  [negations 2 ⟨0.5, true⟩, negations 0 ⟨0.5, true⟩]

/-- Their children, of whom the first is deeper than one level. -/
def twoChildren : List (Individual Bool) :=
  [negations 3 .pending, negations 1 .pending]

/-- The deep child gives way to its parent, who is too deep himself, and the other one is kept.  The
limits may as well come in another order, one of them twice. -/
theorem deep_parent_keeps_his_place :
    ∃ kept, enforceAll [.depth 1, .size 2] twoParents twoChildren = .ok kept ∧
      kept[0]? = some (negations 2 ⟨0.5, true⟩) ∧ kept[1]? = some (negations 1 .pending) ∧
      enforceAll [.size 2, .depth 1, .size 2] twoParents twoChildren = .ok kept := by
  have htwoParents : ∀ i ∈ twoParents, i.code.isWellFormed = .ok true ∧ Extent.fits i.size = true :=
    List.forall_mem_cons.mpr ⟨⟨rfl, rfl⟩, List.forall_mem_singleton.mpr ⟨rfl, rfl⟩⟩
  have htwoChildren :
      ∀ i ∈ twoChildren, i.code.isWellFormed = .ok true ∧ Extent.fits i.size = true :=
    List.forall_mem_cons.mpr ⟨⟨rfl, rfl⟩, List.forall_mem_singleton.mpr ⟨rfl, rfl⟩⟩
  have hfits : ∀ i, i ∈ twoParents ∨ i ∈ twoChildren → Extent.fits i.size = true := fun i hi =>
    hi.elim (fun h => (htwoParents i h).2) fun h => (htwoChildren i h).2
  obtain ⟨⟨kept, hkept, hsifted⟩ | ⟨-, i, hi, hlarge⟩, hsame⟩ :=
    limits_act_as_one [.depth 1, .size 2] (show twoChildren.length = twoParents.length from rfl)
      (fun i hi => (htwoParents i hi).1) fun i hi => (htwoChildren i hi).1
  · have hdeep : ¬ (negations 3 .pending).Meets [.depth 1, .size 2] := fun hmeets =>
      absurd (hmeets.size 2 (by decide)) (by decide)
    have hshallow : (negations 1 .pending).Meets [.depth 1, .size 2] :=
      Individual.within_iff_meets.mp
        (List.forall_mem_cons.mpr ⟨rfl, List.forall_mem_singleton.mpr rfl⟩)
    have hmembers : ∀ limit : Limit,
        limit ∈ [size 2, .depth 1, .size 2] ↔ limit ∈ [depth 1, .size 2] := by
      intro limit
      simp only [List.mem_cons, List.not_mem_nil, or_false]
      tauto
    exact ⟨kept, hkept, hsifted.parent 0 _ _ rfl rfl hdeep, hsifted.child 1 _ _ rfl rfl hshallow,
      (hsame hfits _ hmembers).trans hkept⟩
  · rw [hfits i hi] at hlarge
    cases hlarge

end Limit

end TreeEvolution
