import Mathlib.Data.List.Forall2
import TreeEvolution.Proofs.Program.Results
import TreeEvolution.Proofs.Program.Tree
import TreeEvolution.Symbol.Boolean

/-!
# The meaning of a program

A program that is the listing of a sound tree has the value of that tree.  The walk through a
listing visits the nodes of the tree in postorder (`visits_through_listing`), whatever comes after
the listing and whatever nodes are open around it; and the visits of a tree in postorder put the
result of the tree on top of a stack, whatever lies there (`reduce_visits`).  Both are shown with
the corresponding statement about several trees in a row.

The tree also tells how an evaluation fails: it does so at the first node in postorder that fails
although its subtrees have values (`value_eq_error_iff`).
-/

namespace TreeEvolution

namespace Tree

open Program Walk

variable {V α : Type}

/-! ### Visits in postorder -/

/-- The visit of the root of a tree. -/
def visit : Tree V → Visit V
  | .node s [] => .leaf s
  | .node s (_ :: _) => .node s

/-- The visits of the nodes of a tree, the root being the last. -/
def visits (t : Tree V) : List (Visit V) :=
  t.postorder.map visit

/-- The visits of a node are those of its subtrees and the one of its root. -/
lemma visits_node (s : Symbol V) (children : List (Tree V)) :
    (node s children).visits = (postorders children).map visit ++ [(node s children).visit] := by
  rw [visits, postorder_node, List.map_append, List.map_singleton]

/-- The last subtree of a node completes the node. -/
lemma onward_last (rest : List (Symbol V)) (s : Symbol V) (stack : List (Open V)) :
    onward rest (⟨s, 1⟩ :: stack) = .node s :: onward rest stack := by
  rw [onward, onward, complete, if_pos (Nat.le_refl 1)]
  rcases complete stack with ⟨visits, _ | ⟨innermost, outer⟩⟩ <;> rfl

/-- After any other subtree the node waits for the next one. -/
lemma onward_more (rest : List (Symbol V)) (s : Symbol V) (missing : Nat)
    (stack : List (Open V)) :
    onward rest (⟨s, missing + 2⟩ :: stack) =
      (through rest (⟨s, missing + 1⟩ :: stack)).visits := by
  have hmore : ¬ missing + 2 ≤ 1 := by omega
  rw [onward, complete, if_neg hmore]
  rfl

/-- The subtrees of an open node are visited one after the other, and then the node, if the visits
of each subtree are its own. -/
lemma visits_through_listings {trees : List (Tree V)}
    (h : ∀ t ∈ trees, ∀ rest stack,
      (through (t.listing ++ rest) stack).visits = t.visits ++ onward rest stack)
    (hne : trees ≠ []) (s : Symbol V) (rest : List (Symbol V)) (stack : List (Open V)) :
    (through (listings trees ++ rest) (⟨s, trees.length⟩ :: stack)).visits =
      (postorders trees).map visit ++ .node s :: onward rest stack := by
  induction trees with
  | nil => exact absurd rfl hne
  | cons t trees ih =>
    obtain ⟨ht, htrees⟩ := List.forall_mem_cons.mp h
    rw [listings_cons, List.append_assoc, ht, postorders_cons, List.map_append, List.append_assoc,
      visits]
    congr 1
    cases trees with
    | nil =>
      rw [List.length_singleton, onward_last, postorders_nil, List.map_nil, List.nil_append,
        listings_nil, List.nil_append]
    | cons u trees =>
      rw [List.length_cons, List.length_cons, onward_more]
      exact ih htrees (List.cons_ne_nil u trees)

/-- A walk visits the nodes of a sound tree in postorder. -/
lemma visits_through_listing {t : Tree V} (h : t.Sound) (rest : List (Symbol V))
    (stack : List (Open V)) :
    (through (t.listing ++ rest) stack).visits = t.visits ++ onward rest stack := by
  induction t generalizing rest stack with
  | node s children ih =>
    cases h with
    | node harity heach =>
      rw [listing_node, List.cons_append, visits_node]
      cases children with
      | nil =>
        rw [visits_through_leaf harity, listings_nil, postorders_nil]
        rfl
      | cons t children =>
        have hinner : s.arity ≠ 0 := by
          rw [harity]
          exact Nat.succ_ne_zero children.length
        rw [visits_through_node hinner, harity,
          visits_through_listings (fun u hu => ih u hu (heach u hu)) (List.cons_ne_nil t children),
          List.append_assoc]
        rfl

/-! ### Results on the stack -/

variable {result : Symbol V → List α → Except Fault α} {base : List α}

/-- The result of a node comes after those of its subtrees. -/
lemma along_node (s : Symbol V) (children : List (Tree V)) :
    (node s children).along result base =
      alongEach result base children >>= fun results =>
        result s (if children.isEmpty then base else results) := by
  rw [along]

lemma alongEach_nil : alongEach result base ([] : List (Tree V)) = .ok [] := by
  rw [alongEach]
  rfl

lemma alongEach_cons (t : Tree V) (rest : List (Tree V)) :
    alongEach result base (t :: rest) =
      t.along result base >>= fun a =>
        alongEach result base rest >>= fun results => .ok (a :: results) := by
  rw [alongEach]
  rfl

/-- The results of several trees are the results of the single trees. -/
lemma alongEach_eq_ok_iff {trees : List (Tree V)} {results : List α} :
    alongEach result base trees = .ok results ↔
      List.Forall₂ (fun t a => t.along result base = .ok a) trees results := by
  induction trees generalizing results with
  | nil =>
    rw [alongEach_nil, List.forall₂_nil_left_iff, Except.ok.injEq]
    exact eq_comm
  | cons t trees ih =>
    rw [alongEach_cons, List.forall₂_cons_left_iff]
    constructor
    · intro h
      obtain ⟨a, ha, h⟩ := bind_eq_ok.mp h
      obtain ⟨others, hothers, h⟩ := bind_eq_ok.mp h
      cases h
      exact ⟨a, others, ha, ih.mp hothers, rfl⟩
    · rintro ⟨a, others, ha, hothers, rfl⟩
      rw [ha, ih.mpr hothers]
      rfl

/-- The visits of several trees put their results on the stack, if those of each tree put its result
there. -/
lemma reduce_postorders {trees : List (Tree V)}
    (h : ∀ t ∈ trees, ∀ stack, t.visits.foldlM (reduce result base) stack =
      t.along result base >>= fun a => .ok (a :: stack)) (stack : List α) :
    ((postorders trees).map visit).foldlM (reduce result base) stack =
      alongEach result base trees >>= fun results => .ok (results.reverse ++ stack) := by
  induction trees generalizing stack with
  | nil =>
    rw [alongEach_nil, postorders_nil]
    rfl
  | cons t trees ih =>
    obtain ⟨ht, htrees⟩ := List.forall_mem_cons.mp h
    rw [postorders_cons, List.map_append, List.foldlM_append, ← visits, ht, alongEach_cons]
    rcases t.along result base with f | a
    · rfl
    · change ((postorders trees).map visit).foldlM _ (a :: stack) = _
      rw [ih htrees]
      rcases alongEach result base trees with f | results
      · rfl
      · change Except.ok (results.reverse ++ a :: stack) =
          Except.ok ((a :: results).reverse ++ stack)
        rw [List.reverse_cons, List.append_assoc, List.singleton_append]

/-- The visit of a node that has subtrees replaces their results by the result of the node. -/
lemma reduce_visit_node {s : Symbol V} {results : List α} (hs : results.length = s.arity)
    (stack : List α) :
    reduce result base (results.reverse ++ stack) (.node s) =
      result s results >>= fun a => .ok (a :: stack) := by
  have hlength : s.arity = results.reverse.length := by rw [List.length_reverse, hs]
  have hle : s.arity ≤ (results.reverse ++ stack).length := by
    rw [List.length_append]
    omega
  rw [reduce_node hle, hlength, List.take_left, List.drop_left, List.reverse_reverse]

/-- The visits of a sound tree put its result on the stack. -/
lemma reduce_visits {t : Tree V} (h : t.Sound) (stack : List α) :
    t.visits.foldlM (reduce result base) stack =
      t.along result base >>= fun a => .ok (a :: stack) := by
  induction t generalizing stack with
  | node s children ih =>
    cases h with
    | node harity heach =>
      rw [visits_node, List.foldlM_append,
        reduce_postorders (fun u hu => ih u hu (heach u hu)), along_node]
      rcases hresults : alongEach result base children with f | results
      · rfl
      · change [visit _].foldlM (reduce result base) (results.reverse ++ stack) =
          result s (if children.isEmpty then base else results) >>= _
        have hlength : results.length = s.arity := by
          rw [harity, (alongEach_eq_ok_iff.mp hresults).length_eq]
        rw [List.foldlM_cons]
        simp only [List.foldlM_nil, bind_pure]
        cases children with
        | nil =>
          obtain rfl := List.eq_nil_of_length_eq_zero (hlength.trans harity)
          rfl
        | cons u children => exact reduce_visit_node hlength stack

/-- Trees whose results were found all have one. -/
lemma exists_along_eq_ok {trees : List (Tree V)} {results : List α}
    (h : alongEach result base trees = .ok results) :
    ∀ t ∈ trees, ∃ a, t.along result base = .ok a := by
  rw [alongEach_eq_ok_iff] at h
  induction h with
  | nil =>
    intro t ht
    cases ht
  | cons ha _ ih => exact List.forall_mem_cons.mpr ⟨⟨_, ha⟩, ih⟩

/-! ### The first fault -/

/-- Results of several trees fail at the first tree whose result fails. -/
lemma alongEach_eq_error_iff {trees : List (Tree V)} {f : Fault} :
    alongEach result base trees = .error f ↔
      ∃ before t after, trees = before ++ t :: after ∧
        (∀ u ∈ before, ∃ a, u.along result base = .ok a) ∧ t.along result base = .error f := by
  induction trees with
  | nil =>
    rw [alongEach_nil]
    constructor
    · intro h
      cases h
    · rintro ⟨before, t, after, hsplit, -⟩
      cases before <;> cases hsplit
  | cons t trees ih =>
    rw [alongEach_cons, bind_eq_error]
    constructor
    · rintro (h | ⟨a, ha, h⟩)
      · exact ⟨[], t, trees, rfl, (fun u hu => by cases hu), h⟩
      · rcases bind_eq_error.mp h with h | ⟨results, -, h⟩
        · obtain ⟨before, u, after, rfl, hbefore, hu⟩ := ih.mp h
          exact ⟨t :: before, u, after, rfl, List.forall_mem_cons.mpr ⟨⟨a, ha⟩, hbefore⟩, hu⟩
        · cases h
    · rintro ⟨before, u, after, hsplit, hbefore, hu⟩
      cases before with
      | nil =>
        cases hsplit
        exact Or.inl hu
      | cons w before =>
        cases hsplit
        obtain ⟨⟨a, ha⟩, hbefore⟩ := List.forall_mem_cons.mp hbefore
        have htrees := ih.mpr ⟨before, u, after, rfl, hbefore, hu⟩
        exact Or.inr ⟨a, ha, bind_eq_error.mpr (Or.inl htrees)⟩

variable {inputs : List V}

/-- The root of a tree fails on the inputs of a leaf or the values of its subtrees, which are
there. -/
def Fails (inputs : List V) (t : Tree V) (f : Fault) : Prop :=
  ∃ values, List.Forall₂ (fun u value => u.value inputs = .ok value) t.children values ∧
    t.symbol.apply (if t.children.isEmpty then inputs else values) = .error f

/-- The first node in postorder whose subtree does not have a value fails by itself. -/
def FirstFault (inputs : List V) (t : Tree V) (f : Fault) : Prop :=
  ∃ before u after, t.postorder = before ++ u :: after ∧
    (∀ w ∈ before, ∃ value, w.value inputs = .ok value) ∧ u.Fails inputs f

/-- A tree whose root fails does not have a value. -/
lemma Fails.value_eq_error {t : Tree V} {f : Fault} (h : t.Fails inputs f) :
    t.value inputs = .error f := by
  obtain ⟨s, children⟩ := t
  obtain ⟨values, hvalues, happly⟩ := h
  have hresults : alongEach Symbol.apply inputs children = .ok values :=
    alongEach_eq_ok_iff.mpr hvalues
  rw [value, along_node, hresults]
  exact happly

/-- All subtrees of a tree with a value have one. -/
lemma exists_value_of_mem_postorder {t : Tree V} {value : V} (h : t.value inputs = .ok value) :
    ∀ w ∈ t.postorder, ∃ value, w.value inputs = .ok value := by
  induction t generalizing value with
  | node s children ih =>
    intro w hw
    rw [postorder_node, List.mem_append, List.mem_singleton] at hw
    rcases hw with hw | rfl
    · obtain ⟨u, hu, hw⟩ := mem_postorders.mp hw
      rw [Tree.value, along_node] at h
      obtain ⟨values, hvalues, -⟩ := bind_eq_ok.mp h
      obtain ⟨v, hv⟩ := exists_along_eq_ok hvalues u hu
      exact ih u hu hv w hw
    · exact ⟨value, h⟩

/-- A tree without a value has a first fault. -/
lemma firstFault_of_value_eq_error {t : Tree V} {f : Fault} (h : t.value inputs = .error f) :
    t.FirstFault inputs f := by
  induction t with
  | node s children ih =>
    rw [Tree.value, along_node] at h
    rcases bind_eq_error.mp h with h | ⟨values, hvalues, happly⟩
    · obtain ⟨before, u, after, rfl, hbefore, hu⟩ := alongEach_eq_error_iff.mp h
      obtain ⟨before', w, after', hsplit, hbefore', hw⟩ :=
        ih u (List.mem_append_right before List.mem_cons_self) hu
      refine ⟨postorders before ++ before', w,
        after' ++ (postorders after ++ [node s (before ++ u :: after)]), ?_, ?_, hw⟩
      · rw [postorder_node, postorders_append, postorders_cons, hsplit]
        simp only [List.append_assoc, List.cons_append]
      · refine List.forall_mem_append.mpr ⟨fun x hx => ?_, hbefore'⟩
        obtain ⟨y, hy, hx⟩ := mem_postorders.mp hx
        obtain ⟨v, hv⟩ := hbefore y hy
        exact exists_value_of_mem_postorder hv x hx
    · refine ⟨postorders children, node s children, [], postorder_node s children, fun x hx => ?_,
        values, alongEach_eq_ok_iff.mp hvalues, happly⟩
      obtain ⟨y, hy, hx⟩ := mem_postorders.mp hx
      obtain ⟨v, hv⟩ := exists_along_eq_ok hvalues y hy
      exact exists_value_of_mem_postorder hv x hx

/-- The first fault shows when the subtrees are evaluated in postorder. -/
lemma FirstFault.alongEach_postorder {t : Tree V} {f : Fault} (h : t.FirstFault inputs f) :
    alongEach Symbol.apply inputs t.postorder = .error f := by
  obtain ⟨before, u, after, hsplit, hbefore, hu⟩ := h
  exact alongEach_eq_error_iff.mpr ⟨before, u, after, hsplit, hbefore, hu.value_eq_error⟩

/-- A tree does not have a value exactly because of its first fault. -/
lemma value_eq_error_iff {t : Tree V} {f : Fault} :
    t.value inputs = .error f ↔ t.FirstFault inputs f := by
  refine ⟨firstFault_of_value_eq_error, fun h => ?_⟩
  rcases hvalue : t.value inputs with g | value
  · have hg := (firstFault_of_value_eq_error hvalue).alongEach_postorder
    rw [h.alongEach_postorder] at hg
    cases hg
    rfl
  · obtain ⟨before, u, after, hsplit, -, hu⟩ := h
    have hmem : u ∈ t.postorder := by
      rw [hsplit]
      exact List.mem_append_right before List.mem_cons_self
    obtain ⟨v, hv⟩ := exists_value_of_mem_postorder hvalue u hmem
    rw [hu.value_eq_error] at hv
    cases hv

end Tree

namespace Program

open TreeEvolution.Tree

variable {V α : Type} {result : Symbol V → List α → Except Fault α} {base : List α}

/-! ### Programs of trees -/

/-- The results along the listing of a sound tree come down to the result of the tree. -/
lemma along_listing {t : Tree V} (h : t.Sound) :
    along result base ⟨t.listing⟩ = t.along result base >>= fun a => .ok [a] := by
  have hvisits : (walk ⟨t.listing⟩ 0).visits = t.visits := by
    have hthrough := visits_through_listing h [] []
    rwa [List.append_nil, Walk.onward_nil, List.append_nil] at hthrough
  have hsize : (walk ⟨t.listing⟩ 0).size? = some t.listing.length := size?_walk h.fills
  have hpos : 0 < t.listing.length := h.fills.length_pos
  have hlast : lastOf ⟨t.listing⟩ 0 (walk ⟨t.listing⟩ 0) = .ok (t.listing.length - 1) := by
    rw [lastOf, hsize]
    change Except.ok (0 + t.listing.length - 1) = _
    rw [Nat.zero_add]
  rw [Program.along]
  simp only [hvisits, hlast, reduce_visits h]
  rcases t.along result base with f | a
  · rfl
  · change (if t.listing.length - 1 + 1 = t.listing.length then _ else _) = _
    rw [if_pos (by omega)]
    rfl

/-- The listing of a sound tree has the value of the tree. -/
lemma evaluate_listing {t : Tree V} (h : t.Sound) (inputs : List V) :
    evaluate ⟨t.listing⟩ inputs = t.value inputs := by
  rw [evaluate, along_listing h, Tree.value]
  rcases t.along Symbol.apply inputs with f | value <;> rfl

/-- **Meaning of programs.**  The well-formed programs whose places can be counted are exactly the
listings of sound trees, and each of them lists a single one.  The evaluation of the listing of a
sound tree has the value of the tree, and it fails exactly with the first fault of the tree. -/
theorem evaluation_of_trees :
    (∀ p : Program V, (p.symbols.map Symbol.arity).sum < UInt64.size →
      (p.isWellFormed = .ok true ↔ ∃! t : Tree V, t.Sound ∧ t.listing = p.symbols) ∧
        (p.isWellFormed = .ok false ↔ ¬ ∃ t : Tree V, t.Sound ∧ t.listing = p.symbols)) ∧
    ∀ t : Tree V, t.Sound →
      (∀ u : Tree V, u.Sound → u.listing = t.listing → u = t) ∧
        ∀ inputs, evaluate ⟨t.listing⟩ inputs = t.value inputs ∧
          ∀ f, evaluate ⟨t.listing⟩ inputs = .error f ↔ t.FirstFault inputs f := by
  refine ⟨fun p hcount => ⟨?_, ?_⟩, fun t ht => ⟨fun u hu h => listing_injective hu ht h,
    fun inputs => ⟨evaluate_listing ht inputs, fun f => ?_⟩⟩⟩
  · rw [isWellFormed_eq_true_iff hcount, fills_one_iff]
    constructor
    · rintro ⟨t, ht, hlisting⟩
      exact ⟨t, ⟨ht, hlisting⟩, fun u hu => listing_injective hu.1 ht (hu.2.trans hlisting.symm)⟩
    · exact ExistsUnique.exists
  · rw [isWellFormed_eq_false_iff hcount, fills_one_iff]
  · rw [evaluate_listing ht, value_eq_error_iff]

/-- The conjunction of a negated input and a constant that has not been drawn. -/
def undrawn : Tree Bool :=
  .node Boolean.conjunction
    [.node Boolean.negation [.node (.input "x" 0) []], .node (.random "r" (.done true) none) []]

/-- Without inputs the evaluation of this tree fails at the input, which comes first in postorder;
with one it fails at the constant. -/
theorem evaluation_of_undrawn :
    isWellFormed ⟨undrawn.listing⟩ = .ok true ∧
      evaluate ⟨undrawn.listing⟩ [] = .error (.unboundVariable "x" 0 0) ∧
      evaluate ⟨undrawn.listing⟩ [true] = .error (.undrawnConstant "r") := by
  have hleaf : ∀ s : Symbol Bool, s.arity = 0 → (Tree.node s []).Sound :=
    fun s hs => .node hs fun t ht => by cases ht
  have hsound : undrawn.Sound := by
    refine .node rfl (List.forall_mem_cons.mpr ⟨?_, List.forall_mem_singleton.mpr (hleaf _ rfl)⟩)
    exact .node rfl (List.forall_mem_singleton.mpr (hleaf _ rfl))
  obtain ⟨hlistings, hmeaning⟩ := evaluation_of_trees (V := Bool)
  obtain ⟨hunique, hvalues⟩ := hmeaning undrawn hsound
  refine ⟨?_, ?_, ?_⟩
  · exact (hlistings _ (by decide)).1.mpr
      ⟨undrawn, ⟨hsound, rfl⟩, fun u hu => hunique u hu.1 hu.2⟩
  · refine ((hvalues []).2 _).mpr ⟨[], _, _, rfl, ?_, [], .nil, rfl⟩
    intro w hw
    cases hw
  · refine ((hvalues [true]).2 _).mpr ⟨[_, _], _, _, rfl, ?_, [], .nil, rfl⟩
    exact List.forall_mem_cons.mpr ⟨⟨true, rfl⟩, List.forall_mem_singleton.mpr ⟨false, rfl⟩⟩

end Program

end TreeEvolution
