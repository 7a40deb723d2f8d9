import Mathlib.Data.List.Basic
import TreeEvolution.Proofs.Outcomes
import TreeEvolution.Proofs.Program.Places

/-!
# Results along a walk

A result is computed along a walk with a stack of the results of the subtrees that are complete.
This file shows that the stack never lacks a result, in any listing: the open nodes of the walk tell
how many results lie on it (`Walk.held`), and a node is visited when all of its subtrees are among
them.  So the computation breaks off only where the result of a symbol itself does, and else it
comes down to whether the listing fills one place.

`along_eq_singleton`, `along_eq_missingSymbol` and `along_eq_leftOver` are the three outcomes; the
text of a program, to which every symbol contributes, has exactly these.
-/

namespace TreeEvolution

namespace Program

variable {V α : Type}

/-! ### Taking results off the stack -/

/-- Results that are there can be taken off the stack. -/
lemma popped_eq_some {count : Nat} {stack : List α} (h : count ≤ stack.length) (above : List α) :
    popped count stack above = some ((stack.take count).reverse ++ above, stack.drop count) := by
  induction count generalizing stack above with
  | zero => cases stack <;> rfl
  | succ count ih =>
    cases stack with
    | nil => cases h
    | cons a stack =>
      rw [popped, ih (Nat.le_of_succ_le_succ h), List.take_succ_cons, List.reverse_cons,
        List.drop_succ_cons, List.append_assoc]
      rfl

/-- More results than there are cannot be taken off the stack. -/
lemma popped_eq_none {count : Nat} {stack : List α} (h : stack.length < count) (above : List α) :
    popped count stack above = none := by
  induction count generalizing stack above with
  | zero => cases h
  | succ count ih =>
    cases stack with
    | nil => rfl
    | cons a stack => exact ih (Nat.lt_of_succ_lt_succ h) (a :: above)

/-- A way of computing results has one for a symbol: for a leaf out of the base, and for an inner
symbol out of any results for its arguments. -/
structure Serves (result : Symbol V → List α → Except Fault α) (base : List α)
    (s : Symbol V) : Prop where
  /-- The result of a leaf. -/
  leaf : s.arity = 0 → ∃ a, result s base = .ok a
  /-- The result of an inner symbol. -/
  node : s.arity ≠ 0 → ∀ arguments, arguments.length = s.arity → ∃ a, result s arguments = .ok a

variable {result : Symbol V → List α → Except Fault α} {base : List α}

/-- A visited leaf adds a result. -/
lemma Serves.reduce_leaf {s : Symbol V} (h : Serves result base s) (hs : s.arity = 0)
    (stack : List α) : ∃ a, reduce result base stack (.leaf s) = .ok (a :: stack) := by
  obtain ⟨a, ha⟩ := h.leaf hs
  refine ⟨a, ?_⟩
  rw [reduce, ha]
  rfl

/-- A visited node is computed from the results of its arguments, which are taken off the stack. -/
lemma reduce_node {s : Symbol V} {stack : List α} (h : s.arity ≤ stack.length) :
    reduce result base stack (.node s) =
      result s (stack.take s.arity).reverse >>= fun a => .ok (a :: stack.drop s.arity) := by
  rw [reduce, popped_eq_some h, List.append_nil]
  rfl

/-- A visited node takes the results of its arguments off the stack and adds its own. -/
lemma Serves.reduce_node {s : Symbol V} (h : Serves result base s) (hs : s.arity ≠ 0)
    {stack : List α} (hstack : s.arity ≤ stack.length) :
    ∃ a, reduce result base stack (.node s) = .ok (a :: stack.drop s.arity) := by
  have hlength : (stack.take s.arity).reverse.length = s.arity := by
    rw [List.length_reverse, List.length_take, Nat.min_eq_left hstack]
  obtain ⟨a, ha⟩ := h.node hs _ hlength
  exact ⟨a, by rw [Program.reduce_node hstack, ha]; rfl⟩

end Program

namespace Walk

open Program

variable {V α : Type} {result : Symbol V → List α → Except Fault α} {base : List α}

/-! ### The course of the visits -/

/-- The visits that a walk makes once a subtree inside a stack of open nodes is finished. -/
def onward (rest : List (Symbol V)) (stack : List (Open V)) : List (Visit V) :=
  match complete stack with
  | (visits, []) => visits
  | (visits, innermost :: outer) => visits ++ (through rest (innermost :: outer)).visits

/-- There is nothing to visit if the subtree has completed everything. -/
lemma onward_of_eq_nil {rest : List (Symbol V)} {stack : List (Open V)}
    (h : (complete stack).2 = []) : onward rest stack = (complete stack).1 := by
  rw [onward]
  rcases hcomplete : complete stack with ⟨visits, left⟩
  rw [hcomplete] at h
  cases h
  rfl

/-- The walk goes on if a node is still open. -/
lemma onward_of_eq_cons {rest : List (Symbol V)} {stack outer : List (Open V)} {node : Open V}
    (h : (complete stack).2 = node :: outer) :
    onward rest stack = (complete stack).1 ++ (through rest (node :: outer)).visits := by
  rw [onward]
  rcases hcomplete : complete stack with ⟨visits, left⟩
  rw [hcomplete] at h
  cases h
  rfl

@[simp] lemma onward_nil (rest : List (Symbol V)) : onward rest [] = [] := rfl

/-- A leaf is visited at once. -/
lemma visits_through_leaf {s : Symbol V} (hs : s.arity = 0) (rest : List (Symbol V))
    (stack : List (Open V)) :
    (through (s :: rest) stack).visits = .leaf s :: onward rest stack := by
  rw [through, if_pos hs, onward]
  rcases complete stack with ⟨visits, _ | ⟨innermost, outer⟩⟩ <;> rfl

/-- An inner node is opened. -/
lemma visits_through_node {s : Symbol V} (hs : s.arity ≠ 0) (rest : List (Symbol V))
    (stack : List (Open V)) :
    (through (s :: rest) stack).visits = (through rest (⟨s, s.arity⟩ :: stack)).visits := by
  rw [through, if_neg hs]
  rfl

/-! ### The number of results -/

/-- The number of results that a stack of open nodes has got so far. -/
def held (stack : List (Open V)) : Nat :=
  (stack.map fun node => node.symbol.arity - node.missing).sum

@[simp] lemma held_cons (node : Open V) (stack : List (Open V)) :
    held (node :: stack) = node.symbol.arity - node.missing + held stack := by
  rw [held, held, List.map_cons, List.sum_cons]

/-- The symbols of a stack of open nodes have results. -/
def Served (result : Symbol V → List α → Except Fault α) (base : List α)
    (stack : List (Open V)) : Prop :=
  ∀ node ∈ stack, Serves result base node.symbol

/-- The nodes that a finished subtree completes find the results of their subtrees, and leave one
result for the subtree they complete in turn. -/
lemma complete_reduce {stack : List (Open V)} (h : Waiting stack)
    (hserved : Served result base stack) {results : List α}
    (hlength : results.length = held stack + 1) :
    Served result base (complete stack).2 ∧
      ∃ results', (complete stack).1.foldlM (reduce result base) results = .ok results' ∧
        results'.length = if (complete stack).2 = [] then 1 else held (complete stack).2 := by
  induction stack generalizing results with
  | nil => exact ⟨hserved, results, rfl, hlength⟩
  | cons node outer ih =>
    obtain ⟨⟨hpos, hle⟩, houter⟩ := waiting_cons.mp h
    obtain ⟨hnode, hrest⟩ := List.forall_mem_cons.mp hserved
    rw [held_cons] at hlength
    rw [complete]
    by_cases hlast : node.missing ≤ 1
    · have henough : node.symbol.arity ≤ results.length := by omega
      obtain ⟨a, ha⟩ := hnode.reduce_node (by omega) henough
      have hleft : (a :: results.drop node.symbol.arity).length = held outer + 1 := by
        rw [List.length_cons, List.length_drop]
        omega
      obtain ⟨hserved', results', hfold, hresults'⟩ := ih houter hrest hleft
      rw [if_pos hlast]
      refine ⟨hserved', results', ?_, hresults'⟩
      rw [List.foldlM_cons, ha]
      exact hfold
    · rw [if_neg hlast]
      refine ⟨List.forall_mem_cons.mpr ⟨hnode, hrest⟩, results, rfl, ?_⟩
      rw [if_neg (List.cons_ne_nil _ outer), held_cons, hlength]
      change _ = node.symbol.arity - (node.missing - 1) + held outer
      omega

/-- A walk that begins with the results its open nodes have got finds every result it needs, and
ends with a single one if it ends. -/
lemma through_reduce {symbols : List (Symbol V)} {stack : List (Open V)} (h : Waiting stack)
    (hsymbols : ∀ s ∈ symbols, Serves result base s) (hserved : Served result base stack)
    {results : List α} (hlength : results.length = held stack) :
    ∃ results', (through symbols stack).visits.foldlM (reduce result base) results = .ok results' ∧
      ∀ size, (through symbols stack).size? = some size → results'.length = 1 := by
  induction symbols generalizing stack results with
  | nil => exact ⟨results, rfl, fun size hsize => by cases hsize⟩
  | cons s symbols ih =>
    obtain ⟨hs, hrest⟩ := List.forall_mem_cons.mp hsymbols
    by_cases harity : s.arity = 0
    · obtain ⟨a, ha⟩ := hs.reduce_leaf harity results
      have hmore : (a :: results).length = held stack + 1 := by
        rw [List.length_cons, hlength]
      obtain ⟨hserved', results', hfold, hresults'⟩ := complete_reduce h hserved hmore
      rcases complete_cases h with ⟨hnil, -⟩ | ⟨node, outer, hcons, hwaiting, -⟩
      · rw [hnil, if_pos rfl] at hresults'
        refine ⟨results', ?_, fun size _ => hresults'⟩
        rw [visits_through_leaf harity, onward_of_eq_nil hnil, List.foldlM_cons, ha]
        exact hfold
      · rw [hcons] at hserved'
        rw [hcons, if_neg (List.cons_ne_nil node outer)] at hresults'
        obtain ⟨results'', hfold', hone⟩ := ih hwaiting hrest hserved' hresults'
        refine ⟨results'', ?_, fun size hsize => ?_⟩
        · rw [visits_through_leaf harity, onward_of_eq_cons hcons, List.foldlM_cons, ha]
          change ((complete stack).1 ++ _).foldlM _ (a :: results) = _
          rw [List.foldlM_append, hfold]
          exact hfold'
        · rw [size?_through_leaf harity, hcons, if_neg (List.cons_ne_nil node outer)] at hsize
          obtain ⟨size', hsize', -⟩ := Option.map_eq_some_iff.mp hsize
          exact hone size' hsize'
    · have hheld : results.length = held (⟨s, s.arity⟩ :: stack) := by
        rw [held_cons, hlength]
        change _ = s.arity - s.arity + held stack
        omega
      obtain ⟨results', hfold, hone⟩ := ih (waiting_open harity h) hrest
        (List.forall_mem_cons.mpr ⟨hs, hserved⟩) hheld
      rw [visits_through_node harity]
      refine ⟨results', hfold, fun size hsize => ?_⟩
      rw [size?_through_node harity] at hsize
      obtain ⟨size', hsize', -⟩ := Option.map_eq_some_iff.mp hsize
      exact hone size' hsize'

end Walk

namespace Program

open Places

variable {V α : Type} {result : Symbol V → List α → Except Fault α} {base : List α}

/-! ### The outcome for a listing -/

/-- The results along the root subtree of a listing whose symbols all have one. -/
lemma walk_reduce {p : Program V} (hserves : ∀ s ∈ p.symbols, Serves result base s) :
    ∃ results, (p.walk 0).visits.foldlM (reduce result base) [] = .ok results ∧
      ∀ size, (p.walk 0).size? = some size → results.length = 1 :=
  Walk.through_reduce Walk.waiting_nil hserves (fun node hnode => by cases hnode) rfl

/-- The walk through a listing that fills one place takes all of it. -/
lemma size?_walk {p : Program V} (h : Fills p.symbols 1) : (p.walk 0).size? = some p.size := by
  have hthrough := Walk.size?_through_append Walk.waiting_nil h []
  rwa [List.append_nil] at hthrough

/-- A listing that fills one place has the results that its visits leave. -/
lemma along_of_fills {p : Program V} {results : List α} (h : Fills p.symbols 1)
    (hfold : (p.walk 0).visits.foldlM (reduce result base) [] = .ok results) :
    p.along result base = .ok results := by
  have hpos : 0 < p.size := h.length_pos
  rw [along, hfold, lastOf, size?_walk h]
  change (if 0 + p.size - 1 + 1 = p.size then _ else _) = _
  rw [if_pos (by omega)]
  rfl

/-- A listing that is too short asks for the first symbol that is not there, unless one of its
visits fails. -/
lemma along_of_fill {p : Program V} {left : Nat} {results : List α}
    (h : fill p.symbols 1 = ([], left + 1))
    (hfold : (p.walk 0).visits.foldlM (reduce result base) [] = .ok results) :
    p.along result base = .error (.missingSymbol p.size p.size) := by
  have hsize : (p.walk 0).size? = none := Walk.size?_through_eq_none Walk.waiting_nil h
  rw [along, hfold, lastOf, hsize, Nat.zero_max]
  rfl

/-- A listing that goes on after its root subtree breaks off at the end of the subtree, unless one
of its visits fails. -/
lemma along_of_append {p : Program V} {used rest : List (Symbol V)} {s : Symbol V}
    {results : List α} (h : p.symbols = used ++ s :: rest) (hused : Fills used 1)
    (hfold : (p.walk 0).visits.foldlM (reduce result base) [] = .ok results) :
    p.along result base = .error (.leftOver (used.length - 1) p.size) := by
  have hsize : (p.walk 0).size? = some used.length := by
    rw [walk, Walk.ofListing, List.drop_zero, h]
    exact Walk.size?_through_append Walk.waiting_nil hused (s :: rest)
  have hlength : p.size = used.length + (rest.length + 1) := by
    rw [size, h, List.length_append, List.length_cons]
  rw [along, hfold, lastOf, hsize]
  change (if 0 + used.length - 1 + 1 = p.size then _ else _) = _
  have hne : 0 + used.length - 1 + 1 ≠ p.size := by
    have hpos : 0 < used.length := hused.length_pos
    omega
  rw [if_neg hne, Nat.zero_add]

/-- A listing that fills one place has a result if its symbols do. -/
lemma along_eq_singleton {p : Program V} (h : Fills p.symbols 1)
    (hserves : ∀ s ∈ p.symbols, Serves result base s) :
    ∃ a, p.along result base = .ok [a] := by
  obtain ⟨results, hfold, hone⟩ := walk_reduce hserves
  obtain ⟨a, rfl⟩ := List.length_eq_one_iff.mp (hone _ (size?_walk h))
  exact ⟨a, along_of_fills h hfold⟩

/-- Only a listing that fills one place has results. -/
lemma fills_of_along_eq_ok {p : Program V} {results : List α}
    (h : p.along result base = .ok results) : Fills p.symbols 1 := by
  obtain ⟨stack, -, h⟩ := bind_eq_ok.mp h
  obtain ⟨last, hlast, h⟩ := bind_eq_ok.mp h
  obtain ⟨sub, rest, hdrop, hsub, hend⟩ :=
    exists_of_subtreeEnd_eq_ok (show p.subtreeEnd 0 = _ from hlast)
  rw [List.drop_zero] at hdrop
  by_cases hsize : last + 1 = p.size
  · have hlength : p.size = sub.length + rest.length := by
      rw [size, hdrop, List.length_append]
    have hnil : rest = [] := List.eq_nil_of_length_eq_zero (by omega)
    rw [hdrop, hnil, List.append_nil]
    exact hsub
  · rw [if_neg hsize] at h
    cases h

/-! ### Values and texts -/

/-- Only a listing that fills one place has a value. -/
lemma fills_of_evaluate_eq_ok {p : Program V} {inputs : List V} {value : V}
    (h : p.evaluate inputs = .ok value) : Fills p.symbols 1 := by
  obtain ⟨results, hresults, -⟩ := bind_eq_ok.mp h
  exact fills_of_along_eq_ok hresults

/-- Every symbol can be written around the texts of its arguments. -/
lemma serves_write [Printed V] (s : Symbol V) : Serves Symbol.write [] s where
  leaf hs := by
    cases s with
    | operator name rule => cases hs
    | _ => exact ⟨_, rfl⟩
  node hs arguments hlength := by
    cases s with
    | operator name rule =>
      obtain ⟨a, b, rfl⟩ := List.length_eq_two.mp hlength
      exact ⟨_, rfl⟩
    | _ => exact ⟨_, rfl⟩

/-- A listing that fills one place has a text. -/
lemma exists_text_eq_ok [Printed V] {p : Program V} (h : Fills p.symbols 1) :
    ∃ text, p.text = .ok text := by
  obtain ⟨text, htext⟩ := along_eq_singleton h fun s _ => serves_write s
  have hempty : ¬ p.isEmpty = true := by
    rw [isEmpty, List.isEmpty_iff_length_eq_zero]
    exact Nat.ne_of_gt h.length_pos
  refine ⟨text, ?_⟩
  rw [Program.text, if_neg hempty, htext]
  rfl

end Program

end TreeEvolution
