import TreeEvolution.Proofs.Program.Results
import TreeEvolution.Proofs.Program.Tree
import TreeEvolution.Symbol.Boolean

/-!
# The stack of results

Results are computed along a walk with a stack, from which every node takes the results of its
subtrees.  The height of the stack is a matter of the visits alone: a leaf raises it by one, and a
node puts one result in the place of those of its arguments (`Visit.gain`).  So it can be found with
results that say nothing, and these are always there.  In any listing, whether or not its walk comes
to an end, the stack is high enough at every node, and it is of height one at the end
(`arity_le_counter`, `counter_walk`).

Hence a computation never lacks a result, and no symbol is applied to a wrong number of values.  An
evaluation fails only where a symbol fails by itself (`Symbol.OwnFault`), or because the listing is
not that of a tree.
-/

namespace TreeEvolution

/-! ### What a visit does to the stack -/

namespace Visit

variable {V α : Type}

/-- What a visit adds to the height of the stack: a leaf raises it by one, and a node lowers it by
one less than the number of its arguments. -/
def gain : Visit V → Int
  | leaf _ => 1
  | node s => -((s.arity : Int) - 1)

/-- The height of the stack after some visits. -/
def counter : List (Visit V) → Int
  | [] => 0
  | v :: visits => v.gain + counter visits

@[simp] lemma counter_nil : counter ([] : List (Visit V)) = 0 := rfl

@[simp] lemma counter_cons (v : Visit V) (visits : List (Visit V)) :
    counter (v :: visits) = v.gain + counter visits := rfl

/-- A leaf is visited as a leaf, and any other symbol as a node. -/
def Fits : Visit V → Prop
  | leaf s => s.arity = 0
  | node s => s.arity ≠ 0

/-- The values that a visited symbol is applied to: the base for a leaf, and for a node the topmost
results of the stack, in the order in which they were put there. -/
def operands (base stack : List α) : Visit V → List α
  | leaf _ => base
  | node s => (stack.take s.arity).reverse

end Visit

namespace Program

variable {V α : Type} {result : Symbol V → List α → Except Fault α} {base : List α}

/-- A visit needs the results of the subtrees, and changes the height of the stack by its gain. -/
lemma reduce_eq_ok {v : Visit V} {stack stack' : List α}
    (h : reduce result base stack v = .ok stack') :
    (∀ s, v = .node s → s.arity ≤ stack.length) ∧
      (stack'.length : Int) = stack.length + v.gain := by
  cases v with
  | leaf s =>
    obtain ⟨a, -, h⟩ := bind_eq_ok.mp h
    cases h
    simp [Visit.gain]
  | node s =>
    by_cases henough : s.arity ≤ stack.length
    · rw [reduce_node henough] at h
      obtain ⟨a, -, h⟩ := bind_eq_ok.mp h
      cases h
      refine ⟨fun t ht => ?_, ?_⟩
      · cases ht
        exact henough
      · simp only [List.length_cons, List.length_drop, Visit.gain]
        omega
    · rw [reduce, popped_eq_none (Nat.lt_of_not_le henough)] at h
      cases h

/-- The height of the stack is counted by the visits. -/
lemma length_of_foldlM_reduce {visits : List (Visit V)} {stack stack' : List α}
    (h : visits.foldlM (reduce result base) stack = .ok stack') :
    (stack'.length : Int) = stack.length + Visit.counter visits := by
  induction visits generalizing stack with
  | nil =>
    cases h
    simp
  | cons v visits ih =>
    rw [List.foldlM_cons] at h
    obtain ⟨next, hnext, h⟩ := bind_eq_ok.mp h
    rw [ih h, (reduce_eq_ok hnext).2, Visit.counter_cons]
    omega

end Program

namespace Walk

open Program

variable {V : Type}

/-! ### The height of the stack -/

/-- Results that say nothing are always there. -/
lemma exists_foldlM_unit (symbols : List (Symbol V)) :
    ∃ units, (ofListing symbols).visits.foldlM
        (reduce (fun (_ : Symbol V) (_ : List Unit) => .ok ()) []) [] = .ok units ∧
      ∀ size, (ofListing symbols).size? = some size → units.length = 1 :=
  through_reduce waiting_nil (fun _ _ => ⟨fun _ => ⟨(), rfl⟩, fun _ _ _ => ⟨(), rfl⟩⟩)
    (fun _ hnode => by cases hnode) rfl

/-- When a node is visited, the stack has the results of its arguments. -/
lemma arity_le_counter {symbols : List (Symbol V)} {before after : List (Visit V)} {s : Symbol V}
    (h : (ofListing symbols).visits = before ++ .node s :: after) :
    (s.arity : Int) ≤ Visit.counter before := by
  obtain ⟨units, hunits, -⟩ := exists_foldlM_unit symbols
  rw [h, List.foldlM_append] at hunits
  obtain ⟨stack, hbefore, hunits⟩ := bind_eq_ok.mp hunits
  rw [List.foldlM_cons] at hunits
  obtain ⟨next, hnode, -⟩ := bind_eq_ok.mp hunits
  have henough : s.arity ≤ stack.length := (reduce_eq_ok hnode).1 s rfl
  have hlength := length_of_foldlM_reduce hbefore
  simp only [List.length_nil] at hlength
  omega

/-- At the end of a walk there is one result. -/
lemma counter_walk {symbols : List (Symbol V)} {size : Nat}
    (h : (ofListing symbols).size? = some size) :
    Visit.counter (ofListing symbols).visits = 1 := by
  obtain ⟨units, hunits, hone⟩ := exists_foldlM_unit symbols
  have hlength := length_of_foldlM_reduce hunits
  rw [hone size h] at hlength
  simpa using hlength.symm

/-! ### The symbols that are visited -/

variable {P : Symbol V → Prop}

/-- The nodes that a finished subtree completes are open nodes. -/
lemma complete_forall {stack : List (Open V)} (h : Waiting stack)
    (hP : ∀ node ∈ stack, P node.symbol) :
    (∀ v ∈ (complete stack).1, P v.symbol ∧ v.Fits) ∧
      ∀ node ∈ (complete stack).2, P node.symbol := by
  induction stack with
  | nil => simp [complete]
  | cons node outer ih =>
    obtain ⟨⟨hpos, hle⟩, houter⟩ := waiting_cons.mp h
    obtain ⟨hnode, hrest⟩ := List.forall_mem_cons.mp hP
    rw [complete]
    by_cases hlast : node.missing ≤ 1
    · rw [if_pos hlast]
      obtain ⟨hvisits, hleft⟩ := ih houter hrest
      have hinner : node.symbol.arity ≠ 0 := by omega
      exact ⟨List.forall_mem_cons.mpr ⟨⟨hnode, hinner⟩, hvisits⟩, hleft⟩
    · rw [if_neg hlast]
      exact ⟨List.forall_mem_nil _, List.forall_mem_cons.mpr ⟨hnode, hrest⟩⟩

/-- The symbols that a walk visits are those of the listing and of the open nodes. -/
lemma through_forall {symbols : List (Symbol V)} {stack : List (Open V)} (h : Waiting stack)
    (hsymbols : ∀ s ∈ symbols, P s) (hP : ∀ node ∈ stack, P node.symbol) :
    ∀ v ∈ (through symbols stack).visits, P v.symbol ∧ v.Fits := by
  induction symbols generalizing stack with
  | nil => exact List.forall_mem_nil _
  | cons s symbols ih =>
    obtain ⟨hs, hrest⟩ := List.forall_mem_cons.mp hsymbols
    by_cases harity : s.arity = 0
    · rw [visits_through_leaf harity]
      obtain ⟨hvisits, hleft⟩ := complete_forall h hP
      refine List.forall_mem_cons.mpr ⟨⟨hs, harity⟩, ?_⟩
      rcases complete_cases h with ⟨hnil, -⟩ | ⟨node, outer, hcons, hwaiting, -⟩
      · rw [onward_of_eq_nil hnil]
        exact hvisits
      · rw [hcons] at hleft
        rw [onward_of_eq_cons hcons]
        exact List.forall_mem_append.mpr ⟨hvisits, ih hwaiting hrest hleft⟩
    · rw [visits_through_node harity]
      exact ih (waiting_open harity h) hrest (List.forall_mem_cons.mpr ⟨hs, hP⟩)

/-- A walk visits symbols of its listing, each in the way that fits it. -/
lemma of_mem_visits {symbols : List (Symbol V)} {v : Visit V}
    (hv : v ∈ (ofListing symbols).visits) : v.symbol ∈ symbols ∧ v.Fits :=
  through_forall waiting_nil (fun _ hs => hs) (List.forall_mem_nil _) v hv

end Walk

/-! ### Faults of a symbol -/

namespace Symbol

variable {V : Type}

/-- A symbol fails by itself on the values that it is applied to: its reading or its rule fails, it
stands for an input that is not there, or its value has not been drawn.  A rule is only asked about
as many values as it takes. -/
inductive OwnFault : Symbol V → List V → Fault → Prop where
  /-- A reading that fails. -/
  | sensor (name : String) (values : List V) (f : Fault) :
      OwnFault (.sensor name (.error f)) values f
  /-- An input that is not there. -/
  | input (name : String) {index : Nat} {values : List V} (h : values.length ≤ index) :
      OwnFault (.input name index) values (.unboundVariable name index values.length)
  /-- A value that has not been drawn. -/
  | random (name : String) (recipe : Recipe V) (values : List V) :
      OwnFault (.random name recipe none) values (.undrawnConstant name)
  /-- A rule that fails on its arguments. -/
  | function (name : String) {values : List V} {rule : List V → Except Fault V} {f : Fault}
      (arity_pos : 0 < values.length) (h : rule values = .error f) :
      OwnFault (.function name values.length rule arity_pos) values f
  /-- A rule that fails on its two arguments. -/
  | operator (name : String) {a b : V} {rule : V → V → Except Fault V} {f : Fault}
      (h : rule a b = .error f) : OwnFault (.operator name rule) [a, b] f

/-- A symbol that is applied to the right number of values fails by itself, if it does. -/
lemma apply_eq_error_iff {s : Symbol V} {values : List V}
    (h : s.arity ≠ 0 → values.length = s.arity) {f : Fault} :
    s.apply values = .error f ↔ s.OwnFault values f := by
  constructor
  · intro hf
    cases s with
    | constant name value => cases hf
    | sensor name reading =>
      obtain rfl : reading = .error f := hf
      exact .sensor name values f
    | input name index =>
      rw [apply] at hf
      split at hf
      · cases hf
      · rename_i hnone
        cases hf
        exact .input name (List.getElem?_eq_none_iff.mp hnone)
    | random name recipe value =>
      cases value with
      | some value => cases hf
      | none =>
        cases hf
        exact .random name recipe values
    | function name arity rule arity_pos =>
      obtain rfl : values.length = arity := h (Nat.ne_of_gt arity_pos)
      rw [apply, if_pos rfl] at hf
      exact .function name arity_pos hf
    | operator name rule =>
      obtain ⟨a, b, rfl⟩ := List.length_eq_two.mp (h (Nat.succ_ne_zero 1))
      exact .operator name hf
  · intro hf
    cases hf with
    | sensor name => rfl
    | input name hle =>
      rw [apply, List.getElem?_eq_none_iff.mpr hle]
    | random name recipe => rfl
    | function name arity_pos hrule => rw [apply, if_pos rfl, hrule]
    | operator name hrule => exact hrule

end Symbol

namespace Program

open Places

variable {V α : Type} {result : Symbol V → List α → Except Fault α} {base : List α}
variable {p : Program V} {stack : List α}

/-! ### Computations along a walk -/

/-- The computation of results along a program gets to a visit, with the stack that the visits
before it have left. -/
def Reaches (result : Symbol V → List α → Except Fault α) (base : List α) (p : Program V)
    (stack : List α) (v : Visit V) : Prop :=
  ∃ before after, (p.walk 0).visits = before ++ v :: after ∧
    before.foldlM (reduce result base) [] = .ok stack

/-- The visits that a computation gets to are those of symbols of the program. -/
lemma Reaches.mem_and_fits {v : Visit V} (h : p.Reaches result base stack v) :
    v.symbol ∈ p.symbols ∧ v.Fits := by
  obtain ⟨before, after, hvisits, -⟩ := h
  have hv : v ∈ (p.walk 0).visits := by
    rw [hvisits]
    exact List.mem_append_right before List.mem_cons_self
  exact Walk.of_mem_visits hv

/-- The results of the arguments are on the stack when a node is visited. -/
lemma Reaches.popped_eq {s : Symbol V} (h : p.Reaches result base stack (.node s)) :
    s.arity ≤ stack.length ∧
      popped s.arity stack [] =
        some ((Visit.node s).operands base stack, stack.drop s.arity) ∧
      ((Visit.node s).operands base stack).length = s.arity := by
  obtain ⟨before, after, hvisits, hbefore⟩ := h
  have hcounter := Walk.arity_le_counter hvisits
  have hlength := length_of_foldlM_reduce hbefore
  simp only [List.length_nil] at hlength
  have henough : s.arity ≤ stack.length := by omega
  refine ⟨henough, ?_, ?_⟩
  · rw [popped_eq_some henough, List.append_nil]
    rfl
  · simp [Visit.operands, henough]

/-- A visit computes the result of its symbol. -/
lemma Reaches.exists_reduce_eq {v : Visit V} (h : p.Reaches result base stack v) :
    ∃ below, reduce result base stack v =
      result v.symbol (v.operands base stack) >>= fun a => .ok (a :: below) := by
  cases v with
  | leaf s => exact ⟨stack, rfl⟩
  | node s => exact ⟨stack.drop s.arity, reduce_node h.popped_eq.1⟩

/-- A visit applies its symbol to as many values as the symbol has arguments. -/
lemma Reaches.length_operands {v : Visit V} (h : p.Reaches result base stack v)
    (hv : v.symbol.arity ≠ 0) : (v.operands base stack).length = v.symbol.arity := by
  cases v with
  | leaf s => exact absurd h.mem_and_fits.2 hv
  | node s => exact h.popped_eq.2.2

/-- In an evaluation, a visit fails only if its symbol fails by itself. -/
lemma Reaches.reduce_apply_eq_error_iff {inputs stack : List V} {v : Visit V}
    (h : p.Reaches Symbol.apply inputs stack v) {f : Fault} :
    reduce Symbol.apply inputs stack v = .error f ↔
      v.symbol.OwnFault (v.operands inputs stack) f := by
  obtain ⟨below, hreduce⟩ := h.exists_reduce_eq
  rw [hreduce, bind_eq_error, Symbol.apply_eq_error_iff h.length_operands]
  constructor
  · rintro (hf | ⟨a, -, hf⟩)
    · exact hf
    · cases hf
  · exact Or.inl

/-- When a text is put together, no visit fails. -/
lemma Reaches.exists_reduce_write_eq_ok [Printed V] {stack : List String} {v : Visit V}
    (h : p.Reaches Symbol.write [] stack v) :
    ∃ stack', reduce Symbol.write [] stack v = .ok stack' := by
  cases v with
  | leaf s =>
    obtain ⟨a, ha⟩ := (serves_write s).reduce_leaf h.mem_and_fits.2 stack
    exact ⟨a :: stack, ha⟩
  | node s =>
    obtain ⟨a, ha⟩ := (serves_write s).reduce_node h.mem_and_fits.2 h.popped_eq.1
    exact ⟨a :: stack.drop s.arity, ha⟩

/-! ### What a computation comes to -/

/-- A walk that comes to an end leaves a single result. -/
lemma counter_of_subtreeEnd {position last : Nat} (h : p.subtreeEnd position = .ok last) :
    Visit.counter (p.walk position).visits = 1 := by
  rcases hsize : (p.walk position).size? with _ | size
  · rw [subtreeEnd, lastOf, hsize] at h
    cases h
  · exact Walk.counter_walk hsize

/-- A computation that comes to its end leaves one result. -/
lemma exists_singleton_of_along (h : p.along result base = .ok stack) : ∃ a, stack = [a] := by
  obtain ⟨results, hfold, h⟩ := bind_eq_ok.mp h
  obtain ⟨last, hlast, h⟩ := bind_eq_ok.mp h
  split at h
  · cases h
    have hlength := length_of_foldlM_reduce hfold
    rw [counter_of_subtreeEnd hlast, List.length_nil] at hlength
    exact List.length_eq_one_iff.mp (by omega)
  · cases h

/-- The two ways in which a computation fails although its visits do not: the listing is too short,
or goes on after its root subtree. -/
def Malformed (p : Program V) (f : Fault) : Prop :=
  f.message? = some ("malformed expression: subtree needs element " ++ toString p.size ++ " of " ++
    toString p.size) ∨
  ∃ last : Nat, f.message? = some ("malformed expression: root subtree ends at " ++
    toString last ++ " of " ++ toString p.size ++ " opcodes")

/-- A computation whose visits do not fail comes down to whether the listing fills one place. -/
lemma along_of_foldlM
    (hfold : (p.walk 0).visits.foldlM (reduce result base) [] = .ok stack) :
    Fills p.symbols 1 ∧ p.along result base = .ok stack ∨
      ¬ Fills p.symbols 1 ∧ ∃ f, p.along result base = .error f ∧ p.Malformed f := by
  by_cases hfills : Fills p.symbols 1
  · exact Or.inl ⟨hfills, along_of_fills hfills hfold⟩
  · refine Or.inr ⟨hfills, ?_⟩
    rcases fill_cases p.symbols 1 with ⟨used, rest, hp, hused⟩ | ⟨left, hleft⟩
    · cases rest with
      | nil =>
        rw [List.append_nil] at hp
        rw [hp] at hfills
        exact absurd hused hfills
      | cons s rest => exact ⟨_, along_of_append hp hused hfold, Or.inr ⟨used.length - 1, rfl⟩⟩
    · exact ⟨_, along_of_fill hleft hfold, Or.inl rfl⟩

/-- The visits of a computation are all made, or one of them fails and breaks it off. -/
lemma foldlM_visits_cases (result : Symbol V → List α → Except Fault α) (base : List α)
    (p : Program V) :
    (∃ stack, (p.walk 0).visits.foldlM (reduce result base) [] = .ok stack) ∨
      ∃ stack v f, p.Reaches result base stack v ∧ reduce result base stack v = .error f ∧
        p.along result base = .error f := by
  rcases hfold : (p.walk 0).visits.foldlM (reduce result base) [] with f | stack
  · obtain ⟨before, v, after, stack, hvisits, hbefore, hv⟩ := foldlM_eq_error.mp hfold
    refine Or.inr ⟨stack, v, f, ⟨before, after, hvisits, hbefore⟩, hv, ?_⟩
    exact bind_eq_error.mpr (Or.inl hfold)
  · exact Or.inl ⟨stack, rfl⟩

/-- An evaluation fails because a symbol fails by itself; or else it has a value exactly if the
listing fills one place. -/
lemma evaluate_cases (p : Program V) (inputs : List V) :
    (∃ stack v f, p.Reaches Symbol.apply inputs stack v ∧
      v.symbol.OwnFault (v.operands inputs stack) f ∧ p.evaluate inputs = .error f) ∨
    (Fills p.symbols 1 ∧ ∃ value, p.evaluate inputs = .ok value) ∨
      ¬ Fills p.symbols 1 ∧ ∃ f, p.evaluate inputs = .error f ∧ p.Malformed f := by
  rcases foldlM_visits_cases Symbol.apply inputs p with ⟨stack, hfold⟩ | ⟨stack, v, f, hv, hf, h⟩
  · right
    rcases along_of_foldlM hfold with ⟨hfills, h⟩ | ⟨hfills, f, h, hf⟩
    · obtain ⟨value, rfl⟩ := exists_singleton_of_along h
      exact Or.inl ⟨hfills, value, bind_eq_ok.mpr ⟨[value], h, rfl⟩⟩
    · exact Or.inr ⟨hfills, f, bind_eq_error.mpr (Or.inl h), hf⟩
  · exact Or.inl ⟨stack, v, f, hv, hv.reduce_apply_eq_error_iff.mp hf,
      bind_eq_error.mpr (Or.inl h)⟩

/-- If no symbol that is visited fails by itself, there is a value exactly if the listing fills one
place. -/
lemma exists_evaluate_eq_ok_iff {inputs : List V}
    (h : ∀ stack v f, p.Reaches Symbol.apply inputs stack v →
      ¬ v.symbol.OwnFault (v.operands inputs stack) f) :
    (∃ value, p.evaluate inputs = .ok value) ↔ Fills p.symbols 1 := by
  constructor
  · rintro ⟨value, hvalue⟩
    exact fills_of_evaluate_eq_ok hvalue
  · intro hfills
    rcases p.evaluate_cases inputs with ⟨stack, v, f, hv, hf, -⟩ | ⟨-, hvalue⟩ | ⟨hnot, -⟩
    · exact absurd hf (h stack v f hv)
    · exact hvalue
    · exact absurd hfills hnot

/-- Every node that a computation gets to finds the results of its arguments on the stack, and is
given as many as it has arguments. -/
def Furnished (result : Symbol V → List α → Except Fault α) (base : List α)
    (p : Program V) : Prop :=
  ∀ stack s, p.Reaches result base stack (.node s) → s.arity ≤ stack.length ∧
    popped s.arity stack [] = some ((Visit.node s).operands base stack, stack.drop s.arity) ∧
      ((Visit.node s).operands base stack).length = s.arity

/-- **Faults of the computation itself do not occur.**  Take any list of symbols and any inputs.
When the list is evaluated and when its text is put together, the stack has the results of the
arguments at every node that is visited, also in a list whose walk does not come to an end.  A visit
fails only where its symbol fails by itself, and for the text none does.  A computation that comes
to its end has left one result.

So an evaluation fails because a symbol fails by itself, or with one of the two messages about the
form of the list.  If no symbol fails that is visited, then there is a value exactly if the list is
that of a tree, which for lists within the numbers of 64 bits is to say that it is well formed. -/
theorem internal_faults_do_not_occur [Printed V] (p : Program V) (inputs : List V) :
    (p.Furnished Symbol.apply inputs ∧
      (∀ stack v, p.Reaches Symbol.apply inputs stack v → v.symbol ∈ p.symbols ∧
        ∀ f, reduce Symbol.apply inputs stack v = .error f ↔
          v.symbol.OwnFault (v.operands inputs stack) f) ∧
      ∀ stack, p.along Symbol.apply inputs = .ok stack → ∃ value, stack = [value]) ∧
    (p.Furnished Symbol.write [] ∧
      (∀ stack v, p.Reaches Symbol.write [] stack v →
        ∃ stack', reduce Symbol.write [] stack v = .ok stack') ∧
      ∀ stack, p.along Symbol.write [] = .ok stack → ∃ text, stack = [text]) ∧
    (∀ f, p.evaluate inputs = .error f → p.Malformed f ∨
      ∃ stack v, p.Reaches Symbol.apply inputs stack v ∧
        v.symbol.OwnFault (v.operands inputs stack) f) ∧
    ((∀ stack v f, p.Reaches Symbol.apply inputs stack v →
        ¬ v.symbol.OwnFault (v.operands inputs stack) f) →
      ((∃ value, p.evaluate inputs = .ok value) ↔ ∃ t : Tree V, t.Sound ∧ t.listing = p.symbols) ∧
      (p.size ≤ UInt64.size →
        ((∃ value, p.evaluate inputs = .ok value) ↔ p.isWellFormed = .ok true)) ∧
      ((¬ ∃ value, p.evaluate inputs = .ok value) →
        ∃ f, p.evaluate inputs = .error f ∧ p.Malformed f)) := by
  refine ⟨⟨fun stack s h => h.popped_eq, fun stack v h => ?_, fun stack h => ?_⟩,
    ⟨fun stack s h => h.popped_eq, fun stack v h => h.exists_reduce_write_eq_ok, fun stack h => ?_⟩,
    fun f hf => ?_, fun hown => ?_⟩
  · exact ⟨h.mem_and_fits.1, fun f => h.reduce_apply_eq_error_iff⟩
  · exact exists_singleton_of_along h
  · exact exists_singleton_of_along h
  · rcases p.evaluate_cases inputs with ⟨stack, v, g, hv, hg, h⟩ | ⟨-, value, h⟩ | ⟨-, g, h, hg⟩
    · obtain rfl : g = f := Except.error.inj (h.symm.trans hf)
      exact Or.inr ⟨stack, v, hv, hg⟩
    · rw [h] at hf
      cases hf
    · obtain rfl : g = f := Except.error.inj (h.symm.trans hf)
      exact Or.inl hg
  · have hvalue := exists_evaluate_eq_ok_iff hown
    refine ⟨hvalue.trans Tree.fills_one_iff, fun hsize => hvalue.trans ?_, fun hnone => ?_⟩
    · exact ⟨fun hfills => isWellFormed_of_fills hfills hsize, fills_of_listsTrees⟩
    · rcases p.evaluate_cases inputs with ⟨stack, v, f, hv, hf, -⟩ | ⟨-, h⟩ | ⟨-, h⟩
      · exact absurd hf (hown stack v f hv)
      · exact absurd h hnone
      · exact h

/-- A conjunction that is lacking its second argument. -/
def unfinishedConjunction : Program Bool :=
  ⟨[Boolean.conjunction, Boolean.negation, .input "x" 0]⟩

/-- It is evaluated up to the negation of the input, for which no symbol fails, and then the
evaluation breaks off with a message about its form. -/
theorem unfinishedConjunction_breaks_off :
    (∀ stack v f, unfinishedConjunction.Reaches Symbol.apply [true] stack v →
        ¬ v.symbol.OwnFault (v.operands [true] stack) f) ∧
      unfinishedConjunction.size ≤ UInt64.size ∧
      (¬ ∃ value, unfinishedConjunction.evaluate [true] = .ok value) ∧
      ∃ f, unfinishedConjunction.evaluate [true] = .error f ∧
        unfinishedConjunction.Malformed f := by
  have hown : ∀ stack v f, unfinishedConjunction.Reaches Symbol.apply [true] stack v →
      ¬ v.symbol.OwnFault (v.operands [true] stack) f := by
    intro stack v f hv hf
    have happly := (Symbol.apply_eq_error_iff hv.length_operands).mpr hf
    obtain ⟨before, after, hvisits, hbefore⟩ := hv
    change [.leaf (.input "x" 0), .node Boolean.negation] = before ++ v :: after at hvisits
    obtain _ | ⟨first, _ | ⟨second, before⟩⟩ := before
    · cases hvisits
      cases happly
    · cases hvisits
      obtain rfl : [true] = stack := Except.ok.inj hbefore
      cases happly
    · simp at hvisits
  obtain ⟨-, -, -, h⟩ := internal_faults_do_not_occur unfinishedConjunction [true]
  obtain ⟨-, hwell, hmessage⟩ := h hown
  have hsize : unfinishedConjunction.size ≤ UInt64.size := by decide
  have hnone : ¬ ∃ value, unfinishedConjunction.evaluate [true] = .ok value := by
    rw [hwell hsize]
    intro htrue
    cases htrue
  exact ⟨hown, hsize, hnone, hmessage hnone⟩

end Program

end TreeEvolution
