import TreeEvolution.Proofs.Program.Meaning

/-!
# The inputs that a program reads

Leaves and inner symbols are applied in the same way, leaves to the inputs of the program and inner
symbols to the values of their subtrees.  So the inputs of a program get to its value through the
leaves alone, and of these only the ones that stand for an input look at them, each at its own
index.

One direction is enough for all of it: a value that a program has on some inputs it keeps on any
others that have the same at the indices it reads (`evaluate_eq_ok_of_keeps`).  Agreement on the
indices is this in both directions, and appended inputs take away nothing that was there.
-/

namespace TreeEvolution

variable {V : Type} {inputs others : List V}

/-- Whatever some inputs have at the index that a symbol reads, other inputs have there as well. -/
def Symbol.Keeps (inputs others : List V) (s : Symbol V) : Prop :=
  ∀ i, s.inputIndex? = some i → ∀ value, inputs[i]? = some value → others[i]? = some value

namespace Symbol

/-- A leaf looks at its own index only. -/
lemma Keeps.apply_eq_ok {s : Symbol V} (h : s.Keeps inputs others) (hs : s.arity = 0) {value : V}
    (hvalue : s.apply inputs = .ok value) : s.apply others = .ok value := by
  cases s with
  | constant name constant => exact hvalue
  | sensor name reading => exact hvalue
  | random name recipe drawn => exact hvalue
  | input name index =>
    rw [apply] at hvalue ⊢
    rcases hindex : inputs[index]? with _ | found
    · rw [hindex] at hvalue
      cases hvalue
    · rw [hindex] at hvalue
      cases hvalue
      rw [h index rfl value hindex]
  | function name arity rule arity_pos => exact absurd hs (Nat.ne_of_gt arity_pos)
  | operator name rule => cases hs

/-- Inputs that agree at the index of a symbol keep what each other have there. -/
lemma keeps_of_agree {s : Symbol V}
    (h : ∀ i, s.inputIndex? = some i → inputs[i]? = others[i]?) : s.Keeps inputs others :=
  fun i hi _ hvalue => (h i hi).symm.trans hvalue

/-- Inputs are kept when others are appended. -/
lemma keeps_append (s : Symbol V) (inputs more : List V) : s.Keeps inputs (inputs ++ more) := by
  intro i _ value hvalue
  have hi : i < inputs.length := (List.getElem?_eq_some_iff.mp hvalue).1
  rw [List.getElem?_append_left hi, hvalue]

end Symbol

namespace Tree

/-- Results of several trees are the same on other inputs if those of each tree are. -/
lemma alongEach_eq_ok_of_forall {trees : List (Tree V)} {values : List V}
    (h : ∀ t ∈ trees, ∀ value, t.value inputs = .ok value → t.value others = .ok value)
    (hvalues : alongEach Symbol.apply inputs trees = .ok values) :
    alongEach Symbol.apply others trees = .ok values := by
  rw [alongEach_eq_ok_iff] at hvalues ⊢
  induction hvalues with
  | nil => exact .nil
  | cons hvalue _ ih =>
    obtain ⟨ht, htrees⟩ := List.forall_mem_cons.mp h
    exact .cons (ht _ hvalue) (ih htrees)

/-- A sound tree keeps its value on inputs that keep what its symbols read. -/
lemma value_eq_ok_of_keeps {t : Tree V} (ht : t.Sound)
    (h : ∀ s ∈ t.listing, s.Keeps inputs others) {value : V} (hvalue : t.value inputs = .ok value) :
    t.value others = .ok value := by
  induction t generalizing value with
  | node s children ih =>
    cases ht with
    | node harity heach =>
      rw [listing_node] at h
      obtain ⟨hs, hlistings⟩ := List.forall_mem_cons.mp h
      rw [Tree.value, along_node] at hvalue ⊢
      obtain ⟨values, hvalues, happly⟩ := bind_eq_ok.mp hvalue
      have hsame : alongEach Symbol.apply others children = .ok values :=
        alongEach_eq_ok_of_forall (fun u hu _ => ih u hu (heach u hu) fun r hr =>
          hlistings r (mem_listings.mpr ⟨u, hu, hr⟩)) hvalues
      refine bind_eq_ok.mpr ⟨values, hsame, ?_⟩
      -- the root is applied to the inputs only if there are no subtrees
      cases children with
      | nil => exact hs.apply_eq_ok harity happly
      | cons u rest => exact happly

end Tree

namespace Program

/-- A program keeps its value on inputs that keep what its symbols read. -/
lemma evaluate_eq_ok_of_keeps {p : Program V} (h : ∀ s ∈ p.symbols, s.Keeps inputs others)
    {value : V} (hvalue : p.evaluate inputs = .ok value) : p.evaluate others = .ok value := by
  obtain ⟨t, ht, hlisting⟩ := Tree.fills_one_iff.mp (fills_of_evaluate_eq_ok hvalue)
  obtain rfl : p = ⟨t.listing⟩ := by rw [hlisting]
  rw [evaluate_listing ht] at hvalue ⊢
  exact t.value_eq_ok_of_keeps ht h hvalue

/-- **Programs read their own inputs only.**  If inputs agree wherever a symbol of a program reads
one, in that both have the same value there or both have none, then the program has the same value
on both or fails on both.  In particular, a value stays the same when further inputs are
appended. -/
theorem evaluation_reads_own_inputs (p : Program V) :
    (∀ inputs others : List V,
      (∀ s ∈ p.symbols, ∀ i, s.inputIndex? = some i → inputs[i]? = others[i]?) →
      (∃ value, p.evaluate inputs = .ok value ∧ p.evaluate others = .ok value) ∨
        ∃ f g, p.evaluate inputs = .error f ∧ p.evaluate others = .error g) ∧
    ∀ (inputs more : List V) (value : V), p.evaluate inputs = .ok value →
      p.evaluate (inputs ++ more) = .ok value := by
  refine ⟨fun inputs others h => ?_, fun inputs more value =>
    evaluate_eq_ok_of_keeps fun s _ => s.keeps_append inputs more⟩
  have hthere {value : V} : p.evaluate inputs = .ok value → p.evaluate others = .ok value :=
    evaluate_eq_ok_of_keeps fun s hs => Symbol.keeps_of_agree (h s hs)
  have hback {value : V} : p.evaluate others = .ok value → p.evaluate inputs = .ok value :=
    evaluate_eq_ok_of_keeps fun s hs => Symbol.keeps_of_agree fun i hi => (h s hs i hi).symm
  rcases hinputs : p.evaluate inputs with f | value
  · rcases hothers : p.evaluate others with g | value
    · exact Or.inr ⟨f, g, rfl, rfl⟩
    · rw [hback hothers] at hinputs
      cases hinputs
  · exact Or.inl ⟨value, rfl, hthere hinputs⟩

/-- The conjunction of the first input and the negated third one. -/
def skipping : Program Bool :=
  ⟨[Boolean.conjunction, .input "x" 0, Boolean.negation, .input "z" 2]⟩

/-- The second input does not matter to this program, and neither does a fourth one.  Without a
third input it fails, whatever the second one is. -/
theorem skipping_reads_first_and_third :
    skipping.evaluate [true, true, false] = .ok true ∧
      skipping.evaluate [true, false, false] = .ok true ∧
      skipping.evaluate [true, true, false, true] = .ok true ∧
      (∃ f, skipping.evaluate [true] = .error f) ∧
      ∃ f, skipping.evaluate [true, false] = .error f := by
  obtain ⟨hagree, happend⟩ := evaluation_reads_own_inputs skipping
  have hvalue : skipping.evaluate [true, true, false] = .ok true := rfl
  have hsame : ∀ s ∈ skipping.symbols, ∀ i, s.inputIndex? = some i →
      [true, true, false][i]? = [true, false, false][i]? := by
    simp [skipping, Symbol.inputIndex?, Boolean.conjunction, Boolean.negation]
  have hlack : ∀ s ∈ skipping.symbols, ∀ i, s.inputIndex? = some i →
      [true][i]? = [true, false][i]? := by
    simp [skipping, Symbol.inputIndex?, Boolean.conjunction, Boolean.negation]
  refine ⟨hvalue, ?_, happend _ [true] _ hvalue, ?_⟩
  · obtain ⟨value, hfirst, hsecond⟩ | ⟨f, g, hf, -⟩ := hagree _ _ hsame
    · rw [hvalue] at hfirst
      cases hfirst
      exact hsecond
    · cases hf
  · obtain ⟨value, hfirst, -⟩ | ⟨f, g, hf, hg⟩ := hagree _ _ hlack
    · cases hfirst
    · exact ⟨⟨f, hf⟩, g, hg⟩

end Program

end TreeEvolution
