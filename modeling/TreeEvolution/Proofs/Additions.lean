import Mathlib.Data.List.TakeWhile
import TreeEvolution.Proofs.Vocabulary
import TreeEvolution.Symbol.Boolean

/-!
# How a vocabulary grows

A request to extend a vocabulary adds its symbols up to the first one that stands for an input
beyond the declared ones, and leaves out that one and all others after it (`granted_or_refused`).
What is added goes to the end of its list.  So after any requests the terminals are the symbols of
the inputs, followed by the leaves that were accepted, and the functions are the inner symbols that
were accepted, all in the order in which they came (`after_eq_followedBy`).  Since nothing is ever
put in front of the symbols of the inputs, they are found where they were at the beginning
(`input_followedBy`).
-/

namespace TreeEvolution

/-- Whether a symbol stands for nothing beyond the declared inputs. -/
def Symbol.declared {V : Type} (inputs : Nat) (s : Symbol V) : Bool :=
  s.inputIndex?.all (· < inputs)

namespace Vocabulary

variable {V : Type}

/-! ### Symbols at the end -/

/-- A vocabulary with further symbols, each at the end of the list to which it belongs. -/
def followedBy (v : Vocabulary V) (symbols : List (Symbol V)) : Vocabulary V where
  inputs := v.inputs
  terminals := v.terminals ++ symbols.filter fun s => s.arity = 0
  functions := v.functions ++ symbols.filter fun s => 0 < s.arity

section Growth

variable {v : Vocabulary V} {s : Symbol V} {symbols : List (Symbol V)}

/-- No further symbols make no difference. -/
lemma followedBy_nil (v : Vocabulary V) : v.followedBy [] = v := by
  simp [followedBy]

/-- Further symbols may come one list after the other. -/
lemma followedBy_followedBy (v : Vocabulary V) (symbols more : List (Symbol V)) :
    (v.followedBy symbols).followedBy more = v.followedBy (symbols ++ more) := by
  simp [followedBy]

/-- Further symbols do not declare inputs. -/
lemma inputs_followedBy (v : Vocabulary V) (symbols : List (Symbol V)) :
    (v.followedBy symbols).inputs = v.inputs := rfl

/-- A symbol is declared, or it stands for an input beyond the declared ones. -/
lemma declared_or_exists_le (inputs : Nat) (s : Symbol V) :
    s.declared inputs = true ∨ ∃ index, s.inputIndex? = some index ∧ inputs ≤ index := by
  rw [Symbol.declared]
  rcases s.inputIndex? with _ | index
  · exact Or.inl rfl
  · rcases Nat.lt_or_ge index inputs with hlt | hle
    · exact Or.inl (decide_eq_true hlt)
    · exact Or.inr ⟨index, rfl, hle⟩

/-- No symbol is both. -/
lemma declared_eq_false {inputs index : Nat} (hindex : s.inputIndex? = some index)
    (hle : inputs ≤ index) : s.declared inputs = false := by
  rw [Symbol.declared, hindex]
  exact decide_eq_false (Nat.not_lt.mpr hle)

/-- A declared symbol is added at the end. -/
lemma add_of_declared (h : s.declared v.inputs = true) : v.add s = .ok (v.followedBy [s]) := by
  have hnone : v.outOfRange? s = none := by
    rw [outOfRange?, Option.filter_eq_none_iff]
    intro index hindex
    rw [Symbol.declared, hindex] at h
    simpa using h
  rw [add, hnone]
  by_cases harity : 0 < s.arity
  · have hzero : ¬ s.arity = 0 := Nat.ne_of_gt harity
    simp [followedBy, harity, hzero]
  · have hzero : s.arity = 0 := Nat.eq_zero_of_not_pos harity
    simp [followedBy, hzero]

/-- A symbol for an input beyond the declared ones is refused. -/
lemma add_of_le {index : Nat} (hindex : s.inputIndex? = some index) (hle : v.inputs ≤ index) :
    v.add s = .error (.variableOutOfRange index v.inputs) := by
  have hsome : v.outOfRange? s = some index := by
    rw [outOfRange?, hindex, Option.filter_some, if_pos (decide_eq_true hle)]
  rw [add, hsome]

/-- Declared symbols are added at the end. -/
lemma addAll_of_declared (h : ∀ s ∈ symbols, s.declared v.inputs = true) :
    v.addAll symbols = (none, v.followedBy symbols) := by
  induction symbols generalizing v with
  | nil => rw [addAll, followedBy_nil]
  | cons s symbols ih =>
    obtain ⟨hs, hsymbols⟩ := List.forall_mem_cons.mp h
    rw [addAll, add_of_declared hs]
    dsimp only
    rw [ih (v := v.followedBy [s]) hsymbols, followedBy_followedBy, List.singleton_append]

/-- Where a symbol is not declared, those before it are added. -/
lemma addAll_of_le {before after : List (Symbol V)} {index : Nat}
    (h : ∀ s ∈ before, s.declared v.inputs = true) (hindex : s.inputIndex? = some index)
    (hle : v.inputs ≤ index) :
    v.addAll (before ++ s :: after) =
      (some (.variableOutOfRange index v.inputs), v.followedBy before) := by
  induction before generalizing v with
  | nil => rw [List.nil_append, addAll, add_of_le hindex hle, followedBy_nil]
  | cons t before ih =>
    obtain ⟨ht, hbefore⟩ := List.forall_mem_cons.mp h
    rw [List.cons_append, addAll, add_of_declared ht]
    dsimp only
    rw [ih (v := v.followedBy [t]) hbefore hle, followedBy_followedBy, List.singleton_append,
      inputs_followedBy]

end Growth

/-! ### What comes of a request -/

namespace Addition

/-- The symbols of a request. -/
def symbols : Addition V → List (Symbol V)
  | add s => [s]
  | addAll symbols => symbols

/-- Why a request is refused, if it is. -/
def refusal (v : Vocabulary V) : Addition V → Option Error
  | add s =>
    match v.add s with
    | .ok _ => none
    | .error e => some e
  | addAll symbols => (v.addAll symbols).1

/-- The symbols of a request up to the first that stands for an input beyond the declared ones. -/
def accepted (inputs : Nat) (a : Addition V) : List (Symbol V) :=
  a.symbols.takeWhile (Symbol.declared inputs)

/-- A request is refused since one of its symbols stands for an input beyond the declared ones.
The symbols before this one have been added, and nothing else has changed. -/
structure Refused (v : Vocabulary V) (a : Addition V) (before : List (Symbol V)) (index : Nat) :
    Prop where
  /-- There are the symbols before the one that is not declared, and others after it. -/
  symbols_eq : ∃ s after, a.symbols = before ++ s :: after ∧ s.inputIndex? = some index
  /-- It is not declared. -/
  le : v.inputs ≤ index
  /-- Those before it are. -/
  declared : ∀ s ∈ before, s.declared v.inputs = true
  /-- It is what the refusal speaks of. -/
  refusal_eq : a.refusal v = some (.variableOutOfRange index v.inputs)
  /-- The symbols before it are added. -/
  perform_eq : a.perform v = v.followedBy before

/-- A request is granted, and all its symbols are added. -/
structure Granted (v : Vocabulary V) (a : Addition V) : Prop where
  /-- All symbols are declared. -/
  declared : ∀ s ∈ a.symbols, s.declared v.inputs = true
  /-- There is no refusal. -/
  refusal_eq : a.refusal v = none
  /-- The symbols are added. -/
  perform_eq : a.perform v = v.followedBy a.symbols

/-- A request for one symbol is treated like one for several. -/
lemma addAll_symbols (v : Vocabulary V) (a : Addition V) :
    v.addAll a.symbols = (a.refusal v, a.perform v) := by
  cases a with
  | add s =>
    rw [symbols, refusal, perform, Vocabulary.addAll]
    rcases v.add s with e | extended <;> rfl
  | addAll symbols => rfl

/-- Either all symbols of a list are declared, or there is a first that is not. -/
lemma split_symbols (inputs : Nat) (symbols : List (Symbol V)) :
    (∀ s ∈ symbols, s.declared inputs = true) ∨ ∃ before s after index,
      symbols = before ++ s :: after ∧ (∀ t ∈ before, t.declared inputs = true) ∧
        s.inputIndex? = some index ∧ inputs ≤ index := by
  induction symbols with
  | nil => exact Or.inl fun s hs => by cases hs
  | cons s symbols ih =>
    rcases declared_or_exists_le inputs s with hs | ⟨index, hindex, hle⟩
    · rcases ih with hall | ⟨before, t, after, index, rfl, hbefore, hindex, hle⟩
      · exact Or.inl (List.forall_mem_cons.mpr ⟨hs, hall⟩)
      · exact Or.inr ⟨s :: before, t, after, index, rfl,
          List.forall_mem_cons.mpr ⟨hs, hbefore⟩, hindex, hle⟩
    · exact Or.inr ⟨[], s, symbols, index, rfl, (fun t ht => by cases ht), hindex, hle⟩

/-- A request is granted, or it is refused at its first symbol that is not declared. -/
lemma granted_or_refused (v : Vocabulary V) (a : Addition V) :
    a.Granted v ∨ ∃ before index, a.Refused v before index := by
  have hreply := a.addAll_symbols v
  rcases split_symbols v.inputs a.symbols with
    hall | ⟨before, s, after, index, hsymbols, hbefore, hindex, hle⟩
  · rw [addAll_of_declared hall, Prod.mk.injEq] at hreply
    exact Or.inl ⟨hall, hreply.1.symm, hreply.2.symm⟩
  · rw [hsymbols, addAll_of_le hbefore hindex hle, Prod.mk.injEq] at hreply
    exact Or.inr ⟨before, index, ⟨s, after, hsymbols, hindex⟩, hle, hbefore, hreply.1.symm,
      hreply.2.symm⟩

/-- After a request the vocabulary has the symbols that were accepted at the end. -/
lemma perform_eq_followedBy (v : Vocabulary V) (a : Addition V) :
    a.perform v = v.followedBy (a.accepted v.inputs) := by
  rcases a.granted_or_refused v with h | ⟨before, index, h⟩
  · rw [h.perform_eq, accepted, List.takeWhile_eq_self_iff.mpr h.declared]
  · obtain ⟨s, after, hsymbols, hindex⟩ := h.symbols_eq
    have hs : ¬ s.declared v.inputs = true := by
      rw [declared_eq_false hindex h.le]
      exact Bool.false_ne_true
    rw [h.perform_eq, accepted, hsymbols, List.takeWhile_append_of_pos h.declared,
      List.takeWhile_cons_of_neg hs, List.append_nil]

end Addition

/-- After some requests the vocabulary has the symbols that were accepted at the end. -/
lemma after_eq_followedBy (v : Vocabulary V) (additions : List (Addition V)) :
    v.after additions = v.followedBy (additions.flatMap (Addition.accepted v.inputs)) := by
  induction additions generalizing v with
  | nil => exact (followedBy_nil v).symm
  | cons a additions ih =>
    rw [after, List.foldl_cons, ← after, ih, a.perform_eq_followedBy, inputs_followedBy,
      followedBy_followedBy, List.flatMap_cons]

/-! ### What a vocabulary is after requests -/

/-- A vocabulary of nothing but inputs, if a list can have as many symbols. -/
lemma eq_of_ofInputs {inputs : Nat} {names : List String} {v : Vocabulary V}
    (h : ofInputs inputs names = .ok v) :
    Extent.fits inputs = true ∧ v = ⟨inputs, inputSymbols inputs names, []⟩ := by
  unfold ofInputs at h
  split at h
  · cases h
    exact ⟨‹_›, rfl⟩
  · cases h

/-- The symbol of an input stands where it was at the beginning, whatever came after it. -/
lemma input_followedBy {inputs index : Nat} {names : List String} (hindex : index < inputs)
    (symbols : List (Symbol V)) :
    (followedBy ⟨inputs, inputSymbols inputs names, []⟩ symbols).input index =
      .ok (.input (names.getD index ("in" ++ toString index)) index) := by
  have hlength : index < (inputSymbols (V := V) inputs names).length := by
    simpa [inputSymbols] using hindex
  have hget : (followedBy ⟨inputs, inputSymbols inputs names, []⟩ symbols).terminals[index]? =
      some (.input (names.getD index ("in" ++ toString index)) index) := by
    rw [followedBy, List.getElem?_append_left hlength]
    simp [inputSymbols, hindex]
  rw [input, inputs_followedBy, if_pos hindex, hget]

/-- There is no symbol for an input beyond the declared ones. -/
lemma input_of_le {v : Vocabulary V} {index : Nat} (h : v.inputs ≤ index) :
    v.input index = .error (Error.variableOutOfRange index v.inputs : Failure) := by
  rw [input, if_neg (Nat.not_lt.mpr h)]

/-- A vocabulary for some inputs with their names, which has accepted further symbols. -/
structure Holds (v : Vocabulary V) (inputs : Nat) (names : List String)
    (accepted : List (Symbol V)) : Prop where
  /-- The terminals are the symbols of the inputs, and the leaves that were accepted. -/
  terminals_eq : v.terminals = inputSymbols inputs names ++ accepted.filter fun s => s.arity = 0
  /-- The functions are the inner symbols that were accepted. -/
  functions_eq : v.functions = accepted.filter fun s => 0 < s.arity
  /-- Terminals are leaves. -/
  arity_of_terminal : ∀ s ∈ v.terminals, s.arity = 0
  /-- Functions are inner symbols. -/
  arity_of_function : ∀ s ∈ v.functions, 0 < s.arity
  /-- Symbols of inputs are declared. -/
  index_lt : ∀ s ∈ v.terminals ++ v.functions, ∀ index, s.inputIndex? = some index →
    index < inputs
  /-- Each declared input has the symbol that it had at the beginning, with the name it was given,
  or else one by its position. -/
  input_eq : ∀ index < inputs,
    v.input index = .ok (.input (names.getD index ("in" ++ toString index)) index)
  /-- No other input has a symbol. -/
  input_eq_error : ∀ index, inputs ≤ index →
    v.input index = .error (Error.variableOutOfRange index inputs : Failure)

/-- Inner symbols do not stand for inputs. -/
lemma inputIndex?_eq_none {s : Symbol V} (h : s.arity ≠ 0) : s.inputIndex? = none := by
  cases s with
  | input name index => exact absurd rfl h
  | _ => rfl

/-- What comes after the symbols of the inputs does not touch them. -/
lemma holds_followedBy {inputs : Nat} {names : List String} {symbols : List (Symbol V)}
    (h : (followedBy ⟨inputs, inputSymbols inputs names, []⟩ symbols).Proper inputs) :
    (followedBy ⟨inputs, inputSymbols inputs names, []⟩ symbols).Holds inputs names symbols where
  terminals_eq := rfl
  functions_eq := rfl
  arity_of_terminal := h.arity_of_terminal
  arity_of_function s hs := Nat.pos_of_ne_zero (h.arity_of_function s hs)
  index_lt s hs index hindex := by
    rcases List.mem_append.mp hs with hterminal | hfunction
    · exact h.index_lt s hterminal index hindex
    · rw [inputIndex?_eq_none (h.arity_of_function s hfunction)] at hindex
      cases hindex
  input_eq index hindex := input_followedBy hindex symbols
  input_eq_error index hle := input_of_le hle

/-- A refused request for one symbol leaves the vocabulary as it is. -/
lemma Addition.Refused.perform_eq_self {v : Vocabulary V} {s : Symbol V}
    {before : List (Symbol V)} {index : Nat} (h : (Addition.add s).Refused v before index) :
    (Addition.add s).perform v = v := by
  obtain ⟨t, after, hsymbols, -⟩ := h.symbols_eq
  obtain rfl : before = [] := by
    rcases before with _ | ⟨u, before⟩
    · rfl
    · simp [Addition.symbols] at hsymbols
  rw [h.perform_eq, followedBy_nil]

/-- **Additions are kept in order.**  There is a vocabulary of nothing but inputs if a list can have
as many symbols, and it stays in order whatever is requested of it.  After any requests, of which
each may have been granted or refused, it has the symbols of the inputs in front and the accepted
symbols after them, each once, in the order in which they came.  Every next request is either
granted as a whole, or it is refused at its first symbol that stands for an input beyond the
declared ones, after the symbols before this one were added; a request for one symbol then changes
nothing. -/
theorem additions_are_kept_in_order (inputs : Nat) (names : List String)
    (additions : List (Addition V)) :
    ((∃ pristine : Vocabulary V, ofInputs inputs names = .ok pristine) ↔
        Extent.fits inputs = true) ∧
      ∀ pristine : Vocabulary V, ofInputs inputs names = .ok pristine →
        (pristine.after additions).Holds inputs names
          (additions.flatMap (Addition.accepted inputs)) ∧
        (∀ a : Addition V, a.Granted (pristine.after additions) ∨
          ∃ before index, a.Refused (pristine.after additions) before index) ∧
        ∀ s before index, (Addition.add s).Refused (pristine.after additions) before index →
          (Addition.add s).perform (pristine.after additions) = pristine.after additions := by
  refine ⟨?_, fun pristine hpristine => ⟨?_, fun a => a.granted_or_refused _,
    fun s before index h => h.perform_eq_self⟩⟩
  · constructor
    · rintro ⟨pristine, hpristine⟩
      exact (eq_of_ofInputs hpristine).1
    · intro hfits
      exact ⟨_, if_pos hfits⟩
  · have hproper := (proper_of_ofInputs hpristine).after additions
    obtain ⟨-, rfl⟩ := eq_of_ofInputs hpristine
    rw [after_eq_followedBy] at hproper ⊢
    exact holds_followedBy hproper

/-- Requests of which two are refused: the first halfway, and the last altogether. -/
def partlyRefused : List (Addition Bool) :=
  [.addAll [Boolean.negation, .input "y" 5, Boolean.exclusion], .add (.input "z" 0),
    .addAll [Boolean.conjunction, Boolean.constant true], .add (.input "w" 2)]

/-- Neither an input that comes twice nor the refusals make a difference to the symbols of the two
inputs in front. -/
theorem partlyRefused_are_kept_in_order :
    ∃ pristine : Vocabulary Bool, ofInputs 2 ["x"] = .ok pristine ∧
      (pristine.after partlyRefused).Holds 2 ["x"]
        [Boolean.negation, .input "z" 0, Boolean.conjunction, Boolean.constant true] ∧
      (pristine.after partlyRefused).terminals = [.input "x" 0, .input "in1" 1, .input "z" 0,
        Boolean.constant true] ∧
      (pristine.after partlyRefused).functions = [Boolean.negation, Boolean.conjunction] ∧
      (pristine.after partlyRefused).input 0 = .ok (.input "x" 0) := by
  obtain ⟨hexists, horder⟩ := additions_are_kept_in_order 2 ["x"] partlyRefused
  obtain ⟨pristine, hpristine⟩ := hexists.mpr rfl
  obtain ⟨hholds, -⟩ := horder pristine hpristine
  exact ⟨pristine, hpristine, hholds, hholds.terminals_eq, hholds.functions_eq,
    hholds.input_eq 0 Nat.two_pos⟩

end Vocabulary

end TreeEvolution
