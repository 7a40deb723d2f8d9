import Mathlib.Data.List.Basic
import TreeEvolution.Proofs.Outcomes
import TreeEvolution.Vocabulary

/-!
# What a vocabulary holds

However a vocabulary is extended, its terminals are leaves, its functions are inner symbols, and its
inputs are among those that were declared (`Vocabulary.Proper`).  Every addition preserves this,
also one that is refused halfway (`Vocabulary.Proper.after`).

The symbols that a vocabulary supplies to programs are its functions and what its terminals become
in a program: a random constant gets a value of its recipe there, and any other terminal stays as it
is (`Symbol.Realises`).  A leaf that is supplied lacks a value on enough inputs only because of the
reading of a sensor (`Vocabulary.Supplies.exists_sensor`).
-/

namespace TreeEvolution

namespace Symbol

variable {V σ : Type}

/-- A symbol is what a terminal becomes in a program. -/
def Realises (s terminal : Symbol V) : Prop :=
  match terminal with
  | random name recipe _ => ∃ value, recipe.Gives value ∧ s = random name recipe (some value)
  | _ => s = terminal

/-- A terminal keeps its number of arguments. -/
lemma Realises.arity_eq {s terminal : Symbol V} (h : s.Realises terminal) :
    s.arity = terminal.arity := by
  cases terminal with
  | random name recipe value =>
    obtain ⟨drawn, -, rfl⟩ := h
    rfl
  | _ =>
    rw [show s = _ from h]

/-- The symbol that takes the place of a terminal is what the terminal becomes. -/
lemma realise_yields [WordSource σ] (terminal : Symbol V) :
    Draw.Yields (terminal.realise : Draw σ (Option (Symbol V)))
      fun realised => (realised.getD terminal).Realises terminal := by
  cases terminal with
  | random name recipe value =>
    refine (recipe.follow_yields).bind fun drawn hdrawn => Draw.Yields.pure ?_
    exact ⟨drawn, hdrawn, rfl⟩
  | _ => exact Draw.Yields.pure rfl

/-- A symbol has a value on any arguments, as many as it takes. -/
def Answers (s : Symbol V) : Prop :=
  ∀ arguments, arguments.length = s.arity → ∃ value, s.apply arguments = .ok value

end Symbol

namespace Vocabulary

variable {V : Type}

/-! ### Additions -/

/-- A request to extend a vocabulary. -/
inductive Addition (V : Type) where
  /-- One symbol. -/
  | add (s : Symbol V)
  /-- Several symbols, up to the first that is refused. -/
  | addAll (symbols : List (Symbol V))

/-- The vocabulary after a request, which may have been refused. -/
def Addition.perform (v : Vocabulary V) : Addition V → Vocabulary V
  | add s =>
    match v.add s with
    | .ok extended => extended
    | .error _ => v
  | addAll symbols => (v.addAll symbols).2

/-- The vocabulary after some requests, one after the other. -/
def after (additions : List (Addition V)) (v : Vocabulary V) : Vocabulary V :=
  additions.foldl Addition.perform v

/-- The symbols of a vocabulary stand where they belong. -/
structure Proper (v : Vocabulary V) (inputs : Nat) : Prop where
  /-- Programs have the declared number of inputs. -/
  inputs_eq : v.inputs = inputs
  /-- Terminals are leaves. -/
  arity_of_terminal : ∀ s ∈ v.terminals, s.arity = 0
  /-- Functions are inner symbols. -/
  arity_of_function : ∀ s ∈ v.functions, s.arity ≠ 0
  /-- Inputs are declared. -/
  index_lt : ∀ s ∈ v.terminals, ∀ index, s.inputIndex? = some index → index < inputs

/-- A new vocabulary is proper. -/
lemma proper_of_ofInputs {inputs : Nat} {names : List String} {v : Vocabulary V}
    (h : ofInputs inputs names = .ok v) : v.Proper inputs := by
  have hinput : ∀ s ∈ inputSymbols (V := V) inputs names, ∃ name index,
      index < inputs ∧ s = .input name index := by
    intro s hs
    obtain ⟨index, hindex, rfl⟩ := List.mem_map.mp hs
    exact ⟨_, index, List.mem_range.mp hindex, rfl⟩
  unfold ofInputs at h
  split at h
  · cases h
    refine ⟨rfl, ?_, (fun s hs => by cases hs), ?_⟩
    · intro s hs
      obtain ⟨name, index, -, rfl⟩ := hinput s hs
      rfl
    · intro s hs index hindex
      obtain ⟨name, position, hposition, rfl⟩ := hinput s hs
      cases hindex
      exact hposition
  · cases h

namespace Proper

variable {v extended : Vocabulary V} {inputs : Nat}

/-- A vocabulary that was extended by a symbol is proper. -/
lemma add (h : v.Proper inputs) {s : Symbol V} (hadd : v.add s = .ok extended) :
    extended.Proper inputs := by
  have hindex : ∀ index, v.outOfRange? s = none → s.inputIndex? = some index →
      index < inputs := by
    intro index hnone hs
    rw [outOfRange?, hs, Option.filter_some] at hnone
    have hlt : ¬ v.inputs ≤ index := by simpa using hnone
    rw [h.inputs_eq] at hlt
    omega
  unfold Vocabulary.add at hadd
  split at hadd
  · cases hadd
  · rename_i hnone
    cases hadd
    split
    · rename_i harity
      refine ⟨h.inputs_eq, h.arity_of_terminal, ?_, h.index_lt⟩
      exact List.forall_mem_append.mpr
        ⟨h.arity_of_function, List.forall_mem_singleton.mpr (Nat.ne_of_gt harity)⟩
    · rename_i harity
      refine ⟨h.inputs_eq, ?_, h.arity_of_function, ?_⟩
      · exact List.forall_mem_append.mpr
          ⟨h.arity_of_terminal, List.forall_mem_singleton.mpr (Nat.eq_zero_of_not_pos harity)⟩
      · exact List.forall_mem_append.mpr
          ⟨h.index_lt, List.forall_mem_singleton.mpr fun index => hindex index hnone⟩

/-- A vocabulary that was extended by several symbols is proper. -/
lemma addAll (h : v.Proper inputs) (symbols : List (Symbol V)) :
    (v.addAll symbols).2.Proper inputs := by
  induction symbols generalizing v with
  | nil => exact h
  | cons s symbols ih =>
    rw [Vocabulary.addAll]
    rcases hadd : v.add s with e | extended
    · exact h
    · exact ih (h.add hadd)

/-- A vocabulary is proper after a request. -/
lemma perform (h : v.Proper inputs) (addition : Addition V) :
    (addition.perform v).Proper inputs := by
  cases addition with
  | add s =>
    rw [Addition.perform]
    rcases hadd : v.add s with e | extended
    · exact h
    · exact h.add hadd
  | addAll symbols => exact h.addAll symbols

/-- A vocabulary is proper after any requests. -/
lemma after (h : v.Proper inputs) (additions : List (Addition V)) :
    (v.after additions).Proper inputs := by
  induction additions generalizing v with
  | nil => exact h
  | cons addition additions ih => exact ih (h.perform addition)

end Proper

/-! ### Symbols for programs -/

/-- A symbol that a vocabulary supplies to programs. -/
inductive Supplies (v : Vocabulary V) (s : Symbol V) : Prop where
  /-- A leaf that a terminal has become. -/
  | leaf {terminal : Symbol V} (mem : terminal ∈ v.terminals) (realises : s.Realises terminal)
  /-- An inner symbol. -/
  | inner (mem : s ∈ v.functions)

namespace Supplies

variable {v : Vocabulary V} {inputs : Nat} {s : Symbol V}

/-- A leaf that is supplied comes from a terminal. -/
lemma exists_terminal (h : v.Supplies s) (hv : v.Proper inputs) (hs : s.arity = 0) :
    ∃ terminal ∈ v.terminals, s.Realises terminal := by
  cases h with
  | leaf hmem hrealises => exact ⟨_, hmem, hrealises⟩
  | inner hmem => exact absurd hs (hv.arity_of_function s hmem)

/-- An inner symbol that is supplied is a function. -/
lemma mem_functions (h : v.Supplies s) (hv : v.Proper inputs) (hs : s.arity ≠ 0) :
    s ∈ v.functions := by
  cases h with
  | leaf hmem hrealises =>
    exact absurd (hrealises.arity_eq.trans (hv.arity_of_terminal _ hmem)) hs
  | inner hmem => exact hmem

/-- A leaf that is supplied has a value on enough inputs, unless it is a sensor whose reading
fails. -/
lemma exists_sensor (h : v.Supplies s) (hv : v.Proper inputs) (hs : s.arity = 0)
    {values : List V} (hvalues : inputs ≤ values.length) {f : Fault}
    (hf : s.apply values = .error f) : ∃ name, .sensor name (.error f) ∈ v.terminals := by
  obtain ⟨terminal, hmem, hrealises⟩ := h.exists_terminal hv hs
  have harity := hv.arity_of_terminal terminal hmem
  have hindex := hv.index_lt terminal hmem
  cases terminal with
  | constant name value =>
    rw [show s = _ from hrealises] at hf
    cases hf
  | sensor name reading =>
    rw [show s = _ from hrealises] at hf
    cases show reading = .error f from hf
    exact ⟨name, hmem⟩
  | input name index =>
    have hlt : index < values.length := Nat.lt_of_lt_of_le (hindex index rfl) hvalues
    rw [show s = _ from hrealises, Symbol.apply, List.getElem?_eq_getElem hlt] at hf
    cases hf
  | random name recipe value =>
    obtain ⟨drawn, -, rfl⟩ := hrealises
    cases hf
  | function name arity rule arity_pos => exact absurd harity (Nat.ne_of_gt arity_pos)
  | operator name rule => cases harity

end Supplies

end Vocabulary

end TreeEvolution
