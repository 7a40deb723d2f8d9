import Mathlib.Tactic.Lemma
import TreeEvolution.Random.Recipe

/-!
# Outcomes of computations

Rules for reasoning about computations that may fail.  A computation without random words that ends
in a value has had a value at each of its steps (`bind_eq_ok`).  For random computations the
predicate `Draw.Yields` says that every value that can be drawn has a property, whatever the words
of the source are; there is one rule for each way of building a random computation, so that
properties of whole programs of draws are derived from properties of the single draws.  The
predicate `Draw.FailsOnly` says the same of the failures.

`Recipe.Gives` relates a recipe to the values that it can end in, and `Recipe.Lasting` says that it
ends in one.
-/

namespace TreeEvolution

variable {σ α β ε : Type}

/-! ### Computations without random words -/

/-- A sequence of two computations has a value exactly if both have. -/
lemma bind_eq_ok {x : Except ε α} {next : α → Except ε β} {b : β} :
    x >>= next = .ok b ↔ ∃ a, x = .ok a ∧ next a = .ok b := by
  constructor
  · intro h
    cases x with
    | ok a => exact ⟨a, rfl, h⟩
    | error e => cases h
  · rintro ⟨a, rfl, h⟩
    exact h

/-- A sequence of two computations fails where the first of them fails, or else the second. -/
lemma bind_eq_error {x : Except ε α} {next : α → Except ε β} {e : ε} :
    x >>= next = .error e ↔ x = .error e ∨ ∃ a, x = .ok a ∧ next a = .error e := by
  constructor
  · intro h
    cases x with
    | ok a => exact Or.inr ⟨a, rfl, h⟩
    | error e' =>
      cases h
      exact Or.inl rfl
  · rintro (rfl | ⟨a, rfl, h⟩)
    · rfl
    · exact h

/-- Steps taken one after the other fail exactly if one of them fails on what those before it have
come to. -/
lemma foldlM_eq_error {step : β → α → Except ε β} {steps : List α} {b : β} {e : ε} :
    steps.foldlM step b = .error e ↔
      ∃ before a after b', steps = before ++ a :: after ∧ before.foldlM step b = .ok b' ∧
        step b' a = .error e := by
  induction steps generalizing b with
  | nil =>
    constructor
    · intro h
      cases h
    · rintro ⟨before, a, after, b', hsplit, -⟩
      simp at hsplit
  | cons first steps ih =>
    rw [List.foldlM_cons, bind_eq_error]
    constructor
    · rintro (h | ⟨next, hnext, h⟩)
      · exact ⟨[], first, steps, b, rfl, rfl, h⟩
      · obtain ⟨before, a, after, b', rfl, hbefore, ha⟩ := ih.mp h
        refine ⟨first :: before, a, after, b', rfl, ?_, ha⟩
        rw [List.foldlM_cons, hnext]
        exact hbefore
    · rintro ⟨before, a, after, b', hsplit, hbefore, ha⟩
      cases before with
      | nil =>
        cases hsplit
        cases hbefore
        exact Or.inl ha
      | cons other before =>
        cases hsplit
        rw [List.foldlM_cons] at hbefore
        obtain ⟨next, hnext, hbefore⟩ := bind_eq_ok.mp hbefore
        exact Or.inr ⟨next, hnext, ih.mpr ⟨before, a, after, b', rfl, hbefore, ha⟩⟩

namespace Draw

/-! ### Random computations -/

@[simp] lemma outcome_pure (a : α) (source : σ) :
    (pure a : Draw σ α).outcome source = (.ok a, source) := rfl

@[simp] lemma outcome_fault (f : Fault) (source : σ) :
    (fault f : Draw σ α).outcome source = (.error f, source) := rfl

@[simp] lemma outcome_error (e : Error) (source : σ) :
    (error e : Draw σ α).outcome source = (.error e, source) := rfl

/-- The second of two random computations goes on with the value and the source that the first one
leaves. -/
lemma outcome_bind (draw : Draw σ α) (next : α → Draw σ β) (source : σ) :
    (draw >>= next).outcome source =
      match draw.outcome source with
      | (.ok a, rest) => (next a).outcome rest
      | (.error f, rest) => (.error f, rest) := by
  change (match ExceptT.run draw source with
    | (r, rest) => (ExceptT.bindCont next r).run rest) = _
  rcases h : ExceptT.run draw source with ⟨_ | a, rest⟩ <;>
    rw [show draw.outcome source = _ from h] <;> rfl

/-- A sequence of two random computations has a value exactly if both have. -/
lemma outcome_bind_eq_ok {draw : Draw σ α} {next : α → Draw σ β} {source rest : σ} {b : β} :
    (draw >>= next).outcome source = (.ok b, rest) ↔
      ∃ a between, draw.outcome source = (.ok a, between) ∧
        (next a).outcome between = (.ok b, rest) := by
  rw [outcome_bind]
  constructor
  · intro h
    rcases hdraw : draw.outcome source with ⟨f | a, between⟩
    · rw [hdraw] at h
      cases h
    · rw [hdraw] at h
      exact ⟨a, between, rfl, h⟩
  · rintro ⟨a, between, hdraw, h⟩
    rw [hdraw]
    exact h

/-- A sequence of two random computations fails where the first of them fails, or else the
second. -/
lemma outcome_bind_eq_error {draw : Draw σ α} {next : α → Draw σ β} {source rest : σ}
    {f : Failure} :
    (draw >>= next).outcome source = (.error f, rest) ↔
      draw.outcome source = (.error f, rest) ∨
        ∃ a between, draw.outcome source = (.ok a, between) ∧
          (next a).outcome between = (.error f, rest) := by
  rw [outcome_bind]
  constructor
  · intro h
    rcases hdraw : draw.outcome source with ⟨g | a, between⟩
    · rw [hdraw] at h
      cases h
      exact Or.inl rfl
    · rw [hdraw] at h
      exact Or.inr ⟨a, between, rfl, h⟩
  · rintro (hdraw | ⟨a, between, hdraw, h⟩)
    · rw [hdraw]
    · rw [hdraw]
      exact h

/-- Repeated draws fail exactly if one of them fails after those before it have had values. -/
lemma outcome_times_eq_error {draw : Draw σ α} {count : Nat} {source rest : σ} {f : Failure} :
    (times draw count).outcome source = (.error f, rest) ↔
      ∃ k < count, ∃ values between, (times draw k).outcome source = (.ok values, between) ∧
        draw.outcome between = (.error f, rest) := by
  induction count generalizing source with
  | zero =>
    constructor
    · intro h
      cases h
    · rintro ⟨k, hk, -⟩
      cases hk
  | succ count ih =>
    rw [times, outcome_bind_eq_error]
    constructor
    · rintro (h | ⟨first, between, hfirst, h⟩)
      · exact ⟨0, Nat.succ_pos count, [], source, rfl, h⟩
      · rcases outcome_bind_eq_error.mp h with h | ⟨others, after, -, h⟩
        · obtain ⟨k, hk, values, after, hvalues, h⟩ := ih.mp h
          refine ⟨k + 1, Nat.succ_lt_succ hk, first :: values, after, ?_, h⟩
          exact outcome_bind_eq_ok.mpr
            ⟨first, between, hfirst, outcome_bind_eq_ok.mpr ⟨values, after, hvalues, rfl⟩⟩
        · cases h
    · rintro ⟨k, hk, values, between, hvalues, h⟩
      cases k with
      | zero =>
        cases hvalues
        exact Or.inl h
      | succ k =>
        obtain ⟨first, after, hfirst, hvalues⟩ := outcome_bind_eq_ok.mp hvalues
        obtain ⟨others, last, hothers, hlast⟩ := outcome_bind_eq_ok.mp hvalues
        cases hlast
        refine Or.inr ⟨first, after, hfirst, outcome_bind_eq_error.mpr (Or.inl ?_)⟩
        exact ih.mpr ⟨k, Nat.lt_of_succ_lt_succ hk, others, between, hothers, h⟩

/-- Every value that a random computation can have has a property, whatever the words of the
source. -/
def Yields (draw : Draw σ α) (P : α → Prop) : Prop :=
  ∀ source a rest, draw.outcome source = (.ok a, rest) → P a

/-- A random computation can have a value, for some words of the source. -/
def CanBe (draw : Draw σ α) (a : α) : Prop :=
  ∃ source rest, draw.outcome source = (.ok a, rest)

namespace Yields

variable {draw : Draw σ α} {P Q : α → Prop} {R : β → Prop}

lemma pure {a : α} (h : P a) : Yields (Pure.pure a : Draw σ α) P := by
  intro source b rest hb
  rw [outcome_pure] at hb
  cases hb
  exact h

lemma fault (f : Fault) : Yields (Draw.fault f : Draw σ α) P := by
  intro source a rest ha
  rw [outcome_fault] at ha
  cases ha

lemma error (e : Error) : Yields (Draw.error e : Draw σ α) P := by
  intro source a rest ha
  rw [outcome_error] at ha
  cases ha

/-- What a computation has for a value is what it can have. -/
lemma canBe (draw : Draw σ α) : Yields draw draw.CanBe :=
  fun source _ rest ha => ⟨source, rest, ha⟩

lemma trivial (draw : Draw σ α) : Yields draw fun _ => True :=
  fun _ _ _ _ => True.intro

lemma mono (h : Yields draw P) (hPQ : ∀ a, P a → Q a) : Yields draw Q :=
  fun source a rest ha => hPQ a (h source a rest ha)

lemma and (h : Yields draw P) (h' : Yields draw Q) : Yields draw fun a => P a ∧ Q a :=
  fun source a rest ha => ⟨h source a rest ha, h' source a rest ha⟩

lemma bind {next : α → Draw σ β} (h : Yields draw P) (hnext : ∀ a, P a → Yields (next a) R) :
    Yields (draw >>= next) R := by
  intro source b rest hb
  obtain ⟨a, between, hdraw, hb⟩ := outcome_bind_eq_ok.mp hb
  exact hnext a (h source a between hdraw) between b rest hb

/-- A draw whose values do not matter. -/
lemma bind_any {next : α → Draw σ β} (hnext : ∀ a, Yields (next a) R) :
    Yields (draw >>= next) R :=
  (trivial draw).bind fun a _ => hnext a

/-- A computation without random words yields what its value is. -/
lemma settled {x : Except Fault α} (h : ∀ a, x = .ok a → P a) :
    Yields (Draw.settled x : Draw σ α) P := by
  cases x with
  | ok a => exact pure (h a rfl)
  | error f => exact fault f

/-- A draw may go on in any way that is the same for the values that it yields. -/
lemma bind_congr {next other : α → Draw σ β} (h : Yields draw P)
    (hnext : ∀ a, P a → next a = other a) : draw >>= next = draw >>= other := by
  funext source
  change (draw >>= next).outcome source = (draw >>= other).outcome source
  rw [outcome_bind, outcome_bind]
  rcases hdraw : draw.outcome source with ⟨f | a, between⟩
  · rfl
  · exact congrArg (fun draw : Draw σ β => draw.outcome between)
      (hnext a (h source a between hdraw))

/-- A draw may go on with the value of a computation without random words. -/
lemma bind_settled {x : Except Fault α} {next : α → Draw σ β}
    (hnext : ∀ a, x = .ok a → Yields (next a) R) : Yields (Draw.settled x >>= next) R :=
  (settled fun _ ha => ha).bind hnext

/-- A condition holds after it has been required. -/
lemma require {condition : Bool} {f : Fault} :
    Yields (Draw.require condition f : Draw σ Unit) fun _ => condition = true := by
  cases condition with
  | true => exact pure rfl
  | false => exact fault f

/-- Repeated draws yield as many values, each with the property of one draw. -/
lemma times (h : Yields draw P) (count : Nat) :
    Yields (Draw.times draw count) fun values => values.length = count ∧ ∀ a ∈ values, P a := by
  induction count with
  | zero => exact pure ⟨rfl, fun a ha => by cases ha⟩
  | succ count ih =>
    refine h.bind fun a ha => ih.bind fun values hvalues => pure ⟨?_, ?_⟩
    · rw [List.length_cons, hvalues.1]
    · exact List.forall_mem_cons.mpr ⟨ha, hvalues.2⟩

end Yields

/-- A computation without random words may go on with what its value is known to be. -/
lemma settled_eq_bind {x : Except Fault α} {b : α} (h : ∀ a, x = .ok a → a = b) :
    (settled x : Draw σ α) = (do let _ ← settled x; pure b) := by
  cases x with
  | ok a =>
    rw [h a rfl]
    rfl
  | error f => rfl

/-- Every failure that a random computation can end in has a property, whatever the words of the
source are. -/
def FailsOnly (draw : Draw σ α) (Q : Failure → Prop) : Prop :=
  ∀ source f rest, draw.outcome source = (.error f, rest) → Q f

/-- A random computation can end in a failure, for some words of the source. -/
def CanFail (draw : Draw σ α) (f : Failure) : Prop :=
  ∃ source rest, draw.outcome source = (.error f, rest)

namespace FailsOnly

variable {draw : Draw σ α} {P : α → Prop} {Q : Failure → Prop}

/-- What a computation fails with is what it can fail with. -/
lemma canFail (draw : Draw σ α) : FailsOnly draw draw.CanFail :=
  fun source _ rest hf => ⟨source, rest, hf⟩

lemma mono {Q' : Failure → Prop} (h : FailsOnly draw Q) (hQ : ∀ f, Q f → Q' f) :
    FailsOnly draw Q' :=
  fun source f rest hf => hQ f (h source f rest hf)

lemma pure (a : α) : FailsOnly (Pure.pure a : Draw σ α) Q := by
  intro source f rest h
  cases h

/-- A computation that does not fail in any way has a value. -/
lemma exists_outcome_eq_ok (h : FailsOnly draw fun _ => False) (source : σ) :
    ∃ a rest, draw.outcome source = (.ok a, rest) := by
  rcases hdraw : draw.outcome source with ⟨f | a, rest⟩
  · exact (h source f rest hdraw).elim
  · exact ⟨a, rest, rfl⟩

lemma error {e : Error} (h : Q (.error e)) : FailsOnly (Draw.error e : Draw σ α) Q := by
  intro source f rest hf
  cases hf
  exact h

/-- A computation without random words that has a value does not fail. -/
lemma settled {x : Except Fault α} (h : ∃ a, x = .ok a) :
    FailsOnly (Draw.settled x : Draw σ α) Q := by
  obtain ⟨a, rfl⟩ := h
  exact pure a

/-- A computation without random words fails with what its fault is. -/
lemma settled_of {x : Except Fault α} (h : ∀ f, x = .error f → Q (.fault f)) :
    FailsOnly (Draw.settled x : Draw σ α) Q := by
  cases x with
  | ok a => exact pure a
  | error f =>
    intro source g rest hg
    cases hg
    exact h f rfl

/-- A condition that holds may be required. -/
lemma require_of {condition : Bool} {fault : Fault} (h : condition = true) :
    FailsOnly (Draw.require condition fault : Draw σ Unit) Q := by
  rw [h]
  exact pure ()

lemma require {condition : Bool} {fault : Fault} (h : Q (.fault fault)) :
    FailsOnly (Draw.require condition fault : Draw σ Unit) Q := by
  intro source f rest hf
  unfold Draw.require at hf
  split at hf
  · cases hf
  · cases hf
    exact h

lemma bind {next : α → Draw σ β} (h : FailsOnly draw Q) (hnext : ∀ a, FailsOnly (next a) Q) :
    FailsOnly (draw >>= next) Q := by
  intro source f rest hf
  rcases outcome_bind_eq_error.mp hf with hf | ⟨a, between, -, hf⟩
  · exact h source f rest hf
  · exact hnext a between f rest hf

/-- The second of two computations need not fail in any other way for values that the first one
yields. -/
lemma bind_of_yields {next : α → Draw σ β} (h : FailsOnly draw Q) (hP : Yields draw P)
    (hnext : ∀ a, P a → FailsOnly (next a) Q) : FailsOnly (draw >>= next) Q := by
  intro source f rest hf
  rcases outcome_bind_eq_error.mp hf with hf | ⟨a, between, hdraw, hf⟩
  · exact h source f rest hf
  · exact hnext a (hP source a between hdraw) between f rest hf

/-- After a computation without random words only its value matters. -/
lemma bind_settled {x : Except Fault α} {next : α → Draw σ β} (h : ∃ a, x = .ok a)
    (hnext : ∀ a, x = .ok a → FailsOnly (next a) Q) : FailsOnly (Draw.settled x >>= next) Q :=
  (settled h).bind_of_yields (Yields.settled fun _ ha => ha) hnext

/-- A word of 32 bits can always be drawn. -/
lemma word32 [WordSource σ] : FailsOnly (RandomWords.word32 : Draw σ UInt32) Q := by
  intro source f rest hf
  cases hf

/-- A word of 64 bits can always be drawn. -/
lemma word64 [WordSource σ] : FailsOnly (RandomWords.word64 : Draw σ UInt64) Q := by
  intro source f rest hf
  cases hf

lemma times (h : FailsOnly draw Q) (count : Nat) : FailsOnly (Draw.times draw count) Q := by
  intro source f rest hf
  obtain ⟨k, -, values, between, -, hf⟩ := outcome_times_eq_error.mp hf
  exact h between f rest hf

end FailsOnly

end Draw

namespace Recipe

/-! ### Values of recipes -/

/-- A value that a recipe ends in for some words. -/
inductive Gives : Recipe α → α → Prop where
  /-- The value is settled. -/
  | done (value : α) : Gives (done value) value
  /-- The value is given after a word of 32 bits. -/
  | ask32 {next : UInt32 → Recipe α} {value : α} (word : UInt32) (h : Gives (next word) value) :
      Gives (ask32 next) value
  /-- The value is given after a word of 64 bits. -/
  | ask64 {next : UInt64 → Recipe α} {value : α} (word : UInt64) (h : Gives (next word) value) :
      Gives (ask64 next) value

/-- Whoever follows a recipe draws a value that it gives. -/
lemma follow_yields [WordSource σ] (recipe : Recipe α) :
    Draw.Yields (recipe.follow : Draw σ α) recipe.Gives := by
  induction recipe with
  | done value => exact Draw.Yields.pure (Gives.done value)
  | broken f => exact Draw.Yields.fault f
  | ask32 next ih => exact Draw.Yields.bind_any fun word => (ih word).mono fun _ => Gives.ask32 word
  | ask64 next ih => exact Draw.Yields.bind_any fun word => (ih word).mono fun _ => Gives.ask64 word

/-! ### Recipes that end in a value -/

/-- A recipe that is not broken off, whatever the words are. -/
def Lasting : Recipe α → Prop
  | done _ => True
  | broken _ => False
  | ask32 next => ∀ word, (next word).Lasting
  | ask64 next => ∀ word, (next word).Lasting

/-- Whoever follows such a recipe does not fail. -/
lemma Lasting.follow_failsOnly [WordSource σ] {recipe : Recipe α} (h : recipe.Lasting)
    {Q : Failure → Prop} : Draw.FailsOnly (recipe.follow : Draw σ α) Q := by
  induction recipe with
  | done value => exact Draw.FailsOnly.pure value
  | broken f => exact h.elim
  | ask32 next ih => exact Draw.FailsOnly.word32.bind fun word => ih word (h word)
  | ask64 next ih => exact Draw.FailsOnly.word64.bind fun word => ih word (h word)

end Recipe

end TreeEvolution
