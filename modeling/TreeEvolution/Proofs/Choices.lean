import Mathlib.Data.List.Basic
import TreeEvolution.Proofs.Outcomes
import TreeEvolution.Random.Listed

/-!
# Which choices can be drawn

A random choice always has a value, since a word that is rejected is followed by another one
(`Random.element_failsOnly`).  Every member of a list can be the one that is chosen: the least word
whose product with the number of members reaches a given number of full turns is never rejected
(`Random.exists_word_element`).
-/

namespace TreeEvolution

variable {σ α : Type}

namespace Random

variable [WordSource σ]

/-! ### Choices do not fail -/

/-- The word that is drawn is the next one of the source. -/
lemma outcome_word64 (source : σ) :
    (RandomWords.word64 : Draw σ UInt64).outcome source =
      (.ok (WordSource.next64 source).1, (WordSource.next64 source).2) := rfl

/-- Drawing words does not fail, however many are rejected. -/
lemma firstAccepted_failsOnly (accept : UInt64 → Bool) (budget : Nat) (Q : Failure → Prop) :
    Draw.FailsOnly (firstAccepted RandomWords.word64 accept budget : Draw σ UInt64) Q := by
  induction budget with
  | zero => exact Draw.FailsOnly.word64
  | succ budget ih =>
    refine Draw.FailsOnly.word64.bind fun word => ?_
    split
    · exact Draw.FailsOnly.pure word
    · exact ih

/-- Choosing a number does not fail. -/
lemma below_failsOnly (n : Nat) (hn : 0 < n) (Q : Failure → Prop) :
    Draw.FailsOnly (below n hn : Draw σ (Fin n)) Q :=
  (firstAccepted_failsOnly _ _ Q).bind fun _ => Draw.FailsOnly.pure _

/-- Choosing an element of a list does not fail. -/
lemma element_failsOnly (l : List α) (hl : l ≠ []) (Q : Failure → Prop) :
    Draw.FailsOnly (element l hl : Draw σ { a : α // a ∈ l }) Q :=
  (below_failsOnly _ _ Q).bind fun _ => Draw.FailsOnly.pure _

/-- Choosing a number between two others does not fail. -/
lemma between_failsOnly (lo hi : Nat) (Q : Failure → Prop) :
    Draw.FailsOnly (between lo hi : Draw σ Nat) Q :=
  (below_failsOnly _ _ Q).bind fun _ => Draw.FailsOnly.pure _

/-- A random number of the unit interval can always be drawn. -/
lemma unit_failsOnly (Q : Failure → Prop) : Draw.FailsOnly (unit : Draw σ Float) Q :=
  Draw.FailsOnly.word64.bind fun _ => Draw.FailsOnly.pure _

/-- A coin whose probability lies in the unit interval does not fail. -/
lemma coin_failsOnly {p : Float} (h : 0 ≤ p ∧ p ≤ 1) (Q : Failure → Prop) :
    Draw.FailsOnly (Draw.coin p : Draw σ Bool) Q := by
  unfold Draw.coin coin
  rw [if_pos h]
  split
  · exact Draw.FailsOnly.pure true
  · exact Draw.FailsOnly.word64.bind fun _ => Draw.FailsOnly.pure _

/-! ### Words that choose -/

/-- Every choice is made by some word, which is not rejected. -/
lemma exists_choosing {n j : Nat} (hj : j < n) (hn : n < UInt64.size) :
    ∃ word : UInt64, word.toNat * n / UInt64.size = j ∧
      accepts UInt64.size n word.toNat = true := by
  -- the least word whose product with `n` reaches `j` full turns
  obtain ⟨w, r, hw, hr⟩ : ∃ w r, w * n = j * UInt64.size + r ∧ r < n := by
    refine ⟨(j * UInt64.size + (n - 1)) / n,
      n - 1 - (j * UInt64.size + (n - 1)) % n, ?_, by omega⟩
    have hdiv := Nat.div_add_mod (j * UInt64.size + (n - 1)) n
    have hmod := Nat.mod_lt (j * UInt64.size + (n - 1)) (Nat.zero_lt_of_lt hj)
    rw [Nat.mul_comm n] at hdiv
    omega
  have hlt : w < UInt64.size := by
    by_contra hge
    have hle : UInt64.size * n ≤ w * n := Nat.mul_le_mul_right n (Nat.le_of_not_lt hge)
    have hmul : (j + 1) * UInt64.size ≤ n * UInt64.size := Nat.mul_le_mul_right _ hj
    rw [Nat.mul_comm] at hle
    rw [Nat.succ_mul] at hmul
    omega
  have hzone : n - 1 ≤ acceptanceZone UInt64.size n := by
    rw [acceptanceZone, Nat.shiftLeft_eq]
    exact Nat.sub_le_sub_right (Nat.le_mul_of_pos_right n (Nat.two_pow_pos _)) 1
  have hr' : r < UInt64.size := Nat.lt_trans hr hn
  refine ⟨UInt64.ofNatLT w hlt, ?_, ?_⟩
  · rw [UInt64.toNat_ofNatLT, hw, Nat.add_comm, Nat.add_mul_div_right _ _ (by decide),
      Nat.div_eq_of_lt hr', Nat.zero_add]
  · rw [accepts, UInt64.toNat_ofNatLT, hw, Nat.add_comm, Nat.add_mul_mod_self_right,
      Nat.mod_eq_of_lt hr']
    exact decide_eq_true (Nat.le_trans (Nat.le_sub_one_of_lt hr) hzone)

/-- A word that is accepted is the one that is drawn. -/
lemma outcome_firstAccepted {accept : UInt64 → Bool} {source : σ}
    (h : accept (WordSource.next64 source).1 = true) (budget : Nat) :
    (firstAccepted RandomWords.word64 accept budget : Draw σ UInt64).outcome source =
      (.ok (WordSource.next64 source).1, (WordSource.next64 source).2) := by
  cases budget with
  | zero => rfl
  | succ budget =>
    rw [firstAccepted, Draw.outcome_bind, outcome_word64]
    dsimp only
    rw [if_pos h]
    rfl

/-- Every member of a list is the one that is chosen, for some next word. -/
lemma exists_word_element {l : List α} (hl : l ≠ []) {a : α} (ha : a ∈ l)
    (hsize : l.length < UInt64.size) :
    ∃ word : UInt64, ∀ (words : List UInt64) (state : UInt64),
      ∃ h : a ∈ l, (element l hl : Draw ListedWords { a : α // a ∈ l }).outcome
        ⟨word :: words, state⟩ = (.ok ⟨a, h⟩, ⟨words, state⟩) := by
  obtain ⟨j, hj, rfl⟩ := List.getElem_of_mem ha
  obtain ⟨word, hword, haccepts⟩ := exists_choosing hj hsize
  have hmod : l.length % UInt64.size = l.length := Nat.mod_eq_of_lt hsize
  refine ⟨word, fun words state => ⟨ha, ?_⟩⟩
  have hdraw : (below l.length (List.length_pos_iff.mpr hl) : Draw ListedWords _).outcome
      ⟨word :: words, state⟩ = (.ok ⟨j, hj⟩, ⟨words, state⟩) := by
    rw [below, Draw.outcome_bind, outcome_firstAccepted]
    · have hchosen : chosenBelow l.length (List.length_pos_iff.mpr hl) word = ⟨j, hj⟩ := by
        rw [chosenBelow, dif_neg (by omega)]
        refine Fin.ext ?_
        change word.toNat * (l.length % UInt64.size) / UInt64.size = j
        rw [hmod, hword]
      dsimp only
      rw [Draw.outcome_pure]
      exact congrArg (fun i => (Except.ok i, _)) hchosen
    · rw [hmod]
      exact Bool.or_eq_true_iff.mpr (Or.inr haccepts)
  rw [element, Draw.outcome_bind, hdraw]
  rfl

end Random

end TreeEvolution
