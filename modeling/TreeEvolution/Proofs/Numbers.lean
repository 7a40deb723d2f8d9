import Mathlib.Data.Int.Order.Basic
import Mathlib.Data.Prod.Lex

/-!
# The order of numbers

Floating-point comparison is no order, since what is not a number compares with nothing.  Among all
other values it is a total preorder: numbers have a rank in a linear order, and they compare as
their ranks do (`Number.le_iff`, `Number.lt_iff`).  The two zeros have the same rank.

The laws below ask for numbers only where no comparison says that there are some.
-/

namespace TreeEvolution.Number

open Float.Model

/-! ### Ranks -/

/-- Where a number stands: its kind and sign first, then its exponent and its mantissa, which count
downwards below zero.  What is not a number stands nowhere. -/
def rankUnpacked? : UnpackedFloat → Option (ℤ ×ₗ ℤ ×ₗ ℤ)
  | .infinity .negative => some (toLex (-2, toLex (0, 0)))
  | .finite .negative mantissa exponent _ => some (toLex (-1, toLex (-exponent, -mantissa)))
  | .zero _ => some (toLex (0, toLex (0, 0)))
  | .finite .positive mantissa exponent _ => some (toLex (1, toLex (exponent, mantissa)))
  | .infinity .positive => some (toLex (2, toLex (0, 0)))
  | .notANumber => none

/-- The rank of a floating-point value, if it is a number. -/
def rank? (x : Float) : Option (ℤ ×ₗ ℤ ×ₗ ℤ) :=
  rankUnpacked? x.toModel.unpack

/-- Negative goes before positive. -/
lemma compare_signs (s s' : UnpackedFloat.Sign) :
    compare s s' = match s, s' with
      | .negative, .positive => .lt
      | .positive, .negative => .gt
      | .negative, .negative => .eq
      | .positive, .positive => .eq := by
  cases s <;> cases s' <;> rfl

-- The kinds and signs of two values settle how they compare, except for finite values of the same
-- sign: these are compared by exponent and mantissa, as their ranks are.

/-- Unpacked values are in strict order exactly if their ranks are. -/
lemma lt_iff_rankUnpacked? {a b : UnpackedFloat} :
    a.lt b = true ↔ ∃ r ∈ rankUnpacked? a, ∃ s ∈ rankUnpacked? b, r < s := by
  rcases a with (_ | _) | _ | _ | ⟨_ | _, m, e, hm⟩ <;>
    rcases b with (_ | _) | _ | _ | ⟨_ | _, m', e', hm'⟩ <;>
    dsimp only [UnpackedFloat.lt, UnpackedFloat.compare, rankUnpacked?] <;>
    simp [Prod.Lex.lt_iff, compare_signs, Ordering.then_eq_lt, Ordering.then_eq_gt,
      compare_lt_iff_lt, compare_gt_iff_gt]

/-- Unpacked values are in order exactly if their ranks are. -/
lemma le_iff_rankUnpacked? {a b : UnpackedFloat} :
    a.le b = true ↔ ∃ r ∈ rankUnpacked? a, ∃ s ∈ rankUnpacked? b, r ≤ s := by
  rcases a with (_ | _) | _ | _ | ⟨_ | _, m, e, hm⟩ <;>
    rcases b with (_ | _) | _ | _ | ⟨_ | _, m', e', hm'⟩ <;>
    dsimp only [UnpackedFloat.le, UnpackedFloat.compare, rankUnpacked?] <;>
    simp [Prod.Lex.le_iff, compare_signs, Ordering.isLE_iff_ne_gt, Ordering.isGE_iff_ne_lt,
      Ordering.then_eq_lt, Ordering.then_eq_gt, compare_lt_iff_lt, compare_gt_iff_gt] <;>
    omega

variable {x y z : Float}

/-- Values are in order exactly if they have ranks that are. -/
lemma le_iff : x ≤ y ↔ ∃ r ∈ rank? x, ∃ s ∈ rank? y, r ≤ s := by
  change decide (x.toModel.le y.toModel = true) = true ↔ _
  rw [decide_eq_true_iff]
  exact le_iff_rankUnpacked?

/-- Values are in strict order exactly if they have ranks that are. -/
lemma lt_iff : x < y ↔ ∃ r ∈ rank? x, ∃ s ∈ rank? y, r < s := by
  change decide (x.toModel.lt y.toModel = true) = true ↔ _
  rw [decide_eq_true_iff]
  exact lt_iff_rankUnpacked?

/-- Numbers have a rank, and nothing else has. -/
lemma isNaN_eq_false_iff : x.isNaN = false ↔ ∃ r, r ∈ rank? x := by
  change x.toModel.unpack.isNaN = false ↔ ∃ r, r ∈ rankUnpacked? x.toModel.unpack
  rcases x.toModel.unpack with (_ | _) | _ | _ | ⟨_ | _, _, _, _⟩
  case notANumber => exact iff_of_false Bool.true_eq_false_eq_False fun ⟨_, h⟩ => nomatch h
  all_goals exact iff_of_true rfl ⟨_, rfl⟩

/-! ### Laws of the order -/

/-- Values of which one is at most the other are numbers. -/
lemma isNaN_eq_false_of_le (h : x ≤ y) : x.isNaN = false ∧ y.isNaN = false := by
  obtain ⟨r, hr, s, hs, -⟩ := le_iff.mp h
  exact ⟨isNaN_eq_false_iff.mpr ⟨r, hr⟩, isNaN_eq_false_iff.mpr ⟨s, hs⟩⟩

/-- Values of which one is less than the other are numbers. -/
lemma isNaN_eq_false_of_lt (h : x < y) : x.isNaN = false ∧ y.isNaN = false := by
  obtain ⟨r, hr, s, hs, -⟩ := lt_iff.mp h
  exact ⟨isNaN_eq_false_iff.mpr ⟨r, hr⟩, isNaN_eq_false_iff.mpr ⟨s, hs⟩⟩

/-- A number is at most itself. -/
protected lemma le_refl (hx : x.isNaN = false) : x ≤ x := by
  obtain ⟨r, hr⟩ := isNaN_eq_false_iff.mp hx
  exact le_iff.mpr ⟨r, hr, r, hr, le_refl r⟩

protected lemma le_of_lt (h : x < y) : x ≤ y := by
  obtain ⟨r, hr, s, hs, hlt⟩ := lt_iff.mp h
  exact le_iff.mpr ⟨r, hr, s, hs, le_of_lt hlt⟩

protected lemma le_trans (h : x ≤ y) (h' : y ≤ z) : x ≤ z := by
  obtain ⟨r, hr, s, hs, hle⟩ := le_iff.mp h
  obtain ⟨s', hs', t, ht, hle'⟩ := le_iff.mp h'
  cases Option.mem_unique hs hs'
  exact le_iff.mpr ⟨r, hr, t, ht, le_trans hle hle'⟩

protected lemma lt_of_le_of_lt (h : x ≤ y) (h' : y < z) : x < z := by
  obtain ⟨r, hr, s, hs, hle⟩ := le_iff.mp h
  obtain ⟨s', hs', t, ht, hlt⟩ := lt_iff.mp h'
  cases Option.mem_unique hs hs'
  exact lt_iff.mpr ⟨r, hr, t, ht, lt_of_le_of_lt hle hlt⟩

protected lemma not_le_of_lt (h : x < y) : ¬ y ≤ x := fun h' => by
  obtain ⟨r, hr, s, hs, hlt⟩ := lt_iff.mp (Number.lt_of_le_of_lt h' h)
  cases Option.mem_unique hr hs
  exact lt_irrefl r hlt

/-- A number that is not at most another one is greater. -/
protected lemma lt_of_not_le (hx : x.isNaN = false) (hy : y.isNaN = false) (h : ¬ x ≤ y) :
    y < x := by
  obtain ⟨r, hr⟩ := isNaN_eq_false_iff.mp hx
  obtain ⟨s, hs⟩ := isNaN_eq_false_iff.mp hy
  exact lt_iff.mpr ⟨s, hs, r, hr, lt_of_not_ge fun hle => h (le_iff.mpr ⟨r, hr, s, hs, hle⟩)⟩

end TreeEvolution.Number
