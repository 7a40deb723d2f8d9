import Mathlib.Algebra.Order.Field.Power
import Mathlib.Data.Int.Log
import Mathlib.Data.Rat.Floor
import Mathlib.Tactic.FieldSimp
import Mathlib.Tactic.Linarith
import Mathlib.Tactic.Positivity
import Mathlib.Tactic.Ring
import TreeEvolution.Decimal.Shortest

/-!
# Rounding to the nearest double

The rounding of a quotient of naturals is computed from the two numbers, but it depends on their
quotient alone: so does the choice of the exponent, which is a binary logarithm
(`exponentFor_eq_log`), and so does the rounding on the grid with that exponent.  For decimals this
means that those with the same value are read as the same double
(`Scaled.nearestBits_congr`), however many zeros they end with.

A value that is that of a double is on the grid already, and rounding gives the double back
(`nearestBits_of_value_eq`).
-/

namespace TreeEvolution.Decimal

/-! ### Quotients -/

/-- A quotient of naturals that is scaled down is divided by a power of the base. -/
lemma scaleDown_value {base : Nat} (hbase : 0 < base) (num den : Nat) (shift : Int) :
    ((scaleDown base num den shift).1 : ℚ) / (scaleDown base num den shift).2 =
      num / den * (base : ℚ) ^ (-shift) := by
  have hbase' : (base : ℚ) ≠ 0 := Nat.cast_ne_zero.mpr hbase.ne'
  unfold scaleDown
  split
  · next h =>
    obtain ⟨n, rfl⟩ := Int.eq_ofNat_of_zero_le h
    simp only [Int.toNat_natCast, Nat.pow_eq, Nat.cast_mul, Nat.cast_pow,
      zpow_neg, zpow_natCast]
    rw [div_mul_eq_div_div, div_eq_mul_inv _ ((base : ℚ) ^ n)]
  · next h =>
    obtain ⟨n, hn⟩ := Int.eq_ofNat_of_zero_le (show 0 ≤ -shift by omega)
    rw [hn]
    simp only [Int.toNat_natCast, Nat.pow_eq, Nat.cast_mul, Nat.cast_pow,
      zpow_natCast]
    rw [div_mul_eq_mul_div]

/-- A quotient that is scaled down still has a denominator. -/
lemma scaleDown_den_pos {base den : Nat} (hbase : 0 < base) (hden : 0 < den) (num : Nat)
    (shift : Int) : 0 < (scaleDown base num den shift).2 := by
  unfold scaleDown
  split
  · exact Nat.mul_pos hden (Nat.pow_pos hbase)
  · exact hden

/-- A common factor does not matter to the rounding of a quotient. -/
lemma roundDiv_mul_left (tie : Tie) {k : Nat} (hk : 0 < k) (num den : Nat) :
    roundDiv tie (k * num) (k * den) = roundDiv tie num den := by
  have hcompare : compare (2 * (k * num % (k * den))) (k * den) =
      compare (2 * (num % den)) den := by
    rw [Nat.mul_mod_mul_left, Nat.mul_left_comm]
    rcases Nat.lt_trichotomy (2 * (num % den)) den with h | h | h
    · rw [compare_lt_iff_lt.mpr h, compare_lt_iff_lt]
      exact Nat.mul_lt_mul_of_pos_left h hk
    · rw [compare_eq_iff_eq.mpr h, compare_eq_iff_eq, h]
    · rw [compare_gt_iff_gt.mpr h, compare_gt_iff_gt]
      exact Nat.mul_lt_mul_of_pos_left h hk
  simp only [roundDiv]
  rw [hcompare, Nat.mul_div_mul_left num den hk]

/-- Equal quotients are rounded to the same number. -/
lemma roundDiv_congr (tie : Tie) {num den num' den' : Nat} (hden : 0 < den) (hden' : 0 < den')
    (h : (num : ℚ) / den = num' / den') : roundDiv tie num den = roundDiv tie num' den' := by
  have hcross : den' * num = den * num' := by
    rw [div_eq_div_iff (Nat.cast_ne_zero.mpr hden.ne') (Nat.cast_ne_zero.mpr hden'.ne')] at h
    have hnat : num * den' = num' * den := by exact_mod_cast h
    rw [Nat.mul_comm den' num, hnat, Nat.mul_comm]
  calc roundDiv tie num den = roundDiv tie (den' * num) (den' * den) :=
        (roundDiv_mul_left tie hden' num den).symm
    _ = roundDiv tie (den * num') (den * den') := by rw [hcross, Nat.mul_comm den' den]
    _ = roundDiv tie num' den' := roundDiv_mul_left tie hden num' den'

/-- A natural number is rounded to itself. -/
lemma roundDiv_mul_self (tie : Tie) (n : Nat) {den : Nat} (hden : 0 < den) :
    roundDiv tie (n * den) den = n := by
  have hlt : compare (2 * (n * den % den)) den = .lt := by
    rw [Nat.mul_mod_left, compare_lt_iff_lt]
    exact hden
  simp only [roundDiv, hlt]
  exact Nat.mul_div_cancel n hden

/-! ### Logarithms -/

/-- The logarithm of a number between a power and the next one. -/
lemma log_eq_of_le_of_lt {base : Nat} (hbase : 1 < base) {q : ℚ} {k : Int}
    (hle : (base : ℚ) ^ k ≤ q) (hlt : q < (base : ℚ) ^ (k + 1)) : Int.log base q = k := by
  have hpos : 0 < q := lt_of_lt_of_le (zpow_pos (by exact_mod_cast Nat.zero_lt_of_lt hbase) k) hle
  have hlower : k ≤ Int.log base q := (Int.zpow_le_iff_le_log hbase hpos).mp hle
  have hupper : Int.log base q < k + 1 := (Int.lt_zpow_iff_log_lt hbase hpos).mp hlt
  omega

namespace Binary

/-- The binary logarithms of two numbers determine that of their quotient up to one. -/
lemma log2_bounds {num den : Nat} (hnum : 0 < num) (hden : 0 < den) :
    (2 : ℚ) ^ ((num.log2 : Int) - den.log2 - 1) ≤ num / den ∧
      (num : ℚ) / den < (2 : ℚ) ^ ((num.log2 : Int) - den.log2 + 1) := by
  have hpos : (0 : ℚ) < den := Nat.cast_pos.mpr hden
  have hnum_le : (2 : ℚ) ^ (num.log2 : Int) ≤ num := by
    rw [zpow_natCast]
    exact_mod_cast Nat.log2_self_le hnum.ne'
  have hnum_lt : (num : ℚ) < 2 ^ ((num.log2 : Int) + 1) := by
    have h : num < 2 ^ (num.log2 + 1) := Nat.lt_log2_self
    exact_mod_cast h
  have hden_le : (2 : ℚ) ^ (den.log2 : Int) ≤ den := by
    rw [zpow_natCast]
    exact_mod_cast Nat.log2_self_le hden.ne'
  have hden_lt : (den : ℚ) < 2 ^ ((den.log2 : Int) + 1) := by
    have h : den < 2 ^ (den.log2 + 1) := Nat.lt_log2_self
    exact_mod_cast h
  constructor
  · rw [le_div_iff₀ hpos]
    calc (2 : ℚ) ^ ((num.log2 : Int) - den.log2 - 1) * den
        ≤ 2 ^ ((num.log2 : Int) - den.log2 - 1) * 2 ^ ((den.log2 : Int) + 1) := by gcongr
      _ = 2 ^ (num.log2 : Int) := by rw [← zpow_add₀ two_ne_zero]; congr 1; ring
      _ ≤ num := hnum_le
  · rw [div_lt_iff₀ hpos]
    calc (num : ℚ) < 2 ^ ((num.log2 : Int) + 1) := hnum_lt
      _ = 2 ^ ((num.log2 : Int) - den.log2 + 1) * 2 ^ (den.log2 : Int) := by
          rw [← zpow_add₀ two_ne_zero]; congr 1; ring
      _ ≤ 2 ^ ((num.log2 : Int) - den.log2 + 1) * den := by gcongr

/-- Whether a quotient that is scaled down has a significand of more than the stored bits. -/
lemma le_scaleDown_iff {num den : Nat} (hnum : 0 < num) (hden : 0 < den) (estimate : Int) :
    (scaleDown 2 num den estimate).2 * (2 * hiddenBit) ≤ (scaleDown 2 num den estimate).1 ↔
      estimate + (fractionBits + 1 : Nat) ≤ Int.log 2 ((num : ℚ) / den) := by
  have hquotient : (0 : ℚ) < num / den := div_pos (Nat.cast_pos.mpr hnum) (Nat.cast_pos.mpr hden)
  have hscaled : (0 : ℚ) < ((scaleDown 2 num den estimate).2 : Nat) :=
    Nat.cast_pos.mpr (scaleDown_den_pos Nat.two_pos hden num estimate)
  have hpower : ((2 * hiddenBit : Nat) : ℚ) * (2 : Nat) ^ estimate =
      (2 : Nat) ^ (estimate + (fractionBits + 1 : Nat)) := by
    rw [zpow_add₀ (by norm_num), mul_comm]
    norm_num [hiddenBit, fractionBits]
  rw [Nat.mul_comm, ← Nat.cast_le (α := ℚ), Nat.cast_mul, ← le_div_iff₀ hscaled,
    scaleDown_value Nat.two_pos, zpow_neg, ← div_eq_mul_inv, le_div_iff₀ (by positivity), hpower,
    Int.zpow_le_iff_le_log Nat.one_lt_two hquotient]

/-- The exponent for a quotient, by the estimate of its logarithm. -/
lemma exponentFor_of_estimate {num den : Nat} {estimate : Int}
    (h : (num.log2 : Int) - den.log2 - (fractionBits + 1 : Nat) = estimate) :
    exponentFor num den = max leastExponent
      (if (scaleDown 2 num den estimate).2 * (2 * hiddenBit) ≤ (scaleDown 2 num den estimate).1
        then estimate + 1 else estimate) := by
  subst h
  rfl

/-- The exponent for a quotient is its binary logarithm less the number of stored bits, as far as
there are exponents. -/
lemma exponentFor_eq_log {num den : Nat} (hnum : 0 < num) (hden : 0 < den) :
    exponentFor num den = max leastExponent (Int.log 2 ((num : ℚ) / den) - fractionBits) := by
  obtain ⟨hle, hlt⟩ := log2_bounds hnum hden
  have hquotient : (0 : ℚ) < num / den := div_pos (Nat.cast_pos.mpr hnum) (Nat.cast_pos.mpr hden)
  have hlower : (num.log2 : Int) - den.log2 - 1 ≤ Int.log 2 ((num : ℚ) / den) :=
    (Int.zpow_le_iff_le_log Nat.one_lt_two hquotient).mp hle
  have hupper : Int.log 2 ((num : ℚ) / den) < (num.log2 : Int) - den.log2 + 1 :=
    (Int.lt_zpow_iff_log_lt Nat.one_lt_two hquotient).mp hlt
  -- the comparison tells which of the two possible logarithms it is
  generalize hestimate : (num.log2 : Int) - den.log2 - (fractionBits + 1 : Nat) = estimate
  have htest := le_scaleDown_iff hnum hden estimate
  rw [exponentFor_of_estimate hestimate]
  split
  · next h =>
    have hlog := htest.mp h
    congr 1
    omega
  · next h =>
    have hlog := mt htest.mpr h
    congr 1
    omega

/-- The double nearest to a quotient, by its exponent. -/
lemma nearestBits_of_exponentFor {num den : Nat} (hnum : num ≠ 0) {e : Int}
    (he : exponentFor num den = e) :
    nearestBits num den = min infinityBits ((e - leastExponent).toNat * hiddenBit +
      roundDiv .toEven (scaleDown 2 num den e).1 (scaleDown 2 num den e).2) := by
  unfold nearestBits
  rw [he]
  exact if_neg hnum

/-- Equal quotients are rounded to the same double. -/
lemma nearestBits_congr {num den num' den' : Nat} (hden : 0 < den) (hden' : 0 < den')
    (h : (num : ℚ) / den = num' / den') : nearestBits num den = nearestBits num' den' := by
  have hzero : num = 0 ↔ num' = 0 := by
    have hvalue := congrArg (· = 0) h
    simpa [hden.ne', hden'.ne'] using hvalue
  by_cases hnum : num = 0
  · rw [nearestBits, nearestBits, if_pos hnum, if_pos (hzero.mp hnum)]
  · have hnum' : num' ≠ 0 := mt hzero.mpr hnum
    generalize he : exponentFor num den = e
    have he' : exponentFor num' den' = e := by
      rw [← he, exponentFor_eq_log (Nat.pos_of_ne_zero hnum) hden,
        exponentFor_eq_log (Nat.pos_of_ne_zero hnum') hden', h]
    rw [nearestBits_of_exponentFor hnum he, nearestBits_of_exponentFor hnum' he']
    congr 2
    refine roundDiv_congr _ (scaleDown_den_pos Nat.two_pos hden num e)
      (scaleDown_den_pos Nat.two_pos hden' num' e) ?_
    rw [scaleDown_value Nat.two_pos, scaleDown_value Nat.two_pos, h]

/-! ### Doubles as quotients -/

/-- The value of a finite double. -/
def value (x : Binary) : ℚ :=
  x.significand * 2 ^ x.exponent

lemma ofBits_of_eq_zero {bits : Nat} (h : bits / hiddenBit = 0) :
    ofBits bits = ⟨bits % hiddenBit, leastExponent⟩ :=
  if_pos h

lemma ofBits_of_ne_zero {bits : Nat} (h : bits / hiddenBit ≠ 0) :
    ofBits bits =
      ⟨hiddenBit + bits % hiddenBit, leastExponent + (bits / hiddenBit - 1 : Nat)⟩ :=
  if_neg h

/-- The bits of a double are those of its exponent and of its significand. -/
lemma bits_eq (bits : Nat) :
    ((ofBits bits).exponent - leastExponent).toNat * hiddenBit + (ofBits bits).significand =
      bits := by
  have hdiv := Nat.div_add_mod bits hiddenBit
  by_cases h : bits / hiddenBit = 0
  · rw [h, Nat.mul_zero] at hdiv
    rw [ofBits_of_eq_zero h, sub_self, Int.toNat_zero, Nat.zero_mul]
    exact hdiv
  · obtain ⟨n, hn⟩ := Nat.exists_eq_succ_of_ne_zero h
    rw [ofBits_of_ne_zero h, add_sub_cancel_left, Int.toNat_natCast, hn, Nat.succ_sub_one]
    rw [hn] at hdiv
    calc n * hiddenBit + (hiddenBit + bits % hiddenBit)
        = hiddenBit * (n + 1) + bits % hiddenBit := by ring
      _ = bits := hdiv

/-- Doubles other than zero have a significand. -/
lemma significand_pos {bits : Nat} (hpos : 0 < bits) : 0 < (ofBits bits).significand := by
  have hdiv := Nat.div_add_mod bits hiddenBit
  by_cases h : bits / hiddenBit = 0
  · rw [h, Nat.mul_zero, Nat.zero_add] at hdiv
    rw [ofBits_of_eq_zero h]
    change 0 < bits % hiddenBit
    rw [hdiv]
    exact hpos
  · rw [ofBits_of_ne_zero h]
    exact Nat.add_pos_left (by decide) _

lemma value_pos {bits : Nat} (hpos : 0 < bits) : 0 < (ofBits bits).value :=
  mul_pos (Nat.cast_pos.mpr (significand_pos hpos)) (zpow_pos two_pos _)

/-- The exponent of a double is the one that is chosen for its value. -/
lemma log_value_ofBits {bits : Nat} (hpos : 0 < bits) :
    max leastExponent (Int.log 2 (ofBits bits).value - fractionBits) = (ofBits bits).exponent := by
  have hvalue := value_pos hpos
  have hfraction : ((bits % hiddenBit : Nat) : ℚ) < 2 ^ (fractionBits : Int) := by
    have hlt : bits % hiddenBit < hiddenBit := Nat.mod_lt bits (by decide)
    exact_mod_cast hlt
  have hhidden : ((hiddenBit : Nat) : ℚ) = 2 ^ (fractionBits : Int) := by
    norm_num [hiddenBit, fractionBits]
  by_cases h : bits / hiddenBit = 0
  · -- a subnormal number: its logarithm is too small for the exponents that there are
    rw [ofBits_of_eq_zero h] at hvalue ⊢
    have hlt : value ⟨bits % hiddenBit, leastExponent⟩ <
        (2 : Nat) ^ ((fractionBits : Int) + leastExponent) := by
      rw [value, Nat.cast_ofNat, zpow_add₀ two_ne_zero]
      gcongr
    have hlog := (Int.lt_zpow_iff_log_lt Nat.one_lt_two hvalue).mp hlt
    exact max_eq_left (by omega)
  · -- a normal number: the hidden bit is the leading one
    rw [ofBits_of_ne_zero h]
    generalize hexponent : leastExponent + ((bits / hiddenBit - 1 : Nat) : Int) = exponent
    have hlog : Int.log 2 (value ⟨hiddenBit + bits % hiddenBit, exponent⟩) =
        fractionBits + exponent := by
      have hnonneg : (0 : ℚ) ≤ (bits % hiddenBit : Nat) := Nat.cast_nonneg _
      refine log_eq_of_le_of_lt Nat.one_lt_two ?_ ?_
      · rw [value, Nat.cast_ofNat, zpow_add₀ two_ne_zero, Nat.cast_add, hhidden]
        gcongr
        linarith
      · rw [value, Nat.cast_ofNat, add_right_comm, zpow_add₀ two_ne_zero,
          zpow_add_one₀ two_ne_zero, Nat.cast_add, hhidden]
        gcongr
        linarith
    rw [hlog]
    change max leastExponent (fractionBits + exponent - fractionBits) = exponent
    omega

/-- The value of a finite double is rounded to the double itself. -/
lemma nearestBits_of_value_eq {bits num den : Nat} (hpos : 0 < bits)
    (hfinite : bits < infinityBits) (hden : 0 < den)
    (h : (num : ℚ) / den = (ofBits bits).value) : nearestBits num den = bits := by
  have hnum : num ≠ 0 := by
    rintro rfl
    have hvalue := value_pos hpos
    rw [← h, Nat.cast_zero, zero_div] at hvalue
    exact lt_irrefl 0 hvalue
  have hexponent : exponentFor num den = (ofBits bits).exponent := by
    rw [exponentFor_eq_log (Nat.pos_of_ne_zero hnum) hden, h, log_value_ofBits hpos]
  have hround : roundDiv .toEven (scaleDown 2 num den (ofBits bits).exponent).1
      (scaleDown 2 num den (ofBits bits).exponent).2 = (ofBits bits).significand := by
    rw [← roundDiv_mul_self .toEven (ofBits bits).significand Nat.one_pos]
    refine roundDiv_congr _ (scaleDown_den_pos Nat.two_pos hden num _) Nat.one_pos ?_
    rw [scaleDown_value Nat.two_pos, h, value, Nat.cast_ofNat, zpow_neg,
      mul_inv_cancel_right₀ (zpow_ne_zero _ two_ne_zero), Nat.mul_one, Nat.cast_one, div_one]
  rw [nearestBits_of_exponentFor hnum hexponent, hround, bits_eq]
  exact Nat.min_eq_right hfinite.le

end Binary

end TreeEvolution.Decimal
