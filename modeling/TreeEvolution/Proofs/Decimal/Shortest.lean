import TreeEvolution.Proofs.Decimal.Rounding

/-!
# Shortest decimals read back

A decimal is read as the double nearest to its value, and decimals with the same value are read
alike (`Scaled.nearestBits_congr`).  The choice of the shortest decimal of a double has three steps,
and each of them keeps what is read: a neighbour on a grid is taken only if it reads back, the exact
decimal has the value of the double, and trailing zeros do not change a value.  So the shortest
decimal is read as the double that it was chosen for (`nearestBits_shortest`).
-/

namespace TreeEvolution.Decimal

/-! ### Digits -/

/-- The number of digits of a positive number places it between two powers of ten. -/
lemma digitCount_bounds {n : Nat} (hn : 0 < n) :
    10 ^ (digitCount n - 1) ≤ n ∧ n < 10 ^ digitCount n := by
  have hcount : 0 < digitCount n := Nat.length_toDigits_pos
  refine ⟨?_, (Nat.length_toDigits_le_iff (by decide) hcount).mp (Nat.le_refl _)⟩
  rcases Nat.eq_zero_or_pos (digitCount n - 1) with hone | hmore
  · rw [hone, Nat.pow_zero]
    exact hn
  · have hnot : ¬ digitCount n ≤ digitCount n - 1 := by omega
    exact Nat.le_of_not_lt (mt (Nat.length_toDigits_le_iff (by decide) hmore).mpr hnot)

namespace Scaled

/-- The value of a decimal. -/
def value (d : Scaled) : ℚ :=
  d.digits * 10 ^ d.exponent

lemma ratio_value (d : Scaled) : (d.ratio.1 : ℚ) / d.ratio.2 = d.value := by
  rw [ratio, scaleDown_value (by decide), neg_neg, Nat.cast_one, div_one, value, Nat.cast_ofNat]

lemma ratio_den_pos (d : Scaled) : 0 < d.ratio.2 :=
  scaleDown_den_pos (by decide) Nat.one_pos d.digits (-d.exponent)

lemma value_eq_zero_iff {d : Scaled} : d.value = 0 ↔ d.digits = 0 := by
  rw [value, mul_eq_zero, Nat.cast_eq_zero, or_iff_left (zpow_ne_zero _ (by norm_num))]

/-- The power of ten of the leading digit is a logarithm. -/
lemma log_value {d : Scaled} (h : d.digits ≠ 0) :
    (digitCount d.digits : Int) + d.exponent = Int.log 10 d.value + 1 := by
  obtain ⟨hle, hlt⟩ := digitCount_bounds (Nat.pos_of_ne_zero h)
  have hcount : 0 < digitCount d.digits := Nat.length_toDigits_pos
  have hlog : Int.log 10 d.value = ((digitCount d.digits - 1 : Nat) : Int) + d.exponent := by
    refine log_eq_of_le_of_lt (by decide) ?_ ?_
    · rw [Nat.cast_ofNat, zpow_add₀ (by norm_num), zpow_natCast, value]
      have hcast : (10 : ℚ) ^ (digitCount d.digits - 1) ≤ d.digits := by exact_mod_cast hle
      gcongr
    · rw [Nat.cast_ofNat, add_right_comm, ← Nat.cast_succ, Nat.succ_eq_add_one,
        Nat.sub_add_cancel hcount, zpow_add₀ (by norm_num), zpow_natCast, value]
      have hcast : (d.digits : ℚ) < 10 ^ digitCount d.digits := by exact_mod_cast hlt
      gcongr
  omega

/-- Decimals with the same value are read as the same double. -/
lemma nearestBits_congr {d e : Scaled} (h : d.value = e.value) : d.nearestBits = e.nearestBits := by
  have hzero : d.digits = 0 ↔ e.digits = 0 := by
    rw [← value_eq_zero_iff, h, value_eq_zero_iff]
  unfold nearestBits
  by_cases hd : d.digits = 0
  · rw [if_pos hd, if_pos (hzero.mp hd)]
  · have he : e.digits ≠ 0 := mt hzero.mpr hd
    have hratio : Binary.nearestBits d.ratio.1 d.ratio.2 =
        Binary.nearestBits e.ratio.1 e.ratio.2 :=
      Binary.nearestBits_congr d.ratio_den_pos e.ratio_den_pos
        (by rw [ratio_value, ratio_value, h])
    rw [if_neg hd, if_neg he, log_value hd, log_value he, h, hratio]

/-- Trailing zeros do not matter to the value. -/
lemma value_stripZeros (d : Scaled) : d.stripZeros.value = d.value := by
  induction d using stripZeros.induct with
  | case1 d h ih =>
    obtain ⟨n, hn⟩ := Nat.dvd_of_mod_eq_zero h.2
    have hdiv : d.digits / 10 = n := by omega
    rw [stripZeros, dif_pos h, ih, value, value, hdiv, hn, Nat.cast_mul, Nat.cast_ofNat,
      zpow_add_one₀ (by norm_num)]
    ring
  | case2 d h => rw [stripZeros, dif_neg h]

end Scaled

/-! ### The shortest decimal -/

/-- A neighbour is taken only if it reads back. -/
lemma nearestBits_of_neighbour {bits num den : Nat} {exponent : Int} {d : Scaled}
    (h : neighbourReadingBack bits num den exponent = some d) : d.nearestBits = bits := by
  simp only [neighbourReadingBack] at h
  split at h
  · next hlower =>
    split at h <;> cases h
    · next hupper => exact hupper.1
    · exact hlower
  · split at h
    · next hupper =>
      cases h
      exact hupper
    · cases h

/-- So the decimal on the first grid with such a neighbour reads back. -/
lemma nearestBits_of_firstReadingBack {bits num den count : Nat} {exponent : Int} {d : Scaled}
    (h : firstReadingBack bits num den exponent count = some d) : d.nearestBits = bits := by
  induction count generalizing exponent with
  | zero => cases h
  | succ count ih =>
    rw [firstReadingBack] at h
    split at h
    · next hneighbour =>
      cases h
      exact nearestBits_of_neighbour hneighbour
    · exact ih h

/-- The exact decimal has the value of the double. -/
lemma value_exactDecimal (x : Binary) : (exactDecimal x).value = x.value := by
  unfold exactDecimal
  split
  · next h =>
    obtain ⟨n, hn⟩ := Int.eq_ofNat_of_zero_le h
    rw [Scaled.value, Binary.value, hn, zpow_zero, mul_one, Int.toNat_natCast, Nat.pow_eq,
      Nat.cast_mul, Nat.cast_pow, Nat.cast_ofNat, zpow_natCast]
  · next h =>
    obtain ⟨n, hn⟩ := Int.eq_ofNat_of_zero_le (show 0 ≤ -x.exponent by omega)
    have hexponent : x.exponent = -(n : Int) := by omega
    have hten : (10 : ℚ) ^ n = 5 ^ n * 2 ^ n := by
      rw [← mul_pow]
      norm_num
    have hfive : (5 : ℚ) ^ n ≠ 0 := pow_ne_zero n (by norm_num)
    rw [Scaled.value, Binary.value, hexponent, neg_neg, Int.toNat_natCast, Nat.pow_eq,
      Nat.cast_mul, Nat.cast_pow, Nat.cast_ofNat, zpow_neg, zpow_neg, zpow_natCast, zpow_natCast,
      hten, mul_inv, ← mul_assoc, mul_inv_cancel_right₀ hfive]

/-- The exponents of finite doubles. -/
lemma Binary.exponent_bounds {bits : Nat} (hfinite : bits < infinityBits) :
    leastExponent ≤ (ofBits bits).exponent ∧ (ofBits bits).exponent ≤ 971 := by
  have hfield : bits / hiddenBit < 2047 := Nat.div_lt_of_lt_mul (by
    rw [Nat.mul_comm]
    exact hfinite)
  have hleast : leastExponent = -1074 := rfl
  by_cases h : bits / hiddenBit = 0
  · rw [ofBits_of_eq_zero h]
    change leastExponent ≤ leastExponent ∧ leastExponent ≤ 971
    omega
  · rw [ofBits_of_ne_zero h]
    generalize bits / hiddenBit = field at hfield
    change leastExponent ≤ leastExponent + (field - 1 : Nat) ∧
      leastExponent + (field - 1 : Nat) ≤ 971
    omega

/-- The significands of doubles. -/
lemma Binary.significand_lt (bits : Nat) : (ofBits bits).significand < 2 * hiddenBit := by
  have hfraction : bits % hiddenBit < hiddenBit := Nat.mod_lt bits (by decide)
  by_cases h : bits / hiddenBit = 0
  · rw [ofBits_of_eq_zero h]
    change bits % hiddenBit < 2 * hiddenBit
    omega
  · rw [ofBits_of_ne_zero h]
    change hiddenBit + bits % hiddenBit < 2 * hiddenBit
    omega

/-- Finite doubles lie far within the decimals that are not answered at once. -/
lemma Binary.value_bounds {bits : Nat} (hpos : 0 < bits) (hfinite : bits < infinityBits) :
    ((10 : Nat) : ℚ) ^ (-401 : Int) ≤ (ofBits bits).value ∧
      (ofBits bits).value < ((10 : Nat) : ℚ) ^ (400 : Int) := by
  obtain ⟨hleast, hgreatest⟩ := exponent_bounds hfinite
  have hone : (1 : ℚ) ≤ (ofBits bits).significand := by
    exact_mod_cast significand_pos hpos
  have hsignificand : ((ofBits bits).significand : ℚ) < 2 ^ (53 : Int) := by
    have hlt : ((ofBits bits).significand : ℚ) < (2 * hiddenBit : Nat) :=
      Nat.cast_lt.mpr (significand_lt bits)
    refine lt_of_lt_of_eq hlt ?_
    norm_num [hiddenBit]
  -- ten is more than eight, the third power of two
  have height (n : Nat) : (2 : ℚ) ^ ((3 * n : Nat) : Int) ≤ ((10 : Nat) : ℚ) ^ (n : Int) := by
    rw [zpow_natCast, zpow_natCast, pow_mul]
    gcongr
    norm_num
  constructor
  · calc ((10 : Nat) : ℚ) ^ (-401 : Int) = (((10 : Nat) : ℚ) ^ ((401 : Nat) : Int))⁻¹ :=
          zpow_neg _ _
      _ ≤ ((2 : ℚ) ^ ((3 * 401 : Nat) : Int))⁻¹ := by
          gcongr
          exact height 401
      _ = 2 ^ (-1203 : Int) := (zpow_neg _ _).symm
      _ ≤ 2 ^ (ofBits bits).exponent := by
          gcongr
          · norm_num
          · exact le_trans (by decide) hleast
      _ ≤ (ofBits bits).value := le_mul_of_one_le_left (by positivity) hone
  · calc (ofBits bits).value < 2 ^ (53 : Int) * 2 ^ (ofBits bits).exponent := by
          rw [value]
          gcongr
      _ = 2 ^ (53 + (ofBits bits).exponent) := (zpow_add₀ two_ne_zero _ _).symm
      _ ≤ 2 ^ ((3 * 400 : Nat) : Int) := by
          gcongr
          · norm_num
          · omega
      _ ≤ ((10 : Nat) : ℚ) ^ (400 : Int) := height 400

/-- A decimal with the value of a finite double is read as that double. -/
lemma Scaled.nearestBits_of_value_eq {bits : Nat} (hpos : 0 < bits)
    (hfinite : bits < Binary.infinityBits) {d : Scaled}
    (h : d.value = (Binary.ofBits bits).value) : d.nearestBits = bits := by
  obtain ⟨hlower, hupper⟩ := Binary.value_bounds hpos hfinite
  have hvalue := Binary.value_pos hpos
  rw [← h] at hlower hupper hvalue
  have hdigits : d.digits ≠ 0 := mt value_eq_zero_iff.mpr hvalue.ne'
  have hlog_le := (Int.zpow_le_iff_le_log (by decide) hvalue).mp hlower
  have hlog_lt := (Int.lt_zpow_iff_log_lt (by decide) hvalue).mp hupper
  have hleading := log_value hdigits
  have hgreatest : ¬ 400 < (digitCount d.digits : Int) + d.exponent := by omega
  have hleast : ¬ (digitCount d.digits : Int) + d.exponent < -400 := by omega
  unfold nearestBits
  rw [if_neg hdigits, if_neg hgreatest, if_neg hleast]
  exact Binary.nearestBits_of_value_eq hpos hfinite d.ratio_den_pos (by rw [ratio_value, h])

/-- The shortest decimal of a finite double other than zero is read as that double. -/
theorem nearestBits_shortest {bits : Nat} (hpos : 0 < bits)
    (hfinite : bits < Binary.infinityBits) : (shortest bits).nearestBits = bits := by
  simp only [shortest]
  rw [Scaled.nearestBits_congr (Scaled.value_stripZeros _)]
  rcases hfound : firstReadingBack bits (Binary.ofBits bits).ratio.1 (Binary.ofBits bits).ratio.2
    (leadingExponent (Binary.ofBits bits).ratio.1 (Binary.ofBits bits).ratio.2) 17 with _ | d
  · exact Scaled.nearestBits_of_value_eq hpos hfinite (value_exactDecimal _)
  · exact nearestBits_of_firstReadingBack hfound

end TreeEvolution.Decimal
