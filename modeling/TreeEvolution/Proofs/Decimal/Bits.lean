import Mathlib
import TreeEvolution.Decimal.Binary
import TreeEvolution.Proofs.Numbers

/-!
# Doubles and their bits

The reading and the writing of numbers goes through bit patterns.  Nothing is lost on the way: the
sign and the magnitude of a double make it up (`ofSignAndBits_magnitudeBits`), and the magnitudes of
the finite doubles are those below the bits of infinity (`magnitudeBits_lt`).
-/

namespace TreeEvolution.Decimal

open Float.Model UnpackedFloat

/-- A double is given by its sign and its magnitude. -/
lemma ofSignAndBits_magnitudeBits (x : Float) :
    ofSignAndBits (isNegative x) (magnitudeBits x) = x := by
  have hlt := x.toBits.toNat_lt
  have hbits : (if isNegative x = true then signBit + magnitudeBits x else magnitudeBits x) =
      x.toBits.toNat := by
    have hsign : signBit = 2 ^ 63 := rfl
    unfold magnitudeBits
    by_cases h : signBit ≤ x.toBits.toNat
    · rw [isNegative, if_pos (decide_eq_true h), Nat.mod_eq_sub_mod h,
        Nat.mod_eq_of_lt (by omega), Nat.add_sub_cancel' h]
    · rw [isNegative, if_neg (by rwa [decide_eq_true_iff]),
        Nat.mod_eq_of_lt (Nat.lt_of_not_le h)]
  rw [ofSignAndBits, hbits, UInt64.ofNat_toNat, Float.ofBits_toBits]

/-- The exponent field of a bit pattern. -/
lemma toNat_unpackExponent (b : BitVec Format.binary64.numBits) :
    (unpackExponent b).toNat = b.toNat / 2 ^ 52 % 2 ^ 11 := by
  rw [unpackExponent, BitVec.toNat_cast, BitVec.extractLsb_toNat, Nat.shiftRight_eq_div_pow]
  rfl

/-- The magnitudes of finite doubles lie below that of infinity. -/
lemma magnitudeBits_lt {x : Float} (h : x.isFinite = true) :
    magnitudeBits x < Binary.infinityBits := by
  have hexponent : @unpackExponent Format.binary64 x.toBits.toBitVec ≠ -1#_ := by
    intro hlast
    change (UnpackedFloat.unpack Format.binary64 x.toBits.toBitVec).isFinite = true at h
    simp only [UnpackedFloat.unpack] at h
    rw [if_pos hlast] at h
    split at h <;> cases h
  have hfield : x.toBits.toNat / 2 ^ 52 % 2 ^ 11 ≠ 2047 := by
    intro hfield
    refine hexponent (BitVec.eq_of_toNat_eq ?_)
    rw [toNat_unpackExponent]
    exact hfield
  have hinfinity : Binary.infinityBits = 2047 * 2 ^ 52 := rfl
  have hmagnitude : magnitudeBits x = x.toBits.toNat % 2 ^ 63 := rfl
  rw [hinfinity, hmagnitude]
  omega

/-- A finite double is not infinite, and it is a number. -/
lemma isInf_of_isFinite {x : Float} (h : x.isFinite = true) :
    x.isInf = false ∧ x.isNaN = false := by
  change x.toModel.unpack.isFinite = true at h
  change x.toModel.unpack.isInf = false ∧ x.toModel.unpack.isNaN = false
  generalize x.toModel.unpack = unpacked at h ⊢
  cases unpacked with
  | notANumber => cases h
  | infinity => cases h
  | zero => exact ⟨rfl, rfl⟩
  | finite => exact ⟨rfl, rfl⟩

/-- Nothing finite is at most negative infinity. -/
lemma le_negative_infinity {x : UnpackedFloat} (h : x.isFinite = true) :
    x.le (.infinity .negative) = false := by
  rcases x with _ | _ | (_ | _) | ⟨_ | _, _, _, _⟩
  case notANumber => cases h
  case infinity => cases h
  all_goals rfl

/-- Positive infinity is at most nothing finite. -/
lemma positive_infinity_le {x : UnpackedFloat} (h : x.isFinite = true) :
    (UnpackedFloat.infinity .positive).le x = false := by
  rcases x with _ | _ | (_ | _) | ⟨_ | _, _, _, _⟩
  case notANumber => cases h
  case infinity => cases h
  all_goals rfl

/-- What lies between finite doubles is finite. -/
lemma isFinite_of_le_of_le {x y z : Float} (hx : x.isFinite = true) (hz : z.isFinite = true)
    (hxy : x ≤ y) (hyz : y ≤ z) : y.isFinite = true := by
  have hlower : x.toModel.unpack.le y.toModel.unpack = true := of_decide_eq_true hxy
  have hupper : y.toModel.unpack.le z.toModel.unpack = true := of_decide_eq_true hyz
  change y.toModel.unpack.isFinite = true
  generalize y.toModel.unpack = unpacked at hlower hupper ⊢
  rcases unpacked with (_ | _) | _ | _ | _
  · exact absurd hlower (Bool.eq_false_iff.mp (le_negative_infinity hx))
  · exact absurd hupper (Bool.eq_false_iff.mp (positive_infinity_le hz))
  · cases hz' : z.toModel.unpack <;> rw [hz'] at hupper <;> cases hupper
  · rfl
  · rfl

end TreeEvolution.Decimal
