import AdaptiveTree.Double.Basic
import Mathlib.Algebra.Group.Nat.Defs
import Mathlib.Data.Int.Order.Basic
import Mathlib.Order.Basic
import Mathlib.Order.Compare

/-!
Integers among the doubles. A positive integer below `2 ^ 53` has a pattern of its own, and
larger integers have larger patterns; so the doubles that integer elements become are numbers
and stand in the order of the integers.
-/

set_option autoImplicit false
set_option relaxedAutoImplicit false

namespace AdaptiveTree.Double

variable {m n : Nat} {i j : Int}

/-- What follows the leading bit of an integer fits into the fraction field. -/
theorem fraction_lt (hpos : n ≠ 0) (hbound : n < 2 ^ 53) :
    (n - 2 ^ n.log2) * 2 ^ (52 - n.log2) < 2 ^ 52 := by
  have hlog : n.log2 < 53 := (Nat.log2_lt hpos).mpr hbound
  have hnext : n < 2 ^ (n.log2 + 1) := Nat.lt_log2_self
  have hrest : n - 2 ^ n.log2 < 2 ^ n.log2 := by
    rw [Nat.pow_succ] at hnext
    have hself : 2 ^ n.log2 ≤ n := Nat.log2_self_le hpos
    omega
  have hsplit : 2 ^ 52 = 2 ^ n.log2 * 2 ^ (52 - n.log2) := by
    rw [← Nat.pow_add]
    congr 1
    omega
  rw [hsplit]
  exact Nat.mul_lt_mul_of_pos_right hrest (Nat.two_pow_pos _)

theorem patternOfNat_eq (n : Nat) :
    patternOfNat n = (1023 + n.log2) * 2 ^ 52 + (n - 2 ^ n.log2) * 2 ^ (52 - n.log2) := by
  rw [patternOfNat, Nat.shiftLeft_eq, Nat.shiftLeft_eq, Nat.one_mul]
  rfl

theorem patternOfNat_lt (hpos : n ≠ 0) (hbound : n < 2 ^ 53) :
    patternOfNat n < infiniteMagnitude := by
  have hlog : n.log2 < 53 := (Nat.log2_lt hpos).mpr hbound
  have hfraction := fraction_lt hpos hbound
  rw [patternOfNat_eq]
  unfold infiniteMagnitude
  omega

theorem patternOfNat_pos (n : Nat) : 0 < patternOfNat n := by
  rw [patternOfNat_eq]
  omega

theorem patternOfNat_lt_patternOfNat (hpos : m ≠ 0) (hlt : m < n) (hbound : n < 2 ^ 53) :
    patternOfNat m < patternOfNat n := by
  have hlog : m.log2 ≤ n.log2 := (Nat.le_log2 (Nat.ne_zero_of_lt hlt)).mpr
    (Nat.le_trans (Nat.log2_self_le hpos) (Nat.le_of_lt hlt))
  rw [patternOfNat_eq, patternOfNat_eq]
  rcases Nat.lt_or_eq_of_le hlog with hless | heq
  · have hfraction := fraction_lt hpos (Nat.lt_trans hlt hbound)
    omega
  · -- the same leading bit, so the fractions decide
    have hself : 2 ^ m.log2 ≤ m := Nat.log2_self_le hpos
    rw [← heq]
    refine Nat.add_lt_add_left (Nat.mul_lt_mul_of_pos_right ?_ (Nat.two_pow_pos _)) _
    omega

theorem magnitude_ofNatBits {bits : Nat} (h : bits < infiniteMagnitude) :
    (ofNatBits bits).magnitude = bits ∧ (ofNatBits (signBit + bits)).magnitude = bits := by
  unfold infiniteMagnitude at h
  unfold magnitude ofNatBits signBit
  simp only [UInt64.toNat_ofNat']
  omega

theorem isNegative_ofNatBits {bits : Nat} (h : bits < infiniteMagnitude) :
    (ofNatBits bits).isNegative = false ∧ (ofNatBits (signBit + bits)).isNegative = true := by
  unfold infiniteMagnitude at h
  unfold isNegative ofNatBits signBit
  simp only [UInt64.toNat_ofNat', decide_eq_false_iff_not, decide_eq_true_eq]
  omega

/-- The key of a small integer is its pattern, with the sign of the integer. -/
theorem orderKey_ofInt (h : i.natAbs < 2 ^ 53) : (ofInt i).orderKey =
    if i = 0 then 0 else if i < 0 then -(patternOfNat i.natAbs : Int)
      else patternOfNat i.natAbs := by
  unfold ofInt
  split_ifs with hzero hneg
  · rfl
  · have hpattern := patternOfNat_lt (Int.natAbs_ne_zero.mpr hzero) h
    rw [orderKey, (isNegative_ofNatBits hpattern).2, if_pos rfl, (magnitude_ofNatBits hpattern).2]
  · have hpattern := patternOfNat_lt (Int.natAbs_ne_zero.mpr hzero) h
    rw [orderKey, (isNegative_ofNatBits hpattern).1, if_neg Bool.false_ne_true,
      (magnitude_ofNatBits hpattern).1]

theorem orderKey_ofInt_lt (hlt : i < j) (hi : i.natAbs < 2 ^ 53) (hj : j.natAbs < 2 ^ 53) :
    (ofInt i).orderKey < (ofInt j).orderKey := by
  have hposi := patternOfNat_pos i.natAbs
  have hposj := patternOfNat_pos j.natAbs
  rw [orderKey_ofInt hi, orderKey_ofInt hj]
  split_ifs <;> try omega
  · -- both negative: the smaller one has the larger magnitude
    have hpattern := patternOfNat_lt_patternOfNat (m := j.natAbs) (by omega)
      (by omega : j.natAbs < i.natAbs) hi
    omega
  · have hpattern := patternOfNat_lt_patternOfNat (m := i.natAbs) (by omega)
      (by omega : i.natAbs < j.natAbs) hj
    omega

/-- Small integers become numbers. -/
theorem isNaN_ofInt (h : i.natAbs < 2 ^ 53) : (ofInt i).isNaN = false := by
  have hsmall {d : Double} (hd : d.magnitude < infiniteMagnitude) : d.isNaN = false := by
    unfold isNaN
    simpa using Nat.le_of_lt hd
  unfold ofInt
  split_ifs with hzero hneg
  · rfl
  · have hpattern := patternOfNat_lt (Int.natAbs_ne_zero.mpr hzero) h
    refine hsmall ?_
    rw [(magnitude_ofNatBits hpattern).2]
    exact hpattern
  · have hpattern := patternOfNat_lt (Int.natAbs_ne_zero.mpr hzero) h
    refine hsmall ?_
    rw [(magnitude_ofNatBits hpattern).1]
    exact hpattern

/-! ### Back to integers -/

/-- The fields of the pattern of a positive integer. -/
theorem fields_of_pattern {d : Double} (hd : d.magnitude = patternOfNat n) (hpos : n ≠ 0)
    (hbound : n < 2 ^ 53) :
    d.exponentField = 1023 + n.log2 ∧ d.significand = n * 2 ^ (52 - n.log2) := by
  have hfraction := fraction_lt hpos hbound
  have hhidden : hiddenBit = 2 ^ 52 := rfl
  have hexponent : d.exponentField = 1023 + n.log2 := by
    rw [exponentField, hd, patternOfNat_eq, hhidden]
    omega
  refine ⟨hexponent, ?_⟩
  have hlog : n.log2 < 53 := (Nat.log2_lt hpos).mpr hbound
  have hself : 2 ^ n.log2 ≤ n := Nat.log2_self_le hpos
  have hlead : 2 ^ n.log2 * 2 ^ (52 - n.log2) = 2 ^ 52 := by
    rw [← Nat.pow_add]
    congr 1
    omega
  rw [significand, hexponent, if_neg (by omega), fractionField, hd, patternOfNat_eq, hhidden,
    Nat.mul_add_mod_self_right, Nat.mod_eq_of_lt hfraction, ← hlead, ← Nat.add_mul,
    Nat.add_sub_cancel' hself]

/-- The pattern of a positive integer has that integer as its whole part. -/
theorem truncate_of_pattern {d : Double} (hd : d.magnitude = patternOfNat n) (hpos : n ≠ 0)
    (hbound : n < 2 ^ 53) : d.truncate = if d.isNegative then -(n : Int) else n := by
  obtain ⟨hexponent, hsignificand⟩ := fields_of_pattern hd hpos hbound
  have hlog : n.log2 < 53 := (Nat.log2_lt hpos).mpr hbound
  have hscale : d.exponent = n.log2 - 52 := by
    rw [exponent, hexponent]
    omega
  have hsize : (if 0 ≤ d.exponent then d.significand <<< d.exponent.toNat
      else d.significand >>> (-d.exponent).toNat) = n := by
    have hshift : (-d.exponent).toNat = 52 - n.log2 := by omega
    split_ifs with hge
    · -- the largest integers fill the significand
      have hfull : 52 - n.log2 = 0 := by omega
      have hnone : d.exponent.toNat = 0 := by omega
      rw [hsignificand, hfull, hnone, Nat.pow_zero, Nat.mul_one, Nat.shiftLeft_zero]
    · rw [hsignificand, hshift, Nat.shiftRight_eq_div_pow,
        Nat.mul_div_cancel _ (Nat.two_pow_pos _)]
  rw [truncate, hsize]

theorem truncate_ofInt (h : i.natAbs < 2 ^ 53) : (ofInt i).truncate = i := by
  unfold ofInt
  split_ifs with hzero hneg
  · rw [hzero]
    rfl
  · have hpattern := patternOfNat_lt (Int.natAbs_ne_zero.mpr hzero) h
    rw [truncate_of_pattern (magnitude_ofNatBits hpattern).2 (Int.natAbs_ne_zero.mpr hzero) h,
      (isNegative_ofNatBits hpattern).2, if_pos rfl]
    omega
  · have hpattern := patternOfNat_lt (Int.natAbs_ne_zero.mpr hzero) h
    rw [truncate_of_pattern (magnitude_ofNatBits hpattern).1 (Int.natAbs_ne_zero.mpr hzero) h,
      (isNegative_ofNatBits hpattern).1, if_neg Bool.false_ne_true]
    omega

theorem magnitude_ofInt_eq_zero (h : i.natAbs < 2 ^ 53) : (ofInt i).magnitude = 0 ↔ i = 0 := by
  have hpos := patternOfNat_pos i.natAbs
  have hkey : (ofInt i).orderKey = 0 ↔ (ofInt i).magnitude = 0 := by
    unfold orderKey
    split_ifs <;> omega
  rw [← hkey, orderKey_ofInt h]
  split_ifs <;> omega

/-! ### Integer elements -/

theorem natAbs_toInt_lt (i : Int32) : i.toInt.natAbs < 2 ^ 53 := by
  have hlow := Int32.le_toInt i
  have hhigh := Int32.toInt_lt i
  omega

theorem isNaN_ofInt32 (i : Int32) : (ofInt i.toInt).isNaN = false :=
  isNaN_ofInt (natAbs_toInt_lt i)

/-- Integer elements compare as the doubles that they become. -/
theorem compare?_ofInt32 (i j : Int32) :
    (ofInt i.toInt).compare? (ofInt j.toInt) = some (compare i.toInt j.toInt) := by
  rw [compare?, isNaN_ofInt32, isNaN_ofInt32]
  refine congrArg some ?_
  rcases lt_trichotomy i.toInt j.toInt with hlt | heq | hgt
  · have hkeys := orderKey_ofInt_lt hlt (natAbs_toInt_lt i) (natAbs_toInt_lt j)
    rw [compare_lt_iff_lt.mpr hlt, compare_lt_iff_lt.mpr hkeys]
  · rw [heq, compare_eq_iff_eq.mpr rfl, compare_eq_iff_eq.mpr rfl]
  · have hkeys := orderKey_ofInt_lt hgt (natAbs_toInt_lt j) (natAbs_toInt_lt i)
    rw [compare_gt_iff_gt.mpr hgt, compare_gt_iff_gt.mpr hkeys]

end AdaptiveTree.Double
