import Mathlib.Data.Rat.Floor
import Mathlib.Tactic.FieldSimp
import Mathlib.Tactic.NormNum
import Mathlib.Tactic.Positivity
import Mathlib.Tactic.Ring
import AdaptiveTree.Proofs.Double.Decimal
import AdaptiveTree.Value.Coercion

/-!
Doubles as exact numbers, and the integer elements that are made of them. The bits of a finite
double stand for a rational number. Shifting the significand by the exponent drops exactly the
fraction of that number, also for subnormal numbers and for either zero; what is left becomes an
integer element if it is in range, and is missing otherwise.
-/

set_option autoImplicit false
set_option relaxedAutoImplicit false

namespace AdaptiveTree.Double

variable {d d' : Double} {p q : ℚ}

/-! ### Whole parts -/

/-- The integer that is left of a number when its fraction is dropped. -/
def wholePart (q : ℚ) : Int := if 0 ≤ q then ⌊q⌋ else ⌈q⌉

theorem wholePart_of_nonneg (h : 0 ≤ q) : wholePart q = ⌊q⌋ := if_pos h

theorem wholePart_neg (q : ℚ) : wholePart (-q) = -wholePart q := by
  unfold wholePart
  rcases lt_trichotomy q 0 with hneg | rfl | hpos
  · rw [if_pos (neg_nonneg.mpr hneg.le), if_neg (not_le.mpr hneg), Int.floor_neg]
  · simp
  · rw [if_neg (not_le.mpr (neg_neg_of_pos hpos)), if_pos hpos.le, Int.ceil_neg]

/-- Dropping fractions keeps the order, across zero as well. -/
theorem wholePart_mono (h : p ≤ q) : wholePart p ≤ wholePart q := by
  unfold wholePart
  split_ifs with hp hq hq
  · exact Int.floor_mono h
  · exact absurd (hp.trans h) hq
  · exact (Int.ceil_le.mpr (by simpa using (not_le.mp hp).le)).trans (Int.floor_nonneg.mpr hq)
  · exact Int.ceil_mono h

/-! ### Exact values -/

/-- The exact size of a finite double: the fraction counts in parts of `2 ^ -52` of its binade.
Numbers of the lowest binade lack the leading one. -/
def size (d : Double) : ℚ :=
  if d.exponentField = 0 then (d.fractionField / 2 ^ 52) * 2 ^ (-1022 : Int)
  else (1 + d.fractionField / 2 ^ 52) * 2 ^ ((d.exponentField : Int) - 1023)

/-- The exact value of a finite double. -/
def value (d : Double) : ℚ := if d.isNegative then -d.size else d.size

/-- The size as an integer that is shifted. -/
theorem size_eq (d : Double) : d.size = d.significand * 2 ^ d.exponent := by
  have htwo : (2 : ℚ) ≠ 0 := two_ne_zero
  unfold size significand
  split_ifs with hzero
  · have hexponent : d.exponent = -1022 - (52 : Nat) := by
      rw [exponent, hzero]
      rfl
    rw [hexponent, zpow_sub₀ htwo, zpow_natCast]
    ring
  · have hexponent : d.exponent = (d.exponentField : Int) - 1023 - (52 : Nat) := by
      unfold exponent
      omega
    have hhidden : (hiddenBit : ℚ) = 2 ^ 52 := by norm_num [hiddenBit]
    rw [hexponent, zpow_sub₀ htwo _ ((52 : Nat) : Int), zpow_natCast, Nat.cast_add, hhidden]
    field_simp

theorem size_nonneg (d : Double) : 0 ≤ d.size := by
  rw [size_eq]
  positivity

/-- Shifting an integer drops exactly the fraction. -/
theorem floor_shift (s : Nat) (e : Int) : ⌊(s : ℚ) * 2 ^ e⌋ =
    ((if 0 ≤ e then s <<< e.toNat else s >>> (-e).toNat : Nat) : Int) := by
  split_ifs with he
  · obtain ⟨n, rfl⟩ := Int.eq_ofNat_of_zero_le he
    rw [Int.toNat_natCast, Nat.shiftLeft_eq, zpow_natCast]
    exact_mod_cast Int.floor_natCast (R := ℚ) (s * 2 ^ n)
  · obtain ⟨n, hn⟩ := Int.eq_ofNat_of_zero_le (Int.neg_nonneg_of_nonpos (not_le.mp he).le)
    obtain rfl : e = -n := by omega
    rw [neg_neg, Int.toNat_natCast, Nat.shiftRight_eq_div_pow, zpow_neg, zpow_natCast,
      ← div_eq_mul_inv]
    exact_mod_cast Rat.floor_natCast_div_natCast s (2 ^ n)

theorem truncate_eq (d : Double) : d.truncate = wholePart d.value := by
  have hwhole : wholePart d.size = ((if 0 ≤ d.exponent then d.significand <<< d.exponent.toNat
      else d.significand >>> (-d.exponent).toNat : Nat) : Int) := by
    rw [wholePart_of_nonneg d.size_nonneg, size_eq, floor_shift]
  unfold truncate value
  cases d.isNegative with
  | true => rw [if_pos rfl, if_pos rfl, wholePart_neg, hwhole]
  | false => rw [if_neg Bool.false_ne_true, if_neg Bool.false_ne_true, hwhole]

/-! ### Integer elements -/

/-- The numbers that are integer elements, apart from the missing marker. -/
def InRange (n : Int) : Prop := -2147483647 ≤ n ∧ n ≤ 2147483647

instance (n : Int) : Decidable (InRange n) := inferInstanceAs (Decidable (_ ∧ _))

theorem fitsInt_iff (n : Int) : fitsInt n = true ↔ InRange n := by
  rw [fitsInt, Bool.and_eq_true, decide_eq_true_eq, decide_eq_true_eq, InRange]
  omega

/-- The fields of an infinity read as a number beyond all integer elements. -/
theorem not_inRange_of_isInfinite (h : d.isInfinite = true) : ¬ InRange (wholePart d.value) := by
  have hmagnitude : d.magnitude = infiniteMagnitude := of_decide_eq_true h
  have hexponent : d.exponentField = 2047 := by rw [exponentField, hmagnitude]; rfl
  have hlarge : 2147483648 ≤ wholePart d.size := by
    rw [wholePart_of_nonneg d.size_nonneg, Int.le_floor, size, if_neg (by omega), hexponent]
    calc ((2147483648 : Int) : ℚ) = 1 * 2 ^ (31 : Int) := by norm_num
      _ ≤ (1 + d.fractionField / 2 ^ 52) * 2 ^ (((2047 : Nat) : Int) - 1023) := by
        gcongr
        · exact le_add_of_nonneg_right (by positivity)
        · exact one_le_two
        · decide
  unfold value InRange
  split_ifs
  · rw [wholePart_neg]
    omega
  · omega

/-- A double is missing as an integer element exactly if it has no whole part in range. -/
theorem toInt32_eq_missingInt_iff (d : Double) :
    d.toInt32 = missingInt ↔ d.isNaN = true ∨ ¬ InRange (wholePart d.value) := by
  unfold toInt32
  rw [truncate_eq]
  by_cases hnan : d.isNaN = true
  · simp [hnan]
  · rw [if_neg hnan]
    by_cases hrange : InRange (wholePart d.value)
    · rw [if_pos ((fitsInt_iff _).mpr hrange)]
      simp only [hnan, hrange, not_true_eq_false, or_false, Bool.false_eq_true, iff_false]
      intro hmissing
      have hint := congrArg Int32.toInt hmissing
      rw [Int32.toInt_ofInt_of_le (by have := hrange.1; omega) (by have := hrange.2; omega)] at hint
      have hleast : missingInt.toInt = -2147483648 := rfl
      have := hrange.1
      omega
    · rw [if_neg fun hfits ↦ hrange ((fitsInt_iff _).mp hfits)]
      simp [hrange]

/-- What is not missing has lost its fraction and nothing else. -/
theorem toInt_toInt32 (h : d.toInt32 ≠ missingInt) : d.toInt32.toInt = wholePart d.value := by
  obtain ⟨hnan, hrange⟩ := not_or.mp (fun hmissing ↦ h (d.toInt32_eq_missingInt_iff.mpr hmissing))
  rw [not_not] at hrange
  obtain ⟨hlow, hhigh⟩ := hrange
  rw [toInt32, if_neg hnan, truncate_eq, if_pos ((fitsInt_iff _).mpr ⟨hlow, hhigh⟩),
    Int32.toInt_ofInt_of_le (by omega) (by omega)]

/-- A double becomes the integer element that is left of its exact value without the fraction. It
is missing if it is no number, if it is infinite, or if no element is that large; among the others
the order is kept. -/
theorem toInt32_truncates (d : Double) :
    (d.isFinite = true → InRange (wholePart d.value) → d.toInt32.toInt = wholePart d.value) ∧
    (d.toInt32 = missingInt ↔
      d.isNaN = true ∨ d.isInfinite = true ∨ ¬ InRange (wholePart d.value)) ∧
    ∀ d' : Double, d.toInt32 ≠ missingInt → d'.toInt32 ≠ missingInt → d.value ≤ d'.value →
      d.toInt32.toInt ≤ d'.toInt32.toInt := by
  refine ⟨fun hfinite hrange ↦ ?_, ?_, fun d' h h' hle ↦ ?_⟩
  · refine toInt_toInt32 fun hmissing ↦ ?_
    rcases d.toInt32_eq_missingInt_iff.mp hmissing with hnan | hout
    · have hlt : d.magnitude < infiniteMagnitude := of_decide_eq_true hfinite
      exact absurd (of_decide_eq_true hnan) (Nat.lt_asymm hlt)
    · exact hout hrange
  · rw [toInt32_eq_missingInt_iff]
    constructor
    · exact Or.imp_right Or.inr
    · rintro (hnan | hinfinite | hout)
      · exact .inl hnan
      · exact .inr (not_inRange_of_isInfinite hinfinite)
      · exact .inr hout
  · rw [toInt_toInt32 h, toInt_toInt32 h']
    exact wholePart_mono hle

/-- The largest double below `2 ^ 31` and its negative are in range with all of their fraction;
`2 ^ 31` itself and the number of the missing marker are not. -/
theorem toInt32_truncates_atTheEnds :
    (ofNatBits 0x41DFFFFFFFFFFFFF).toInt32.toInt = 2147483647 ∧
      (ofNatBits 0xC1DFFFFFFFFFFFFF).toInt32.toInt = -2147483647 ∧
      (ofNatBits 0x41E0000000000000).toInt32 = missingInt ∧
      (ofNatBits 0xC1E0000000000000).toInt32 = missingInt ∧
      (ofNatBits 0xC1DFFFFFFFFFFFFF).value ≤ (ofNatBits 0x41DFFFFFFFFFFFFF).value ∧
      (ofNatBits 0xC1DFFFFFFFFFFFFF).toInt32.toInt ≤
        (ofNatBits 0x41DFFFFFFFFFFFFF).toInt32.toInt := by
  have hhigh : wholePart (ofNatBits 0x41DFFFFFFFFFFFFF).value = 2147483647 :=
    (truncate_eq _).symm.trans (by decide)
  have hlow : wholePart (ofNatBits 0xC1DFFFFFFFFFFFFF).value = -2147483647 :=
    (truncate_eq _).symm.trans (by decide)
  have habove : wholePart (ofNatBits 0x41E0000000000000).value = 2147483648 :=
    (truncate_eq _).symm.trans (by decide)
  have hbelow : wholePart (ofNatBits 0xC1E0000000000000).value = -2147483648 :=
    (truncate_eq _).symm.trans (by decide)
  have hle : (ofNatBits 0xC1DFFFFFFFFFFFFF).value ≤ (ofNatBits 0x41DFFFFFFFFFFFFF).value :=
    calc (ofNatBits 0xC1DFFFFFFFFFFFFF).value = -(ofNatBits 0xC1DFFFFFFFFFFFFF).size := if_pos rfl
      _ ≤ 0 := neg_nonpos.mpr (size_nonneg _)
      _ ≤ (ofNatBits 0x41DFFFFFFFFFFFFF).size := size_nonneg _
      _ = (ofNatBits 0x41DFFFFFFFFFFFFF).value := (if_neg Bool.false_ne_true).symm
  refine ⟨?_, ?_, ?_, ?_, hle, ?_⟩
  · rw [(toInt32_truncates _).1 rfl (by rw [hhigh]; decide), hhigh]
  · rw [(toInt32_truncates _).1 rfl (by rw [hlow]; decide), hlow]
  · exact (toInt32_truncates _).2.1.mpr (.inr (.inr (by rw [habove]; decide)))
  · exact (toInt32_truncates _).2.1.mpr (.inr (.inr (by rw [hbelow]; decide)))
  · exact (toInt32_truncates _).2.2 _ (by decide) (by decide) hle

end AdaptiveTree.Double
