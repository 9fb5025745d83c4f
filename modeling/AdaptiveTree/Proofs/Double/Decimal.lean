import Mathlib.Algebra.Order.Field.Power
import Mathlib.Data.Rat.Cast.Order
import Mathlib.Tactic.FieldSimp
import Mathlib.Tactic.Linarith
import Mathlib.Tactic.NormNum
import Mathlib.Tactic.Positivity
import Mathlib.Tactic.Ring
import AdaptiveTree.Double.Decimal

/-!
The decimal chosen for a finite double reads back as its magnitude. A ratio that is exactly the
value of a double is rounded to that double, and so is every decimal that equals it. The search
accepts only what reads back, and what it falls back on is the exact value.
-/

set_option autoImplicit false
set_option relaxedAutoImplicit false

namespace AdaptiveTree.Double

variable {num den s : Nat} {e : Int} {d : Double}

/-! ### Ratios on the grid of powers of two -/

theorem shiftLeft_lt_iff (num den : Nat) (e : Int) :
    num <<< (-e).toNat < den <<< e.toNat ↔ (num : ℚ) < den * 2 ^ e := by
  simp only [Nat.shiftLeft_eq]
  obtain ⟨n, rfl | rfl⟩ := e.eq_nat_or_neg
  · simp only [Int.toNat_neg_natCast, Int.toNat_natCast, pow_zero, mul_one, zpow_natCast]
    exact_mod_cast Iff.rfl
  · simp only [neg_neg, Int.toNat_neg_natCast, Int.toNat_natCast, pow_zero, mul_one, zpow_neg,
      zpow_natCast]
    rw [← div_eq_mul_inv, lt_div_iff₀ (by positivity)]
    exact_mod_cast Iff.rfl

theorem shiftLeft_eq_iff (num den s : Nat) (e : Int) :
    num <<< (-e).toNat = s * (den <<< e.toNat) ↔ (num : ℚ) = den * (s * 2 ^ e) := by
  simp only [Nat.shiftLeft_eq]
  obtain ⟨n, rfl | rfl⟩ := e.eq_nat_or_neg
  · simp only [Int.toNat_neg_natCast, Int.toNat_natCast, pow_zero, mul_one, zpow_natCast]
    rw [← Nat.cast_inj (R := ℚ)]
    push_cast
    rw [mul_left_comm]
  · simp only [neg_neg, Int.toNat_neg_natCast, Int.toNat_natCast, pow_zero, mul_one, zpow_neg,
      zpow_natCast]
    rw [← Nat.cast_inj (R := ℚ)]
    push_cast
    rw [← div_eq_mul_inv, mul_div_left_comm, ← mul_div_assoc, eq_div_iff (by positivity)]

/-- The exponent found is the greatest one at or below the ratio. -/
theorem ratioLog2_spec (hnum : num ≠ 0) (hden : den ≠ 0) :
    (den : ℚ) * 2 ^ ratioLog2 num den ≤ num ∧
      (num : ℚ) < den * 2 ^ (ratioLog2 num den + 1) := by
  have hlow : ((2 ^ num.log2 : Nat) : ℚ) ≤ num := by exact_mod_cast Nat.log2_self_le hnum
  have hhigh : (num : ℚ) < (2 ^ (num.log2 + 1) : Nat) := by
    exact_mod_cast Nat.lt_log2_self (n := num)
  have hlow' : ((2 ^ den.log2 : Nat) : ℚ) ≤ den := by exact_mod_cast Nat.log2_self_le hden
  have hhigh' : (den : ℚ) < (2 ^ (den.log2 + 1) : Nat) := by
    exact_mod_cast Nat.lt_log2_self (n := den)
  push_cast at hlow hhigh hlow' hhigh'
  simp only [← zpow_natCast] at hlow hhigh hlow' hhigh'
  have htwo : (2 : ℚ) ≠ 0 := two_ne_zero
  unfold ratioLog2
  dsimp only
  simp only [shiftLeft_lt_iff]
  split_ifs with hlt
  · refine ⟨?_, by rwa [Int.sub_add_cancel]⟩
    calc (den : ℚ) * 2 ^ ((num.log2 : Int) - den.log2 - 1)
        ≤ 2 ^ ((den.log2 + 1 : Nat) : Int) * 2 ^ ((num.log2 : Int) - den.log2 - 1) := by gcongr
      _ = 2 ^ (num.log2 : Int) := by
        rw [← zpow_add₀ htwo]
        congr 1
        push_cast
        ring
      _ ≤ num := hlow
  · refine ⟨not_lt.mp hlt, ?_⟩
    calc (num : ℚ) < 2 ^ ((num.log2 + 1 : Nat) : Int) := hhigh
      _ = 2 ^ (den.log2 : Int) * 2 ^ ((num.log2 : Int) - den.log2 + 1) := by
        rw [← zpow_add₀ htwo]
        congr 1
        push_cast
        ring
      _ ≤ den * 2 ^ ((num.log2 : Int) - den.log2 + 1) := by gcongr

/-- The grid that a significand of at most 53 bits lies on, if it uses them all or the grid is the
finest one. -/
theorem gridExponent_eq (hnum : num ≠ 0) (hden : den ≠ 0) (hvalue : (num : ℚ) = den * (s * 2 ^ e))
    (hs : s < 2 ^ 53) (hleast : -1074 ≤ e) (hfull : 2 ^ 52 ≤ s ∨ e = -1074) :
    max (ratioLog2 num den - 52) (-1074) = e := by
  obtain ⟨hlow, hhigh⟩ := ratioLog2_spec hnum hden
  have hpos : (0 : ℚ) < den := by exact_mod_cast Nat.pos_of_ne_zero hden
  rw [hvalue, mul_le_mul_iff_right₀ hpos] at hlow
  rw [hvalue, mul_lt_mul_iff_right₀ hpos] at hhigh
  have htwo : (2 : ℚ) ≠ 0 := two_ne_zero
  have hbelow : ratioLog2 num den < 53 + e := by
    refine (zpow_lt_zpow_iff_right₀ (one_lt_two (α := ℚ))).mp ?_
    calc (2 : ℚ) ^ ratioLog2 num den ≤ s * 2 ^ e := hlow
      _ < 2 ^ (53 : Int) * 2 ^ e := by
        gcongr
        exact_mod_cast hs
      _ = 2 ^ (53 + e) := (zpow_add₀ htwo _ _).symm
  rcases hfull with hfull | rfl
  · have habove : 52 + e < ratioLog2 num den + 1 := by
      refine (zpow_lt_zpow_iff_right₀ (one_lt_two (α := ℚ))).mp ?_
      calc (2 : ℚ) ^ (52 + e) = 2 ^ (52 : Int) * 2 ^ e := zpow_add₀ htwo _ _
        _ ≤ s * 2 ^ e := by
          gcongr
          exact_mod_cast hfull
        _ < 2 ^ (ratioLog2 num den + 1) := hhigh
    omega
  · omega

/-! ### Fields -/

theorem magnitude_eq (d : Double) :
    d.magnitude = d.exponentField * hiddenBit + d.fractionField :=
  (Nat.div_add_mod' d.magnitude hiddenBit).symm

theorem significand_lt (d : Double) : d.significand < 2 ^ 53 := by
  have hfraction : d.fractionField < hiddenBit := Nat.mod_lt _ (by decide)
  unfold significand
  unfold hiddenBit at *
  split_ifs <;> omega

theorem le_exponent (d : Double) : -1074 ≤ d.exponent := by
  unfold exponent
  omega

theorem significand_full (d : Double) : 2 ^ 52 ≤ d.significand ∨ d.exponent = -1074 := by
  unfold significand exponent hiddenBit
  split_ifs with hzero
  · right
    rw [hzero]
    rfl
  · left
    omega

theorem exponent_le (hd : d.isFinite = true) : d.exponent ≤ 971 := by
  have hlt : d.magnitude < infiniteMagnitude := of_decide_eq_true hd
  have hfield : d.exponentField < 2047 := by
    unfold exponentField
    rw [Nat.div_lt_iff_lt_mul (by decide)]
    exact hlt
  unfold exponent
  omega

theorem significand_ne_zero (hpos : d.magnitude ≠ 0) : d.significand ≠ 0 := by
  have hmagnitude := d.magnitude_eq
  unfold significand
  split_ifs with hzero
  · intro hfraction
    rw [hzero, hfraction] at hmagnitude
    omega
  · unfold hiddenBit
    omega

/-- The fields make up the magnitude again. -/
theorem magnitude_of_fields (d : Double) :
    (d.exponent + 1074).toNat * hiddenBit + d.significand = d.magnitude := by
  have hmagnitude := d.magnitude_eq
  unfold significand exponent
  split_ifs with hzero
  · have hleast : (((max 0 1 : Nat) : Int) - 1075 + 1074).toNat = 0 := by decide
    rw [hzero, hleast]
    rw [hzero] at hmagnitude
    omega
  · have hfield : ((max d.exponentField 1 : Nat) - 1075 + 1074 : Int).toNat =
        d.exponentField - 1 := by omega
    rw [hfield, hmagnitude]
    obtain ⟨k, hk⟩ := Nat.exists_eq_succ_of_ne_zero hzero
    rw [hk, Nat.succ_sub_one, Nat.succ_mul]
    omega

/-! ### Reading back -/

theorem roundHalfEven_mul (hden : den ≠ 0) (s : Nat) : roundHalfEven (s * den) den = s := by
  have hpos := Nat.pos_of_ne_zero hden
  unfold roundHalfEven
  simp [Nat.mul_mod_left, Nat.mul_div_cancel s hpos, hpos]

/-- A ratio that equals the magnitude of a double is rounded to it. -/
theorem ofRatio_eq (hd : d.isFinite = true) (hpos : d.magnitude ≠ 0) (hden : den ≠ 0)
    (hvalue : (num : ℚ) = den * (d.significand * 2 ^ d.exponent)) :
    ofRatio num den = ofNatBits d.magnitude := by
  have hnum : num ≠ 0 := by
    rintro rfl
    have hs : (d.significand : ℚ) ≠ 0 := by exact_mod_cast significand_ne_zero hpos
    have hden' : (den : ℚ) ≠ 0 := by exact_mod_cast hden
    rw [Nat.cast_zero, eq_comm] at hvalue
    exact mul_ne_zero hden' (mul_ne_zero hs (by positivity)) hvalue
  have hgrid := gridExponent_eq hnum hden hvalue d.significand_lt d.le_exponent d.significand_full
  have hshift : den <<< d.exponent.toNat ≠ 0 := by
    rw [Nat.shiftLeft_eq]
    exact Nat.mul_ne_zero hden (Nat.two_pow_pos _).ne'
  have hbound : d.magnitude ≤ infiniteMagnitude := Nat.le_of_lt (of_decide_eq_true hd)
  unfold ofRatio
  rw [if_neg hnum]
  dsimp only
  rw [hgrid, (shiftLeft_eq_iff num den d.significand d.exponent).mpr hvalue,
    roundHalfEven_mul hshift, magnitude_of_fields, Nat.min_eq_left hbound]

theorem digitCount_le_iff {n k : Nat} (hk : 0 < k) : digitCount n ≤ k ↔ n < 10 ^ k :=
  Nat.length_toDigits_le_iff (by decide) hk

/-- The digits of the exact value: each halving makes a place. -/
theorem exactDigits_eq (d : Double) :
    d.ratio.1 * Nat.pow 5 (-d.exponent).toNat =
      d.significand * 2 ^ d.exponent.toNat * 5 ^ (-d.exponent).toNat := by
  rw [ratio, Nat.shiftLeft_eq]
  rfl

theorem two_pow_le_ten_pow {n m k : Nat} (hn : n ≤ 8 * k) (hm : 3 * k ≤ m) : 2 ^ n ≤ 10 ^ m :=
  calc 2 ^ n ≤ 2 ^ (8 * k) := Nat.pow_le_pow_right (by decide) hn
    _ = (2 ^ 8) ^ k := pow_mul 2 8 k
    _ ≤ (10 ^ 3) ^ k := Nat.pow_le_pow_left (by decide) k
    _ = 10 ^ (3 * k) := (pow_mul 10 3 k).symm
    _ ≤ 10 ^ m := Nat.pow_le_pow_right (by decide) hm

theorem two_pow_le_five_pow {n k : Nat} (h : n ≤ 2 * k) : 2 ^ n ≤ 5 ^ k :=
  calc 2 ^ n ≤ 2 ^ (2 * k) := Nat.pow_le_pow_right (by decide) h
    _ = (2 ^ 2) ^ k := pow_mul 2 2 k
    _ ≤ 5 ^ k := Nat.pow_le_pow_left (by decide) k

theorem exactDigits_lt (hd : d.isFinite = true) :
    d.significand * 2 ^ d.exponent.toNat * 5 ^ (-d.exponent).toNat <
      10 ^ (400 + (-d.exponent).toNat) := by
  have hle := exponent_le hd
  have hwhole : 2 ^ 53 * 2 ^ d.exponent.toNat ≤ 10 ^ 400 := by
    calc 2 ^ 53 * 2 ^ d.exponent.toNat = 2 ^ (53 + d.exponent.toNat) := (pow_add 2 53 _).symm
      _ ≤ 10 ^ 400 := two_pow_le_ten_pow (k := 128) (by omega) (by decide)
  have hvalue : d.significand * 2 ^ d.exponent.toNat < 10 ^ 400 :=
    (Nat.mul_lt_mul_of_pos_right d.significand_lt (Nat.two_pow_pos _)).trans_le hwhole
  calc d.significand * 2 ^ d.exponent.toNat * 5 ^ (-d.exponent).toNat
      < 10 ^ 400 * 5 ^ (-d.exponent).toNat :=
        Nat.mul_lt_mul_of_pos_right hvalue (Nat.pow_pos (by decide))
    _ ≤ 10 ^ 400 * 10 ^ (-d.exponent).toNat :=
        Nat.mul_le_mul_left _ (Nat.pow_le_pow_left (by decide) _)
    _ = 10 ^ (400 + (-d.exponent).toNat) := (pow_add 10 400 _).symm

theorem le_exactDigits (hpos : d.magnitude ≠ 0) :
    10 ^ ((-d.exponent).toNat - 401) ≤
      d.significand * 2 ^ d.exponent.toNat * 5 ^ (-d.exponent).toNat := by
  have hleast := d.le_exponent
  have hs := Nat.pos_of_ne_zero (significand_ne_zero hpos)
  generalize hplaces : (-d.exponent).toNat = places
  have hmost : 10 ^ (places - 401) ≤ 5 ^ places := by
    rcases Nat.lt_or_ge places 401 with hfew | hmany
    · rw [Nat.sub_eq_zero_of_le hfew.le]
      exact Nat.one_le_pow _ _ (by decide)
    · calc 10 ^ (places - 401) = 5 ^ (places - 401) * 2 ^ (places - 401) := by
            rw [← mul_pow, show 5 * 2 = 10 from rfl]
        _ ≤ 5 ^ (places - 401) * 5 ^ 401 :=
            Nat.mul_le_mul_left _ (two_pow_le_five_pow (by omega))
        _ = 5 ^ places := by rw [← pow_add, Nat.sub_add_cancel hmany]
  exact hmost.trans (Nat.le_mul_of_pos_left _ (Nat.mul_pos hs (Nat.two_pow_pos _)))

/-- The exact value in decimal, on which the search falls back. -/
theorem ofDecimal_exact (hd : d.isFinite = true) (hpos : d.magnitude ≠ 0) :
    ofDecimal (d.ratio.1 * Nat.pow 5 (-d.exponent).toNat) (min d.exponent 0) =
      ofNatBits d.magnitude := by
  have hupper := exactDigits_lt hd
  have hlower := le_exactDigits hpos
  have hpower : min d.exponent 0 = -((-d.exponent).toNat : Int) := by omega
  rw [exactDigits_eq, hpower]
  generalize hdigits : d.significand * 2 ^ d.exponent.toNat * 5 ^ (-d.exponent).toNat = digits
    at hupper hlower
  have hnonzero : digits ≠ 0 := (Nat.lt_of_lt_of_le (Nat.pow_pos (by decide)) hlower).ne'
  have hmost : digitCount digits ≤ 400 + (-d.exponent).toNat :=
    (digitCount_le_iff (by omega)).mpr hupper
  have hleast : (-d.exponent).toNat ≤ digitCount digits + 400 := by
    by_contra hmany
    have hsome : 0 < digitCount digits := Nat.length_toDigits_pos
    exact absurd ((digitCount_le_iff (by omega)).mp (by omega)) (Nat.not_lt.mpr hlower)
  unfold ofDecimal
  rw [if_neg hnonzero, if_neg (by omega), if_neg (by omega), neg_neg, Int.toNat_natCast,
    Int.toNat_neg_natCast]
  refine ofRatio_eq hd hpos (Nat.pow_pos (by decide)).ne' ?_
  change ((digits * 1 : Nat) : ℚ) = (10 ^ (-d.exponent).toNat : Nat) * _
  rw [Nat.mul_one, ← hdigits]
  obtain ⟨k, hk | hk⟩ := d.exponent.eq_nat_or_neg
  · rw [hk]
    simp
  · rw [hk]
    simp only [neg_neg, Int.toNat_neg_natCast, Int.toNat_natCast, pow_zero, mul_one, zpow_neg,
      zpow_natCast]
    push_cast
    rw [show (10 : ℚ) = 2 * 5 by norm_num, mul_pow]
    field_simp

theorem ofDecimal_of_gridHit? {target : Double} {power : Int} {x : Decimal}
    (h : gridHit? target num den power = some x) : ofDecimal x.digits x.power = target := by
  unfold gridHit? at h
  dsimp only at h
  split_ifs at h with hlow hhigh
  · obtain rfl := Option.some.inj h
    exact hlow.1
  · obtain rfl := Option.some.inj h
    exact hhigh

/-- The decimal chosen for a finite double reads back as its magnitude. -/
theorem ofDecimal_shortest (hd : d.isFinite = true) (hpos : d.magnitude ≠ 0) :
    ofDecimal d.shortest.digits d.shortest.power = ofNatBits d.magnitude := by
  unfold shortest
  dsimp only
  split
  · next x hx =>
    obtain ⟨i, -, hhit⟩ := List.exists_of_findSome?_eq_some hx
    exact ofDecimal_of_gridHit? hhit
  · exact ofDecimal_exact hd hpos

end AdaptiveTree.Double
