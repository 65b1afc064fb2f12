import Mathlib.Data.Int.Log
import Mathlib.Data.Rat.Floor
import Mathlib.Tactic.Linarith
import Mathlib.Tactic.NormNum
import Mathlib.Tactic.Positivity

/-! Rational numbers rounded to a significand of 53 bits, ties to even. The exponent is bounded
below, as it is for subnormal numbers, and not above. -/
namespace Binary64

/-- The nearest integer, and of two the even one. -/
def nearest (x : ℚ) : ℤ :=
  if x - ⌊x⌋ < 1 / 2 then ⌊x⌋
  else if 1 / 2 < x - ⌊x⌋ then ⌊x⌋ + 1
  else ⌊x⌋ + ⌊x⌋ % 2

def exponent (x : ℚ) : ℤ := max (Int.log 2 |x| - 52) (-1074)

/-- The distance of neighbouring numbers at `x`. -/
def ulp (x : ℚ) : ℚ := 2 ^ exponent x

/-- The number nearest to `x`. -/
def fl (x : ℚ) : ℚ := nearest (x / ulp x) * ulp x

variable {x B : ℚ} {n : ℕ}

theorem abs_nearest_sub_le (x : ℚ) : |nearest x - x| ≤ 1 / 2 := by
  have hfract := Int.lt_floor_add_one x
  unfold nearest
  split_ifs with hlt hgt
  · rw [abs_sub_comm, abs_of_nonneg (sub_nonneg.mpr (Int.floor_le x))]
    exact hlt.le
  · rw [Int.cast_add, Int.cast_one, abs_of_nonneg (by linarith)]
    linarith
  · -- a tie
    have htie : x - ⌊x⌋ = 1 / 2 := le_antisymm (not_lt.mp hgt) (not_lt.mp hlt)
    obtain h | h := Int.emod_two_eq_zero_or_one ⌊x⌋
    · rw [h, add_zero, abs_sub_comm, htie]
      norm_num
    · rw [h, Int.cast_add, Int.cast_one, abs_of_nonneg (by linarith)]
      linarith

/-- No integer lies between a number and the nearest one. -/
theorem le_nearest {k : ℤ} (h : (k : ℚ) ≤ x) : k ≤ nearest x := by
  have hfloor : k ≤ ⌊x⌋ := Int.le_floor.mpr h
  unfold nearest
  split_ifs
  · exact hfloor
  · omega
  · omega

theorem ulp_pos (x : ℚ) : 0 < ulp x := zpow_pos two_pos _

theorem ulp_le (hB : 1 ≤ B) (h : |x| ≤ B) : ulp x ≤ B / 2 ^ 52 := by
  have hlog : (2 : ℚ) ^ Int.log 2 |x| ≤ B := by
    by_cases hx : x = 0
    · rw [hx, abs_zero, Int.log_zero_right, zpow_zero]
      exact hB
    · exact_mod_cast (Int.zpow_log_le_self one_lt_two (abs_pos.mpr hx)).trans h
  rcases max_choice (Int.log 2 |x| - 52) (-1074) with hmax | hmax
  · rw [ulp, exponent, hmax, zpow_sub₀ two_ne_zero]
    exact div_le_div_of_nonneg_right hlog (by positivity)
  · rw [ulp, exponent, hmax]
    have htiny : (2 : ℚ) ^ (-1074 : ℤ) ≤ 2 ^ (-52 : ℤ) :=
      zpow_le_zpow_right₀ one_le_two (by norm_num)
    have hone : (2 : ℚ) ^ (-52 : ℤ) ≤ B / 2 ^ 52 := by
      rw [zpow_neg, ← one_div]
      exact div_le_div_of_nonneg_right hB (by positivity)
    exact htiny.trans hone

/-- Rounding errs by half of the distance of neighbours. -/
theorem abs_fl_sub_le (hB : 1 ≤ B) (h : |x| ≤ B) : |fl x - x| ≤ B / 2 ^ 53 := by
  have hu := ulp_pos x
  have hscale : fl x - x = (nearest (x / ulp x) - x / ulp x) * ulp x := by
    rw [fl, sub_mul, div_mul_cancel₀ _ hu.ne']
  rw [hscale, abs_mul, abs_of_pos hu]
  have hle := mul_le_mul (abs_nearest_sub_le (x / ulp x)) (ulp_le hB h) hu.le (by norm_num)
  linarith

/-- Rounding does not cross a natural number that has a significand of 53 bits. -/
theorem le_fl (hn : n ≤ 2 ^ 53) (h : (n : ℚ) ≤ x) : (n : ℚ) ≤ fl x := by
  have hu := ulp_pos x
  by_cases hexp : exponent x ≤ 0
  · obtain ⟨e, he⟩ := Int.eq_ofNat_of_zero_le (Int.neg_nonneg.mpr hexp)
    have hone : (2 ^ e : ℕ) * ulp x = 1 := by
      rw [ulp, ← neg_neg (exponent x), he, zpow_neg]
      push_cast
      exact mul_inv_cancel₀ (by positivity)
    have hn : (n : ℚ) = (n * 2 ^ e : ℕ) * ulp x := by
      rw [Nat.cast_mul, mul_assoc, hone, mul_one]
    have hk : ((n * 2 ^ e : ℕ) : ℤ) ≤ nearest (x / ulp x) := by
      apply le_nearest
      rw [le_div_iff₀ hu]
      exact_mod_cast hn ▸ h
    rw [hn, fl]
    exact mul_le_mul_of_nonneg_right (by exact_mod_cast hk) hu.le
  · -- from `2 ^ 53` on the power of two below `x` is a number of its own
    have hlog : exponent x = Int.log 2 |x| - 52 := max_eq_left (by
      by_contra hlt
      exact hexp (by rw [exponent, max_eq_right (by omega)]; norm_num))
    have hx : x ≠ 0 := by
      rintro rfl
      rw [hlog, abs_zero, Int.log_zero_right] at hexp
      exact hexp (by norm_num)
    have hpos : 0 < x := lt_of_le_of_ne ((Nat.cast_nonneg n).trans h) hx.symm
    have hpow : (2 ^ 52 : ℕ) * ulp x = 2 ^ Int.log 2 |x| := by
      rw [ulp, hlog, zpow_sub₀ two_ne_zero]
      push_cast
      exact mul_div_cancel₀ _ (by positivity)
    have hk : ((2 ^ 52 : ℕ) : ℤ) ≤ nearest (x / ulp x) := by
      apply le_nearest
      rw [le_div_iff₀ hu, Int.cast_natCast, hpow]
      have hself := Int.zpow_log_le_self one_lt_two (abs_pos.mpr hx)
      rw [abs_of_pos hpos] at hself ⊢
      exact_mod_cast hself
    have hbig : ((2 : ℚ) ^ (53 : ℤ)) ≤ 2 ^ Int.log 2 |x| :=
      zpow_le_zpow_right₀ one_le_two (by omega)
    calc (n : ℚ) ≤ 2 ^ (53 : ℤ) := by exact_mod_cast hn
      _ ≤ (2 ^ 52 : ℕ) * ulp x := hpow ▸ hbig
      _ ≤ fl x := mul_le_mul_of_nonneg_right (by exact_mod_cast hk) hu.le

end Binary64
