import Mathlib.Algebra.Group.Nat.Defs
import Mathlib.Data.Nat.Notation
import Mathlib.Tactic.Common

/-! Natural numbers rounded to a significand of 53 bits, ties to even. -/
namespace BinaryDouble

variable {n s : ℕ}

/-- The bits of `n` that do not fit. -/
def excess (n : ℕ) : ℕ := n.log2 + 1 - 53

/-- `n / 2 ^ s`, rounded to the nearest number. -/
def nearest (n s : ℕ) : ℕ :=
  let q := n / 2 ^ s
  let r := n % 2 ^ s
  if 2 * r < 2 ^ s then q
  else if 2 ^ s < 2 * r then q + 1
  else q + q % 2

def round (n : ℕ) : ℕ := nearest n (excess n) * 2 ^ excess n

theorem nearest_le (n s : ℕ) : nearest n s ≤ n / 2 ^ s + 1 := by
  have hmod := Nat.mod_lt (n / 2 ^ s) Nat.two_pos
  simp only [nearest]
  split
  · omega
  · split
    · omega
    · omega

theorem nearest_zero (n : ℕ) : nearest n 0 = n := by
  simp [nearest, Nat.mod_one]

/-- Rounding up adds less than one part in `2 ^ 52`. -/
theorem round_le (n : ℕ) : 2 ^ 52 * round n ≤ (2 ^ 52 + 1) * n := by
  unfold round
  rcases Nat.eq_zero_or_pos (excess n) with h0 | hpos
  · rw [h0, nearest_zero]
    omega
  · have hn : n ≠ 0 := by
      rintro rfl
      cases hpos
    have hlog : 52 + excess n = n.log2 := by
      unfold excess at hpos ⊢
      omega
    have hbit : 2 ^ 52 * 2 ^ excess n ≤ n := by
      rw [← Nat.pow_add, hlog]
      exact Nat.log2_self_le hn
    have hle : nearest n (excess n) * 2 ^ excess n ≤ (n / 2 ^ excess n + 1) * 2 ^ excess n :=
      Nat.mul_le_mul_right _ (nearest_le n _)
    have hdiv := Nat.div_mul_le_self n (2 ^ excess n)
    rw [Nat.succ_mul] at hle
    omega

end BinaryDouble
