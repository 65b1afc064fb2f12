import Tailslayer.Foundations.WordBits

/-! Rounding 64-bit words to multiples of a power of two by masking. -/
namespace RoundUp

variable {p x : UInt64} {k : ℕ}

/-- The least multiple of `p` that is `x` or more. -/
def ceil (p x : ℕ) : ℕ := (x + p - 1) / p * p

theorem le_ceil {p : ℕ} (hp : 0 < p) (x : ℕ) : x ≤ ceil p x := by
  have hmod := Nat.div_add_mod' (x + p - 1) p
  have hlt := Nat.mod_lt (x + p - 1) hp
  unfold ceil
  omega

theorem ceil_lt {p : ℕ} (hp : 0 < p) (x : ℕ) : ceil p x < x + p := by
  have hmod := Nat.div_add_mod' (x + p - 1) p
  unfold ceil
  omega

theorem ceil_of_dvd {p x : ℕ} (hp : 0 < p) (h : p ∣ x) : ceil p x = x := by
  obtain ⟨q, rfl⟩ := h
  rw [ceil, Nat.add_sub_assoc hp, Nat.mul_add_div hp, Nat.div_eq_of_lt (Nat.sub_lt hp Nat.one_pos),
    Nat.add_zero, Nat.mul_comm]

theorem dvd_ceil (p x : ℕ) : p ∣ ceil p x := Nat.dvd_mul_left p _

theorem ceil_le {p x m : ℕ} (hp : 0 < p) (h : p ∣ m) (hx : x ≤ m) : ceil p x ≤ m := by
  obtain ⟨q, rfl⟩ := h
  have hle : (x + p - 1) / p ≤ q := by
    rw [← Nat.lt_succ_iff, Nat.div_lt_iff_lt_mul hp, Nat.succ_mul, Nat.mul_comm q]
    omega
  rw [ceil, Nat.mul_comm p]
  exact Nat.mul_le_mul_right p hle

/-- The mask clears the bits below that of `p`. -/
theorem toNat_and_not_pred (hp : p.toNat = 2 ^ k) (x : UInt64) :
    (x &&& ~~~(p - 1)).toNat = x.toNat / p.toNat * p.toNat := by
  have hm : (p - 1).toNat = 2 ^ k - 1 := by
    rw [UInt64.toNat_sub_of_le, hp]
    · rfl
    · rw [UInt64.le_iff_toNat_le, hp]
      exact Nat.one_le_two_pow
  have hlt := (p - 1).toNat_lt
  have hnot : (~~~(p - 1)).toNat = 2 ^ 64 - ((p - 1).toNat + 1) := by
    rw [UInt64.toNat_not]
    change 2 ^ 64 - 1 - _ = _
    omega
  apply Nat.eq_of_testBit_eq
  intro i
  rw [UInt64.toNat_and, hnot, Nat.testBit_and, Nat.testBit_two_pow_sub_succ hlt, hm, hp,
    Nat.testBit_two_pow_sub_one, Nat.testBit_mul_two_pow, Nat.testBit_div_two_pow]
  by_cases hk : k ≤ i
  · rw [Nat.sub_add_cancel hk]
    by_cases hi : x.toNat.testBit i
    · simp [hi, WordBits.lt_of_testBit hi, hk]
    · simp [hi]
  · simp [hk, Nat.not_le.mp hk]

theorem toNat_add_pred (hp : 0 < p.toNat) (hfit : x.toNat + p.toNat ≤ 2 ^ 64) :
    (x + p - 1).toNat = x.toNat + p.toNat - 1 := by
  rw [UInt64.toNat_sub, UInt64.toNat_add, UInt64.toNat_one]
  omega

/-- Where the sum does not overflow, the expression rounds up. -/
theorem toNat_ceil (hp : p.toNat = 2 ^ k) (hfit : x.toNat + p.toNat ≤ 2 ^ 64) :
    ((x + p - 1) &&& ~~~(p - 1)).toNat = ceil p.toNat x.toNat := by
  rw [toNat_and_not_pred hp, toNat_add_pred (hp ▸ Nat.two_pow_pos k) hfit, ceil]

end RoundUp
