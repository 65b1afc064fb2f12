import Mathlib.Data.Nat.Bits
import Mathlib.Data.Nat.ModEq
import Mathlib.Tactic.Ring

/-! Splitting an index by the trailing zeros of `E` and by the mask `E - 1`. -/
namespace MaskedIndex

variable {E s q l l' : ℕ}

/-- `E` is an odd number shifted by `s`. -/
def TrailingZeros (E s : ℕ) : Prop := ∃ q, q % 2 = 1 ∧ E = 2 ^ s * q

theorem trailingZeros_of_testBit (hlow : ∀ i, i < s → E.testBit i = false)
    (hs : E.testBit s = true) : TrailingZeros E s := by
  refine ⟨E / 2 ^ s, ?_, ?_⟩
  · rw [Nat.testBit_eq_decide_div_mod_eq] at hs
    exact of_decide_eq_true hs
  · symm
    apply Nat.mul_div_cancel'
    apply Nat.dvd_of_mod_eq_zero
    apply Nat.eq_of_testBit_eq
    intro i
    by_cases hi : i < s <;> simp [Nat.testBit_mod_two_pow, hi, hlow]

/-- A power of two has no odd factor left. -/
theorem TrailingZeros.eq_of_two_pow {j : ℕ} (h : TrailingZeros (2 ^ j) s) : s = j := by
  obtain ⟨q, hq, he⟩ := h
  have hle : s ≤ j := (Nat.pow_dvd_pow_iff_le_right (by omega)).mp (Dvd.intro _ he.symm)
  have hpow : q = 2 ^ (j - s) := by
    apply Nat.eq_of_mul_eq_mul_left (Nat.two_pow_pos s)
    rw [← he, ← Nat.pow_add, Nat.add_sub_cancel' hle]
  rcases hd : j - s with _ | d
  · omega
  · rw [hpow, hd, Nat.pow_succ] at hq
    omega

theorem TrailingZeros.eq_zero_of_odd (h : TrailingZeros E s) (hE : E % 2 = 1) : s = 0 := by
  obtain ⟨q, _, rfl⟩ := h
  rcases s with _ | s
  · rfl
  · rw [Nat.pow_succ, Nat.mul_right_comm] at hE
    omega

/-- The mask keeps the low bits and masks the rest by the odd factor alone. -/
theorem and_pred (hq : 0 < q) (l : ℕ) :
    l &&& (2 ^ s * q - 1) = 2 ^ s * (l / 2 ^ s &&& (q - 1)) + l % 2 ^ s := by
  have hpos := Nat.two_pow_pos s
  have hp : 2 ^ s * q - 1 = 2 ^ s * (q - 1) + (2 ^ s - 1) := by
    obtain ⟨r, rfl⟩ : ∃ r, q = r + 1 := ⟨q - 1, by omega⟩
    rw [Nat.add_sub_cancel, Nat.mul_succ]
    omega
  have hdiv : (2 ^ s * q - 1) / 2 ^ s = q - 1 := by
    rw [hp, Nat.mul_add_div hpos, Nat.div_eq_of_lt (by omega), Nat.add_zero]
  have hmod : (2 ^ s * q - 1) % 2 ^ s = 2 ^ s - 1 := by
    rw [hp, Nat.mul_add_mod, Nat.mod_eq_of_lt (by omega)]
  have hdm := Nat.div_add_mod (l &&& (2 ^ s * q - 1)) (2 ^ s)
  rw [Nat.and_div_two_pow, Nat.and_mod_two_pow, hdiv, hmod, Nat.and_two_pow_sub_one_eq_mod,
    Nat.mod_mod] at hdm
  exact hdm.symm

theorem and_pred_lt (hE : 0 < E) (l : ℕ) : l &&& (E - 1) < E := by
  have h : l &&& (E - 1) ≤ E - 1 := Nat.and_le_right
  omega

/-- Shift and mask together lose nothing, although they may overlap. -/
theorem split_inj (hE : TrailingZeros E s) (hc : l / 2 ^ s = l' / 2 ^ s)
    (ho : l &&& (E - 1) = l' &&& (E - 1)) : l = l' := by
  obtain ⟨q, hq, rfl⟩ := hE
  rw [and_pred (by omega), and_pred (by omega), hc] at ho
  have hm : l % 2 ^ s = l' % 2 ^ s := by omega
  rw [← Nat.div_add_mod l (2 ^ s), ← Nat.div_add_mod l' (2 ^ s), hc, hm]

/-- The position of an index when rows are `S` apart. -/
def position (S E s l : ℕ) : ℕ := l / 2 ^ s * S + (l &&& (E - 1))

theorem position_two_pow (S s l : ℕ) : position S (2 ^ s) s l = l / 2 ^ s * S + l % 2 ^ s := by
  rw [position, Nat.and_two_pow_sub_one_eq_mod]

theorem position_eq (hq : 0 < q) (S l : ℕ) : position S (2 ^ s * q) s l =
    l / 2 ^ s * S + (2 ^ s * (l / 2 ^ s &&& (q - 1)) + l % 2 ^ s) := by
  rw [position, and_pred hq]

/-! Rows of `C` interleaved slots of width `E`. -/

/-- The position of offset `o` in slot `i` of row `c`. -/
def interleave (C E i c o : ℕ) : ℕ := (c * C + i) * E + o

theorem interleave_inj {C i i' c c' o o' : ℕ} (hi : i < C) (hi' : i' < C) (ho : o < E)
    (ho' : o' < E) (h : interleave C E i c o = interleave C E i' c' o') :
    i = i' ∧ c = c' ∧ o = o' := by
  unfold interleave at h
  have hE : 0 < E := by omega
  have hdiv := congrArg (· / E) h
  have hmod := congrArg (· % E) h
  simp only [Nat.mul_comm _ E, Nat.mul_add_div hE, Nat.mul_add_mod, Nat.div_eq_of_lt ho,
    Nat.div_eq_of_lt ho', Nat.mod_eq_of_lt ho, Nat.mod_eq_of_lt ho', Nat.add_zero] at hdiv hmod
  have hC : 0 < C := by omega
  have hdiv' := congrArg (· / C) hdiv
  have hmod' := congrArg (· % C) hdiv
  simp only [Nat.mul_comm _ C, Nat.mul_add_div hC, Nat.mul_add_mod, Nat.div_eq_of_lt hi,
    Nat.div_eq_of_lt hi', Nat.mod_eq_of_lt hi, Nat.mod_eq_of_lt hi', Nat.add_zero]
    at hdiv' hmod'
  exact ⟨hmod', hdiv', hmod⟩

end MaskedIndex
