import Mathlib.Data.List.Nodup
import Mathlib.Data.Nat.Bitwise

/-! 64-bit words as sets of bit positions. -/
namespace WordBits

variable {a b w : UInt64} {i j : ℕ}

/-- The word `1 << i`. -/
def bit (i : ℕ) : UInt64 := 1 <<< UInt64.ofNat i

theorem toNat_bit (h : i < 64) : (bit i).toNat = 2 ^ i := by
  have hp : 2 ^ i < 2 ^ 64 := Nat.pow_lt_pow_right (by decide) h
  have hi : (UInt64.ofNat i).toNat = i := by
    simp only [UInt64.toNat_ofNat']
    omega
  rw [bit, UInt64.toNat_shiftLeft, hi, Nat.mod_eq_of_lt h, UInt64.toNat_one, Nat.shiftLeft_eq,
    Nat.one_mul, Nat.mod_eq_of_lt hp]

theorem bit_inj (hi : i < 64) (hj : j < 64) (h : bit i = bit j) : i = j := by
  have hn := congrArg UInt64.toNat h
  rw [toNat_bit hi, toNat_bit hj] at hn
  exact Nat.pow_right_injective (Nat.le_refl 2) hn

theorem lt_of_testBit (h : w.toNat.testBit i) : i < 64 := by
  by_contra hn
  have hw : w.toNat < 2 ^ i :=
    Nat.lt_of_lt_of_le w.toNat_lt (Nat.pow_le_pow_right (by decide) (by omega))
  rw [Nat.testBit_lt_two_pow hw] at h
  exact absurd h (by decide)

theorem and_ne_zero_iff : a &&& b ≠ 0 ↔ ∃ i, a.toNat.testBit i ∧ b.toNat.testBit i := by
  constructor
  · intro h
    by_contra hn
    apply h
    apply UInt64.toNat_inj.mp
    apply Nat.eq_of_testBit_eq
    intro i
    rw [UInt64.toNat_and, Nat.testBit_and, UInt64.toNat_zero, Nat.zero_testBit]
    by_contra hb
    exact hn ⟨i, by simpa using hb⟩
  · rintro ⟨i, ha, hb⟩ h
    have ht : (a &&& b).toNat.testBit i = true := by
      rw [UInt64.toNat_and, Nat.testBit_and, ha, hb]
      rfl
    simp [h] at ht

theorem testBit_bit (h : i < 64) : (bit i).toNat.testBit j ↔ i = j := by
  simp [toNat_bit h, Nat.testBit_two_pow]

/-- A single bit meets a word exactly when it is set there. -/
theorem and_bit_ne_zero (h : i < 64) : w &&& bit i ≠ 0 ↔ w.toNat.testBit i := by
  rw [and_ne_zero_iff]
  constructor
  · rintro ⟨j, hw, hj⟩
    rwa [(testBit_bit h).mp hj]
  · intro hw
    exact ⟨i, hw, (testBit_bit h).mpr rfl⟩

/-- The positions a loop over all 64 bits does not skip. -/
def bits (w : UInt64) : List ℕ := (List.range 64).filter (fun i => w &&& bit i ≠ 0)

theorem mem_bits : i ∈ bits w ↔ w.toNat.testBit i := by
  simp only [bits, List.mem_filter, List.mem_range, decide_eq_true_eq]
  constructor
  · rintro ⟨hi, hw⟩
    exact (and_bit_ne_zero hi).mp hw
  · intro hw
    exact ⟨lt_of_testBit hw, (and_bit_ne_zero (lt_of_testBit hw)).mpr hw⟩

theorem lt_of_mem_bits (h : i ∈ bits w) : i < 64 :=
  lt_of_testBit (mem_bits.mp h)

theorem nodup_bits (w : UInt64) : (bits w).Nodup :=
  List.nodup_range.filter _

theorem exists_mem_bits (h : w ≠ 0) : ∃ i, i ∈ bits w := by
  have hw : w &&& w ≠ 0 := by simpa using h
  obtain ⟨i, hi, -⟩ := and_ne_zero_iff.mp hw
  exact ⟨i, mem_bits.mpr hi⟩

end WordBits
