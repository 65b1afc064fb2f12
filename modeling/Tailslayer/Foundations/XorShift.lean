import Mathlib.Data.Nat.Notation
import Mathlib.Logic.Function.Basic

/-! Xoring a word with a shift of itself loses nothing. -/
namespace XorShift

variable {w k : ℕ} {a b c d x : BitVec w}

/-- The lowest bit of a word is not in its left shift. -/
theorem eq_zero_of_shiftLeft (hk : 0 < k) (h : x = x <<< k) : x = 0#w := by
  apply BitVec.eq_of_getLsbD_eq
  intro i _
  rw [BitVec.getLsbD_zero]
  induction i using Nat.strongRecOn with
  | ind i ih =>
    rw [h, BitVec.getLsbD_shiftLeft]
    by_cases hi : i < k
    · simp [hi]
    · simp [ih (i - k) (by omega) (by omega)]

/-- The highest bit of a word is not in its right shift. -/
theorem eq_zero_of_shiftRight (hk : 0 < k) (h : x = x >>> k) : x = 0#w := by
  have hbits : ∀ n i, w ≤ i + n → x.getLsbD i = false := by
    intro n
    induction n with
    | zero =>
      intro i hi
      exact BitVec.getLsbD_of_ge x i hi
    | succ n ih =>
      intro i hi
      rw [h, BitVec.getLsbD_ushiftRight]
      exact ih (k + i) (by omega)
  apply BitVec.eq_of_getLsbD_eq
  intro i _
  rw [BitVec.getLsbD_zero]
  exact hbits w i (Nat.le_add_left w i)

theorem xor_swap (h : a ^^^ b = c ^^^ d) : a ^^^ c = b ^^^ d := by
  apply BitVec.xor_eq_zero_iff.mp
  calc a ^^^ c ^^^ (b ^^^ d) = a ^^^ b ^^^ (c ^^^ d) := by ac_rfl
    _ = 0#w := by rw [h, BitVec.xor_self]

theorem injective_shiftLeft (hk : 0 < k) :
    Function.Injective (fun x : BitVec w => x ^^^ x <<< k) := by
  intro x y h
  apply BitVec.xor_eq_zero_iff.mp
  apply eq_zero_of_shiftLeft hk
  rw [BitVec.shiftLeft_xor_distrib]
  exact xor_swap h

theorem injective_shiftRight (hk : 0 < k) :
    Function.Injective (fun x : BitVec w => x ^^^ x >>> k) := by
  intro x y h
  apply BitVec.xor_eq_zero_iff.mp
  apply eq_zero_of_shiftRight hk
  rw [BitVec.ushiftRight_xor_distrib]
  exact xor_swap h

/-! On 64-bit words, whose shifts reduce the amount. -/

theorem injective_xor_shiftLeft {k : UInt64} (hk : 0 < k.toNat % 64) :
    Function.Injective (fun x : UInt64 => x ^^^ x <<< k) := by
  intro x y h
  apply UInt64.toBitVec_inj.mp
  have hbits := congrArg UInt64.toBitVec h
  simp only [UInt64.toBitVec_xor, UInt64.toBitVec_shiftLeft, BitVec.shiftLeft_eq'] at hbits
  exact injective_shiftLeft hk hbits

theorem injective_xor_shiftRight {k : UInt64} (hk : 0 < k.toNat % 64) :
    Function.Injective (fun x : UInt64 => x ^^^ x >>> k) := by
  intro x y h
  apply UInt64.toBitVec_inj.mp
  have hbits := congrArg UInt64.toBitVec h
  simp only [UInt64.toBitVec_xor, UInt64.toBitVec_shiftRight, BitVec.ushiftRight_eq'] at hbits
  exact injective_shiftRight hk hbits

end XorShift
