import Mathlib.Tactic.Common

/-! The bytes of texts, as `char` arrays hold them. -/
namespace ByteStrings

/-- The UTF-8 bytes of a text. -/
def bytes (s : String) : List UInt8 := s.toUTF8.data.toList

variable {s t : String}

theorem bytes_inj (h : bytes s = bytes t) : s = t :=
  String.toByteArray_inj.mp (ByteArray.ext (Array.toList_inj.mp h))

theorem bytes_eq_flatMap (s : String) : bytes s = s.toList.flatMap String.utf8EncodeChar := by
  rw [bytes, String.toUTF8, ← String.utf8Encode_toList, List.utf8Encode]
  simp

/-- Every ASCII character is one byte. -/
theorem length_bytes_of_ascii (h : ∀ c ∈ s.toList, c.val ≤ 127) :
    (bytes s).length = s.toList.length := by
  rw [bytes_eq_flatMap]
  generalize s.toList = l at h
  induction l with
  | nil => rfl
  | cons c l ih =>
    have hc : c.utf8Size = 1 := Char.utf8Size_eq_one_iff.mpr (h c List.mem_cons_self)
    rw [List.flatMap_cons, List.length_append, String.length_utf8EncodeChar, hc,
      ih fun d hd => h d (List.mem_cons_of_mem c hd), List.length_cons, Nat.add_comm]

/-- A number is printed with one byte for each of its digits. -/
theorem length_bytes_repr (n : ℕ) : (bytes n.repr).length = (Nat.toDigits 10 n).length := by
  rw [length_bytes_of_ascii, Nat.toList_repr]
  intro c hc
  rw [Nat.toList_repr] at hc
  have hdigit := Nat.isDigit_of_mem_toDigits (by decide) (by decide) hc
  rw [Char.isDigit, Bool.and_eq_true, decide_eq_true_eq, decide_eq_true_eq] at hdigit
  exact UInt32.le_trans hdigit.2 (by decide)

end ByteStrings
