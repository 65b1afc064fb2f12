import Mathlib.Algebra.Group.Nat.Defs
import Mathlib.Data.Nat.BitIndices
import Mathlib.Data.Nat.Bitwise
import Mathlib.Data.Nat.Choose.Basic
import Mathlib.Order.Bounds.Basic
import Mathlib.Tactic.Ring

/-! Numbers by how many bits are set in them, and the next number with as many. -/
namespace SetBits

variable {a b m r t x y limit : ℕ} {P : ℕ → Prop}

/-- The number of bits that are set. -/
def count (x : ℕ) : ℕ := x.bitIndices.length

@[simp] theorem count_zero : count 0 = 0 := rfl

@[simp] theorem count_two_mul (x : ℕ) : count (2 * x) = count x := by
  simp [count]

@[simp] theorem count_two_mul_add_one (x : ℕ) : count (2 * x + 1) = count x + 1 := by
  simp [count]

/-- A number is twice its half, or one more. -/
theorem half_cases (x : ℕ) : ∃ c, x = 2 * c ∨ x = 2 * c + 1 := ⟨x / 2, by omega⟩

/-- The bits of two numbers side by side. -/
theorem count_add (a : ℕ) (hb : b < 2 ^ m) : count (a * 2 ^ m + b) = count a + count b := by
  induction m generalizing b with
  | zero =>
    obtain rfl : b = 0 := by simpa using hb
    simp
  | succ m ih =>
    rw [Nat.pow_succ'] at hb
    obtain ⟨c, rfl | rfl⟩ := half_cases b
    · have hsplit : a * 2 ^ (m + 1) + 2 * c = 2 * (a * 2 ^ m + c) := by
        rw [Nat.pow_succ', Nat.mul_add, Nat.mul_left_comm]
      rw [hsplit, count_two_mul, count_two_mul, ih (by omega)]
    · have hsplit : a * 2 ^ (m + 1) + (2 * c + 1) = 2 * (a * 2 ^ m + c) + 1 := by
        rw [Nat.pow_succ', Nat.mul_add, Nat.mul_left_comm, Nat.add_assoc]
      rw [hsplit, count_two_mul_add_one, count_two_mul_add_one, ih (by omega), Nat.add_assoc]

theorem count_mul_two_pow (a t : ℕ) : count (a * 2 ^ t) = count a := by
  simpa using count_add a (Nat.two_pow_pos t)

theorem count_two_pow_sub_one (m : ℕ) : count (2 ^ m - 1) = m := by
  induction m with
  | zero => rfl
  | succ m ih =>
    have hpos := Nat.two_pow_pos m
    have hsplit : 2 ^ (m + 1) - 1 = 2 * (2 ^ m - 1) + 1 := by
      rw [Nat.pow_succ']
      omega
    rw [hsplit, count_two_mul_add_one, ih]

/-- The least number with as many bits has them all at the bottom. -/
theorem two_pow_count_le (x : ℕ) : 2 ^ count x ≤ x + 1 := by
  induction x using Nat.strongRecOn with
  | ind x ih =>
    obtain ⟨c, rfl | rfl⟩ := half_cases x
    · rcases Nat.eq_zero_or_pos c with rfl | hc
      · simp
      · have hle := ih c (by omega)
        rw [count_two_mul]
        omega
    · have hle := ih c (by omega)
      rw [count_two_mul_add_one, Nat.pow_succ']
      omega

/-- The largest number below `2 ^ m` with as many bits has them all at the top. -/
theorem add_two_pow_le (hb : b < 2 ^ m) : count b ≤ m ∧ b + 2 ^ (m - count b) ≤ 2 ^ m := by
  induction m generalizing b with
  | zero =>
    obtain rfl : b = 0 := by simpa using hb
    simp
  | succ m ih =>
    rw [Nat.pow_succ'] at hb ⊢
    obtain ⟨c, rfl | rfl⟩ := half_cases b
    · obtain ⟨hle, htop⟩ := ih (b := c) (by omega)
      rw [count_two_mul, Nat.succ_sub hle, Nat.pow_succ']
      omega
    · obtain ⟨hle, htop⟩ := ih (b := c) (by omega)
      have hpos := Nat.two_pow_pos (m - count c)
      rw [count_two_mul_add_one, Nat.add_sub_add_right]
      omega

/-- Below `2 ^ m` there are as many numbers with `k` bits as there are choices of `k` of `m`. -/
theorem countP_range_two_pow (m k : ℕ) :
    (List.range (2 ^ m)).countP (count · = k) = m.choose k := by
  induction m generalizing k with
  | zero =>
    cases k with
    | zero => rfl
    | succ k => rfl
  | succ m ih =>
    have hupper : ∀ x ∈ List.range (2 ^ m), count (2 ^ m + x) = count x + 1 := by
      intro x hx
      have hone : count 1 = 1 := count_two_mul_add_one 0
      have hadd := count_add 1 (List.mem_range.mp hx)
      rwa [Nat.one_mul, hone, Nat.add_comm 1] at hadd
    rw [Nat.pow_succ, Nat.mul_two, List.range_add, List.countP_append, List.countP_map, ih]
    cases k with
    | zero =>
      have hnone : (List.range (2 ^ m)).countP
          ((fun x => decide (count x = 0)) ∘ (fun x => 2 ^ m + x)) = 0 := by
        rw [List.countP_eq_zero]
        intro x hx
        simp [hupper x hx]
      rw [hnone, Nat.choose_zero_right, Nat.choose_zero_right]
    | succ k =>
      have hsame : (List.range (2 ^ m)).countP
          ((fun x => decide (count x = k + 1)) ∘ (fun x => 2 ^ m + x)) =
          (List.range (2 ^ m)).countP (count · = k) := by
        apply List.countP_congr
        intro x hx
        simp [hupper x hx]
      rw [hsame, ih, Nat.choose_succ_succ, Nat.add_comm]

/-! The next number with as many bits. -/

/-- A number is a block of ones, zeros below it and a zero above. -/
def blocked (a r t : ℕ) : ℕ := (a * 2 ^ (r + 2) + (2 ^ (r + 1) - 1)) * 2 ^ t

/-- The block gives its highest bit to the zero above it and falls to the bottom. -/
def advanced (a r t : ℕ) : ℕ := (2 * a + 1) * 2 ^ (r + 1 + t) + (2 ^ r - 1)

theorem two_mul_blocked (a r t : ℕ) : 2 * blocked a r t = blocked a r (t + 1) := by
  rw [blocked, blocked, Nat.pow_succ' (n := t), Nat.mul_left_comm]

/-- One more one at the bottom. -/
theorem two_mul_blocked_add_one (a r : ℕ) : 2 * blocked a r 0 + 1 = blocked a (r + 1) 0 := by
  have hpos := Nat.two_pow_pos (r + 1)
  have hmul : a * (2 * (2 * 2 ^ (r + 1))) = 2 * (a * (2 * 2 ^ (r + 1))) := Nat.mul_left_comm _ _ _
  simp only [blocked, Nat.pow_zero, Nat.mul_one]
  rw [Nat.pow_succ' (n := r + 2), Nat.pow_succ' (n := r + 1), hmul]
  omega

theorem exists_blocked (h : 0 < x) : ∃ a r t, x = blocked a r t := by
  induction x using Nat.strongRecOn with
  | ind x ih =>
    obtain ⟨c, rfl | rfl⟩ := half_cases x
    · obtain ⟨a, r, t, rfl⟩ := ih c (by omega) (by omega)
      exact ⟨a, r, t + 1, two_mul_blocked a r t⟩
    · obtain ⟨d, rfl | rfl⟩ := half_cases c
      · refine ⟨d, 0, 0, ?_⟩
        simp only [blocked]
        omega
      · -- the number that ends in a one less is odd as well, so its block is at the bottom
        obtain ⟨a, r, t, he⟩ := ih (2 * d + 1) (by omega) (by omega)
        cases t with
        | zero => exact ⟨a, r + 1, 0, he ▸ two_mul_blocked_add_one a r⟩
        | succ t =>
          rw [← two_mul_blocked] at he
          omega

theorem blocked_eq (a r t : ℕ) :
    blocked a r t = 2 * a * 2 ^ (r + 1 + t) + (2 ^ (r + 1) - 1) * 2 ^ t := by
  rw [blocked, Nat.add_mul, Nat.pow_add 2 (r + 1) t, Nat.pow_succ 2 (r + 1)]
  congr 1
  ring

theorem count_blocked (a r t : ℕ) : count (blocked a r t) = count a + (r + 1) := by
  have hpos := Nat.two_pow_pos (r + 2)
  have hlt : 2 ^ (r + 1) - 1 < 2 ^ (r + 2) := by
    rw [Nat.pow_succ 2 (r + 1)] at hpos ⊢
    omega
  rw [blocked, count_mul_two_pow, count_add a hlt, count_two_pow_sub_one]

theorem low_lt (r t : ℕ) : 2 ^ r - 1 < 2 ^ (r + 1 + t) := by
  have hpos := Nat.two_pow_pos r
  have hle : 2 ^ r ≤ 2 ^ (r + 1 + t) := Nat.pow_le_pow_right Nat.two_pos (by omega)
  omega

theorem count_advanced (a r t : ℕ) : count (advanced a r t) = count a + (r + 1) := by
  rw [advanced, count_add _ (low_lt r t), count_two_mul_add_one, count_two_pow_sub_one]
  omega

theorem ones_add (s t : ℕ) : (2 ^ s - 1) * 2 ^ t + 2 ^ t = 2 ^ (s + t) := by
  rw [← Nat.succ_mul, Nat.succ_eq_add_one, Nat.sub_add_cancel Nat.one_le_two_pow, Nat.pow_add]

theorem blocked_lt_advanced (a r t : ℕ) : blocked a r t < advanced a r t := by
  have hpos := Nat.two_pow_pos t
  have hones := ones_add (r + 1) t
  rw [blocked_eq, advanced, Nat.add_mul, Nat.one_mul]
  omega

/-- No number in between has as many bits. -/
theorem advanced_le (hcount : count y = count (blocked a r t)) (hlt : blocked a r t < y) :
    advanced a r t ≤ y := by
  rw [count_blocked] at hcount
  rw [blocked_eq] at hlt
  have hy := Nat.div_add_mod' y (2 ^ (r + 1 + t))
  have hmod := Nat.mod_lt y (Nat.two_pow_pos (r + 1 + t))
  have hsplit := count_add (y / 2 ^ (r + 1 + t)) hmod
  rw [hy, hcount] at hsplit
  generalize y / 2 ^ (r + 1 + t) = q, y % 2 ^ (r + 1 + t) = l at hy hmod hsplit
  rcases Nat.lt_trichotomy q (2 * a + 1) with hq | rfl | hq
  · -- with the same bits above the block, nothing is larger
    rcases Nat.lt_or_eq_of_le (Nat.le_of_lt_succ hq) with hq | rfl
    · have hle : (q + 1) * 2 ^ (r + 1 + t) ≤ 2 * a * 2 ^ (r + 1 + t) := Nat.mul_le_mul_right _ hq
      rw [Nat.succ_mul] at hle
      omega
    · obtain ⟨-, htop⟩ := add_two_pow_le hmod
      have hl : count l = r + 1 := by
        rw [count_two_mul] at hsplit
        omega
      have hones := ones_add (r + 1) t
      rw [hl, Nat.add_sub_cancel_left] at htop
      omega
  · have hl : count l = r := by
      rw [count_two_mul_add_one] at hsplit
      omega
    have hbottom := two_pow_count_le l
    rw [hl] at hbottom
    rw [advanced]
    omega
  · have hle : (2 * a + 1 + 1) * 2 ^ (r + 1 + t) ≤ q * 2 ^ (r + 1 + t) :=
      Nat.mul_le_mul_right _ hq
    have hlow := low_lt r t
    rw [Nat.succ_mul] at hle
    rw [advanced]
    omega

theorem isLeast_advanced (a r t : ℕ) :
    IsLeast {y | count y = count (blocked a r t) ∧ blocked a r t < y} (advanced a r t) := by
  refine ⟨⟨?_, blocked_lt_advanced a r t⟩, ?_⟩
  · rw [count_advanced, count_blocked]
  · rintro y ⟨hcount, hlt⟩
    exact advanced_le hcount hlt

/-! Arithmetic on the bits of a number written in blocks. -/

theorem ldiff_pred (q t : ℕ) :
    Nat.ldiff ((2 * q + 1) * 2 ^ t) ((2 * q + 1) * 2 ^ t - 1) = 2 ^ t := by
  have hpos := Nat.two_pow_pos t
  have hlow : 2 ^ t - 1 < 2 ^ t := Nat.sub_lt hpos Nat.one_pos
  have hpred : (2 * q + 1) * 2 ^ t - 1 = 2 ^ t * (2 * q) + (2 ^ t - 1) := by
    rw [Nat.succ_mul, Nat.mul_comm]
    omega
  apply Nat.eq_of_testBit_eq
  intro i
  rw [hpred, Nat.testBit_ldiff, Nat.testBit_mul_two_pow, Nat.testBit_two_pow_mul_add _ hlow,
    Nat.testBit_two_pow]
  rcases Nat.lt_trichotomy i t with hi | rfl | hi
  · simp [Nat.not_le.mpr hi, Nat.ne_of_gt hi]
  · simp
  · obtain ⟨d, hd⟩ : ∃ d, i - t = d + 1 := ⟨i - t - 1, by omega⟩
    simp [Nat.not_lt.mpr hi.le, Nat.ne_of_lt hi, hd, Nat.testBit_succ, Nat.mul_add_div]

theorem blocked_odd (a r t : ℕ) :
    blocked a r t = (2 * (a * 2 ^ (r + 1) + (2 ^ r - 1)) + 1) * 2 ^ t := by
  have hpos := Nat.two_pow_pos r
  have hmul : a * (2 * 2 ^ (r + 1)) = 2 * (a * 2 ^ (r + 1)) := Nat.mul_left_comm _ _ _
  rw [blocked, Nat.pow_succ' (n := r + 1), hmul]
  congr 1
  rw [Nat.pow_succ']
  omega

theorem blocked_add (a r t : ℕ) : blocked a r t + 2 ^ t = (2 * a + 1) * 2 ^ (r + 1 + t) := by
  rw [blocked_eq, Nat.add_assoc, ones_add, Nat.add_mul (2 * a), Nat.one_mul]

theorem xor_blocked (a r t : ℕ) :
    blocked a r t ^^^ (blocked a r t + 2 ^ t) = (2 ^ (r + 2) - 1) * 2 ^ t := by
  have hpos := Nat.two_pow_pos (r + 1)
  have hleft : blocked a r t + 2 ^ t = (2 ^ (r + 2) * a + 2 ^ (r + 1)) * 2 ^ t := by
    rw [blocked_add]
    ring
  have hlow : 2 ^ (r + 1) - 1 < 2 ^ (r + 2) := by
    rw [Nat.pow_succ' (n := r + 1)]
    omega
  have hhigh : 2 ^ (r + 1) < 2 ^ (r + 2) := by
    rw [Nat.pow_succ' (n := r + 1)]
    omega
  rw [hleft, blocked, Nat.mul_comm a]
  apply Nat.eq_of_testBit_eq
  intro i
  simp only [Nat.testBit_xor, Nat.testBit_mul_two_pow, Nat.testBit_two_pow_mul_add _ hlow,
    Nat.testBit_two_pow_mul_add _ hhigh, Nat.testBit_two_pow_sub_one, Nat.testBit_two_pow]
  by_cases hi : t ≤ i
  · simp only [hi, decide_true, Bool.true_and]
    generalize i - t = j
    split
    · next hj =>
      by_cases hjr : j < r + 1
      · simp [hj, hjr, Nat.ne_of_gt hjr]
      · obtain rfl : r + 1 = j := by omega
        simp
    · next hj => simp [hj]
  · simp [hi]

theorem or_low (a r t : ℕ) :
    (2 * a + 1) * 2 ^ (r + 1 + t) ||| (2 ^ r - 1) = advanced a r t := by
  rw [advanced, Nat.mul_comm, Nat.two_pow_add_eq_or_of_lt (low_lt r t)]

theorem block_quotient (r t : ℕ) :
    (((2 ^ (r + 2) - 1) * 2 ^ t) >>> 2) / 2 ^ t = 2 ^ r - 1 := by
  have hpos := Nat.two_pow_pos r
  rw [Nat.shiftRight_eq_div_pow, Nat.div_div_eq_div_mul, Nat.mul_comm (2 ^ 2),
    ← Nat.div_div_eq_div_mul, Nat.mul_div_cancel _ (Nat.two_pow_pos t), Nat.pow_add]
  omega

/-! Counting up through the elements of a set. -/

/-- What is left to list from an element on: the element, and what is left from the next one on. -/
theorem filter_range'_next [DecidablePred P] (hx : P x) (hlt : x < limit)
    (hy : IsLeast {z | P z ∧ x < z} y) : (List.range' x (limit - x)).filter P =
      x :: (List.range' y (limit - y)).filter P := by
  have hgap : ∀ z, x + 1 ≤ z → z < y → ¬ P z := by
    intro z hz hzy hP
    exact absurd (hy.2 ⟨hP, hz⟩) (Nat.not_le.mpr hzy)
  have hstart : x + 1 ≤ y := hy.1.2
  obtain ⟨d, hd⟩ : ∃ d, limit - x = d + 1 := ⟨limit - x - 1, by omega⟩
  rw [hd, List.range'_succ, List.filter_cons_of_pos (by simpa using hx)]
  congr 1
  rcases Nat.lt_or_ge y limit with hl | hl
  · have hsplit : List.range' (x + 1) d =
        List.range' (x + 1) (y - (x + 1)) ++ List.range' y (limit - y) := by
      have happend := @List.range'_append_1 (x + 1) (y - (x + 1)) (limit - y)
      rw [Nat.add_sub_cancel' hstart] at happend
      rw [happend]
      congr 1
      omega
    have hnone : (List.range' (x + 1) (y - (x + 1))).filter P = [] := by
      rw [List.filter_eq_nil_iff]
      intro z hz
      obtain ⟨hlo, hhi⟩ := List.mem_range'_1.mp hz
      simpa using hgap z hlo (by omega)
    rw [hsplit, List.filter_append, hnone, List.nil_append]
  · have hempty : limit - y = 0 := by omega
    rw [hempty, List.range'_zero, List.filter_nil, List.filter_eq_nil_iff]
    intro z hz
    obtain ⟨hlo, hhi⟩ := List.mem_range'_1.mp hz
    simpa using hgap z hlo (by omega)

end SetBits
