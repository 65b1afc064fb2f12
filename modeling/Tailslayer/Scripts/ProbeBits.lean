import Mathlib.Data.Int.Bitwise
import Tailslayer.Foundations.SetBits
import Tailslayer.Foundations.WhileLoop

/-! `gospers_hack` (`probe_bits.py`): the numbers below `2 ^ n` with `k` bits set, in order. -/
namespace Tailslayer.ProbeBits

open SetBits

/-- `lowbit` is zero. -/
inductive Fault
  | zeroDivision
  deriving DecidableEq, Repr

/-- The body of the loop, on `x` and `results`. -/
def gospersStep (limit : ℤ) (s : ℤ × List ℤ) : Except Fault (Option (ℤ × List ℤ)) :=
  let (x, results) := s
  if x < limit then
    let results := results ++ [x]
    let lowbit := Int.land x (-x)
    let left := x + lowbit
    if lowbit = 0 then .error .zeroDivision
    else
      let right := (Int.xor x left >>> (2 : ℕ)).fdiv lowbit
      .ok (some (Int.lor left right, results))
  else .ok none

/-- `none` means that the fuel ran out. -/
def gospersHack (fuel n k : ℕ) : Option (Except Fault (List ℤ)) :=
  if k = 0 then some (.ok [0])
  else if n < k then some (.ok [])
  else (WhileLoop.run (gospersStep ((1 : ℤ) <<< n)) fuel (((1 : ℤ) <<< k) - 1, [])).map
    (Except.map Prod.snd)

/-- The list of the integers in `[0, 2 ^ n)` with exactly `k` bits set. -/
structure Enumerates (n k : ℕ) (results : List ℤ) : Prop where
  increasing : results.Pairwise (· < ·)
  mem : ∀ x, x ∈ results ↔ 0 ≤ x ∧ x < 2 ^ n ∧ count x.toNat = k
  length : results.length = n.choose k

variable {n k x y fuel : ℕ} {results : List ℤ}

/-- The numbers with `k` bits from `x` on. -/
def listed (n k x : ℕ) : List ℤ :=
  ((List.range' x (2 ^ n - x)).filter (count · = k)).map Nat.cast

theorem one_shiftLeft (m : ℕ) : (1 : ℤ) <<< m = (2 ^ m : ℕ) := by
  rw [Int.shiftLeft_eq]
  simp

theorem two_pow_natCast (m : ℕ) : (2 : ℤ) ^ m = (2 ^ m : ℕ) := (Nat.cast_pow 2 m).symm

theorem land_neg (h : 0 < x) : Int.land x (-x) = Nat.ldiff x (x - 1) := by
  obtain ⟨y, rfl⟩ := Nat.exists_eq_succ_of_ne_zero (Nat.ne_of_gt h)
  rfl

variable (results) in
/-- One round goes on with the next number that has as many bits. -/
theorem gospersStep_lt (hx : 0 < x) (hlt : x < 2 ^ n) :
    ∃ y, IsLeast {y | count y = count x ∧ x < y} y ∧
      gospersStep ((1 : ℤ) <<< n) (x, results) = .ok (some (y, results ++ [(x : ℤ)])) := by
  obtain ⟨a, r, t, rfl⟩ := exists_blocked hx
  refine ⟨advanced a r t, isLeast_advanced a r t, ?_⟩
  have hlow : Int.land (blocked a r t) (-blocked a r t) = (2 ^ t : ℕ) := by
    rw [land_neg hx, blocked_odd, ldiff_pred]
  have hne : ((2 ^ t : ℕ) : ℤ) ≠ 0 := Int.natCast_ne_zero.mpr (Nat.ne_of_gt (Nat.two_pow_pos t))
  have hleft : (blocked a r t : ℤ) + (2 ^ t : ℕ) = (blocked a r t + 2 ^ t : ℕ) :=
    (Int.natCast_add _ _).symm
  have hxor : Int.xor (blocked a r t) ((blocked a r t + 2 ^ t : ℕ) : ℤ) =
      ((2 ^ (r + 2) - 1) * 2 ^ t : ℕ) := congrArg Nat.cast (xor_blocked a r t)
  have hright : ((((2 ^ (r + 2) - 1) * 2 ^ t : ℕ) : ℤ) >>> (2 : ℕ)).fdiv (2 ^ t : ℕ) =
      (2 ^ r - 1 : ℕ) := by
    rw [← Int.natCast_shiftRight, ← Int.ofNat_fdiv, block_quotient]
  have hor : Int.lor ((blocked a r t + 2 ^ t : ℕ) : ℤ) ((2 ^ r - 1 : ℕ) : ℤ) = advanced a r t := by
    rw [blocked_add]
    exact congrArg Nat.cast (or_low a r t)
  have hbelow : (blocked a r t : ℤ) < (1 : ℤ) <<< n := by
    rw [one_shiftLeft]
    exact Int.ofNat_lt.mpr hlt
  simp only [gospersStep, if_pos hbelow, hlow, if_neg hne, hleft, hxor, hright, hor]

theorem gospersStep_ge (hge : 2 ^ n ≤ x) :
    gospersStep ((1 : ℤ) <<< n) (x, results) = .ok none := by
  have hstop : ¬ (x : ℤ) < (1 : ℤ) <<< n := by
    rw [one_shiftLeft]
    exact Int.not_lt.mpr (Int.ofNat_le.mpr hge)
  simp only [gospersStep, if_neg hstop]

/-- The loop stands at a number with `k` bits; what is collected and what is to come are the
whole list. -/
def Listing (n k : ℕ) (s : ℤ × List ℤ) : Prop :=
  ∃ x : ℕ, s.1 = x ∧ 0 < x ∧ count x = k ∧ s.2 ++ listed n k x = listed n k (2 ^ k - 1)

theorem progresses_gospersStep : WhileLoop.Progresses (gospersStep ((1 : ℤ) <<< n)) (Listing n k)
    (fun s => (2 ^ n - s.1).toNat) := by
  rintro ⟨_, results⟩ ⟨x, rfl, hpos, hk, hall⟩
  rcases Nat.lt_or_ge x (2 ^ n) with hlt | hge
  · obtain ⟨y, hy, hstep⟩ := gospersStep_lt results hpos hlt
    refine Or.inr ⟨_, hstep, ⟨y, rfl, hpos.trans hy.1.2, hy.1.1.trans hk, ?_⟩, ?_⟩
    · rw [hk] at hy
      have hnext : listed n k x = (x : ℤ) :: listed n k y := by
        rw [listed, filter_range'_next (P := (count · = k)) hk hlt hy, List.map_cons]
        rfl
      rw [← hall, hnext, List.append_assoc, List.singleton_append]
    · have hxy := hy.1.2
      simp only [two_pow_natCast]
      omega
  · exact Or.inl (gospersStep_ge hge)

theorem eq_zero_of_count (h : count x = 0) : x = 0 := by
  by_contra hne
  obtain ⟨a, r, t, rfl⟩ := exists_blocked (Nat.pos_of_ne_zero hne)
  rw [count_blocked] at h
  omega

theorem enumerates_listed (hk : k ≤ n) : Enumerates n k (listed n k (2 ^ k - 1)) := by
  have hle : 2 ^ k - 1 ≤ 2 ^ n :=
    (Nat.sub_le _ _).trans (Nat.pow_le_pow_right Nat.two_pos hk)
  have hleast : ∀ x, count x = k → 2 ^ k - 1 ≤ x := by
    rintro x rfl
    exact Nat.sub_le_of_le_add (two_pow_count_le x)
  refine ⟨?_, ?_, ?_⟩
  · apply List.pairwise_map.mpr
    have hrange : (List.range' (2 ^ k - 1) (2 ^ n - (2 ^ k - 1))).Pairwise (· < ·) :=
      List.pairwise_lt_range'
    exact (hrange.filter _).imp (fun hab => Int.ofNat_lt.mpr hab)
  · intro x
    rw [listed, List.mem_map]
    constructor
    · rintro ⟨y, hy, rfl⟩
      obtain ⟨hrange, hcount⟩ := List.mem_filter.mp hy
      obtain ⟨-, hlt⟩ := List.mem_range'_1.mp hrange
      have hlt : y < 2 ^ n := by omega
      exact ⟨Int.natCast_nonneg y, by exact_mod_cast hlt, of_decide_eq_true hcount⟩
    · rintro ⟨hpos, hlt, hcount⟩
      obtain ⟨y, rfl⟩ := Int.eq_ofNat_of_zero_le hpos
      have hlt : y < 2 ^ n := by exact_mod_cast hlt
      have hlo := hleast y hcount
      refine ⟨y, List.mem_filter.mpr ⟨?_, decide_eq_true hcount⟩, rfl⟩
      exact List.mem_range'_1.mpr ⟨hlo, by omega⟩
  · have hsplit := @List.range'_append_1 0 (2 ^ k - 1) (2 ^ n - (2 ^ k - 1))
    have hnone : (List.range' 0 (2 ^ k - 1)).countP (count · = k) = 0 := by
      rw [List.countP_eq_zero]
      intro x hx hcount
      have hlo := hleast x (of_decide_eq_true hcount)
      obtain ⟨-, hlt⟩ := List.mem_range'_1.mp hx
      omega
    rw [Nat.zero_add, Nat.add_sub_cancel' hle] at hsplit
    rw [listed, List.length_map, ← List.countP_eq_length_filter, ← countP_range_two_pow,
      List.range_eq_range', ← hsplit, List.countP_append, hnone, Nat.zero_add]

/-- Without a bit there is only zero. -/
theorem enumerates_zero (n : ℕ) : Enumerates n 0 [0] where
  increasing := List.pairwise_singleton _ _
  mem := by
    intro x
    rw [List.mem_singleton]
    constructor
    · rintro rfl
      exact ⟨Int.le_refl 0, two_pow_natCast n ▸ Int.ofNat_lt.mpr (Nat.two_pow_pos n), rfl⟩
    · rintro ⟨hpos, -, hcount⟩
      have hx := eq_zero_of_count hcount
      omega
  length := (Nat.choose_zero_right n).symm

/-- More bits than places there are none. -/
theorem enumerates_nil (h : n < k) : Enumerates n k [] where
  increasing := List.Pairwise.nil
  mem := by
    intro x
    apply iff_of_false List.not_mem_nil
    rintro ⟨hpos, hlt, hcount⟩
    have hlt : x.toNat < 2 ^ n := by
      rw [two_pow_natCast] at hlt
      omega
    have hle := (add_two_pow_le hlt).1
    omega
  length := (Nat.choose_eq_zero_of_lt h).symm

/-- The loop lists every number with `k` bits, and no number twice. -/
theorem gospersHack_enumerates (hf : 2 ^ n < fuel) :
    ∃ results, gospersHack fuel n k = some (.ok results) ∧ Enumerates n k results := by
  unfold gospersHack
  split
  · next hk =>
    subst hk
    exact ⟨_, rfl, enumerates_zero n⟩
  · next hk =>
    split
    · next hlt => exact ⟨_, rfl, enumerates_nil hlt⟩
    · next hle =>
      have hone : 1 < 2 ^ k := Nat.one_lt_two_pow hk
      have hpow : 2 ^ k ≤ 2 ^ n := Nat.pow_le_pow_right Nat.two_pos (Nat.not_lt.mp hle)
      have hstart : ((1 : ℤ) <<< k) - 1 = (2 ^ k - 1 : ℕ) := by
        rw [one_shiftLeft]
        omega
      have hinit : Listing n k (((1 : ℤ) <<< k) - 1, []) :=
        ⟨2 ^ k - 1, hstart, by omega, count_two_pow_sub_one k, List.nil_append _⟩
      have hmeasure : ((2 : ℤ) ^ n - (((1 : ℤ) <<< k) - 1)).toNat < fuel := by
        rw [hstart, two_pow_natCast]
        omega
      obtain ⟨⟨_, results⟩, hrun, ⟨x, rfl, hpos, hcount, hall⟩, hstop⟩ :=
        WhileLoop.run_total progresses_gospersStep fuel _ hinit hmeasure
      refine ⟨results, by rw [hrun]; rfl, ?_⟩
      have hend : 2 ^ n ≤ x := by
        by_contra hlt
        obtain ⟨y, -, hstep⟩ := gospersStep_lt results hpos (Nat.not_le.mp hlt)
        rw [hstep] at hstop
        cases hstop
      have hrest : listed n k x = [] := by
        rw [listed, Nat.sub_eq_zero_of_le hend]
        rfl
      rw [hrest, List.append_nil] at hall
      obtain rfl : results = listed n k (2 ^ k - 1) := hall
      exact enumerates_listed (Nat.not_lt.mp hle)

/-- The six pairs of four places. -/
theorem gospersHack_enumerates_four :
    ∃ results, gospersHack 17 4 2 = some (.ok results) ∧ Enumerates 4 2 results :=
  gospersHack_enumerates (by decide)

end Tailslayer.ProbeBits
