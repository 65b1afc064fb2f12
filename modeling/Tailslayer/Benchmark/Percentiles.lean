import Mathlib.Data.List.Sort
import Mathlib.Algebra.Group.Nat.Defs
import Tailslayer.Foundations.Ranks

/-! `Stats::compute_percentiles` (`stats.cpp`): the entries at fixed ranks of the sorted data. -/
namespace Tailslayer.Stats

/-- The mean is left out: it is a floating-point sum. -/
structure Percentiles where
  min : UInt64
  p50 : UInt64
  p90 : UInt64
  p95 : UInt64
  p99 : UInt64
  p999 : UInt64
  p9999 : UInt64
  max : UInt64
  deriving DecidableEq, Repr

inductive Fault
  | indexOutOfRange
  deriving DecidableEq, Repr

/-- `data[i]` -/
def entry (data : List UInt64) (i : ℤ) : Except Fault UInt64 :=
  match data[i.toNat]? with
  | some x => if 0 ≤ i then .ok x else .error .indexOutOfRange
  | none => .error .indexOutOfRange

/-- `static_cast<int>(n * q)` for the quotient `q = num / den`, in exact arithmetic. -/
def rank (n : ℤ) (num den : ℕ) : ℤ := (n * num).tdiv den

/-- `std::sort` -/
def sort (data : List UInt64) : List UInt64 := data.mergeSort (fun x y => decide (x ≤ y))

/-- The percentiles next to the data, which is left sorted. -/
def computePercentiles (data : List UInt64) : Except Fault (Percentiles × List UInt64) :=
  let n := (Int32.ofNat data.length).toInt
  if n = 0 then .ok (⟨0, 0, 0, 0, 0, 0, 0, 0⟩, data)
  else do
    let data := sort data
    let min ← entry data 0
    let p50 ← entry data (rank n 1 2)
    let p90 ← entry data (rank n 9 10)
    let p95 ← entry data (rank n 19 20)
    let p99 ← entry data (rank n 99 100)
    let p999 ← entry data (Min.min (n - 1) (rank n 999 1000))
    let p9999 ← entry data (Min.min (n - 1) (rank n 9999 10000))
    let max ← entry data (n - 1)
    return (⟨min, p50, p90, p95, p99, p999, p9999, max⟩, data)

variable {data : List UInt64}

/-- The entry of a rank of the sorted data. -/
def order (data : List UInt64) (k : ℕ) : UInt64 := (sort data).getD k 0

/-- The percentiles as entries of ranks. -/
def ranked (data : List UInt64) : Percentiles where
  min := order data 0
  p50 := order data (data.length / 2)
  p90 := order data (data.length * 9 / 10)
  p95 := order data (data.length * 19 / 20)
  p99 := order data (data.length * 99 / 100)
  p999 := order data (data.length * 999 / 1000)
  p9999 := order data (data.length * 9999 / 10000)
  max := order data (data.length - 1)

theorem sort_perm (data : List UInt64) : (sort data).Perm data := List.mergeSort_perm _ _

theorem length_sort (data : List UInt64) : (sort data).length = data.length :=
  (sort_perm data).length_eq

theorem pairwise_sort (data : List UInt64) :
    ((sort data).map UInt64.toNat).Pairwise (· ≤ ·) := by
  have h : (sort data).Pairwise (fun x y => decide (x ≤ y) = true) := by
    apply List.pairwise_mergeSort
    · intro x y z hxy hyz
      simp only [decide_eq_true_eq, UInt64.le_iff_toNat_le] at hxy hyz ⊢
      omega
    · intro x y
      simp only [Bool.or_eq_true, decide_eq_true_eq, UInt64.le_iff_toNat_le]
      omega
  apply List.pairwise_map.mpr
  apply h.imp
  intro x y hxy
  simpa only [decide_eq_true_eq, UInt64.le_iff_toNat_le] using hxy

theorem entry_sort {k : ℕ} {i : ℤ} (hi : i = k) (hk : k < data.length) :
    entry (sort data) i = .ok (order data k) := by
  subst hi
  have hlt : k < (sort data).length := by
    rw [length_sort]
    exact hk
  simp [entry, order, List.getElem?_eq_getElem hlt]

theorem rank_natCast (n num den : ℕ) : rank n num den = (n * num / den : ℕ) := by
  rw [rank, ← Int.natCast_mul]
  exact (Int.ofNat_tdiv _ _).symm

/-- Every index is in range, whatever the data. -/
theorem computePercentiles_eq (hne : data ≠ []) (hlt : data.length < 2 ^ 31) :
    computePercentiles data = .ok (ranked data, sort data) := by
  have hpos : 0 < data.length := List.length_pos_iff.mpr hne
  have hn : (Int32.ofNat data.length).toInt = data.length := Int32.toInt_ofNat_of_lt hlt
  have hrank : ∀ num den : ℕ, data.length * num / den < data.length →
      entry (sort data) (rank data.length num den) =
        .ok (order data (data.length * num / den)) :=
    fun num den hk => entry_sort (rank_natCast _ _ _) hk
  have hclamped : ∀ num den : ℕ, data.length * num / den < data.length →
      entry (sort data) (Min.min (data.length - 1) (rank data.length num den)) =
        .ok (order data (data.length * num / den)) := by
    intro num den hk
    refine entry_sort ?_ hk
    rw [rank_natCast]
    omega
  have hmin : entry (sort data) 0 = .ok (order data 0) := entry_sort rfl hpos
  have hp50 := hrank 1 2 (by omega)
  have hp90 := hrank 9 10 (by omega)
  have hp95 := hrank 19 20 (by omega)
  have hp99 := hrank 99 100 (by omega)
  have hp999 := hclamped 999 1000 (by omega)
  have hp9999 := hclamped 9999 10000 (by omega)
  have hmax : entry (sort data) (data.length - 1) = .ok (order data (data.length - 1)) :=
    entry_sort (by omega) (by omega)
  have hzero : (data.length : ℤ) ≠ 0 := by omega
  rw [Nat.mul_one] at hp50
  simp only [computePercentiles, hn, hzero, if_false, hmin, hp50, hp90, hp95, hp99, hp999, hp9999,
    hmax, bind, Except.bind, pure, Except.pure]
  rfl

/-- Every statistic of `p` is at most that of `q`. -/
structure Percentiles.AtMost (p q : Percentiles) : Prop where
  min : p.min ≤ q.min
  p50 : p.p50 ≤ q.p50
  p90 : p.p90 ≤ q.p90
  p95 : p.p95 ≤ q.p95
  p99 : p.p99 ≤ q.p99
  p999 : p.p999 ≤ q.p999
  p9999 : p.p9999 ≤ q.p9999
  max : p.max ≤ q.max

theorem order_le {xs ys : List UInt64} (h : List.Forall₂ (· ≤ ·) xs ys) (k : ℕ) :
    order xs k ≤ order ys k := by
  have hlen : xs.length = ys.length := h.length_eq
  by_cases hk : k < xs.length
  · have hx : k < (sort xs).length := by rwa [length_sort]
    have hy : k < (sort ys).length := by rwa [length_sort, ← hlen]
    have hmap : List.Forall₂ (· ≤ ·) (xs.map UInt64.toNat) (ys.map UInt64.toNat) := by
      apply List.forall₂_map_left_iff.mpr
      apply List.forall₂_map_right_iff.mpr
      exact h.imp (fun _ _ hxy => UInt64.le_iff_toNat_le.mp hxy)
    have hle := Ranks.getElem_le_of_forall₂ hmap ((sort_perm xs).map _) ((sort_perm ys).map _)
      (pairwise_sort xs) (pairwise_sort ys) (by simpa using hx) (by simpa using hy)
    simp only [List.getElem_map] at hle
    simpa [order, hx, hy] using UInt64.le_iff_toNat_le.mpr hle
  · have hx : (sort xs).length ≤ k := by rw [length_sort]; omega
    have hy : (sort ys).length ≤ k := by rw [length_sort]; omega
    simp [order, hx, hy]

/-- Entry by entry smaller data have smaller statistics. -/
theorem ranked_atMost {xs ys : List UInt64} (h : List.Forall₂ (· ≤ ·) xs ys) :
    (ranked xs).AtMost (ranked ys) := by
  have hlen : xs.length = ys.length := h.length_eq
  constructor <;> simp only [ranked, hlen] <;> exact order_le h _

end Tailslayer.Stats
