import Mathlib.Data.List.GetD
import Mathlib.Data.Rat.Floor
import Mathlib.Algebra.Order.Floor.Semifield
import Tailslayer.Benchmark.Percentiles

/-! What the percentiles say about the latencies, in whatever order these come. -/
namespace Tailslayer.Stats

namespace Percentiles

/-- From the least to the greatest. -/
def values (p : Percentiles) : List UInt64 :=
  [p.min, p.p50, p.p90, p.p95, p.p99, p.p999, p.p9999, p.max]

def quantiles (p : Percentiles) : List (UInt64 × ℚ) :=
  [(p.p50, 1 / 2), (p.p90, 9 / 10), (p.p95, 19 / 20), (p.p99, 99 / 100), (p.p999, 999 / 1000),
    (p.p9999, 9999 / 10000)]

end Percentiles

/-- The `q`-quantile of the latencies, for the rank `⌊n q⌋` counted from zero. -/
structure IsQuantile (data : List UInt64) (v : UInt64) (q : ℚ) : Prop where
  atMost : ⌊data.length * q⌋₊ + 1 ≤ data.countP (· ≤ v)
  atLeast : data.length - ⌊data.length * q⌋₊ ≤ data.countP (v ≤ ·)

structure OrderStatistics (data : List UInt64) (p : Percentiles) : Prop where
  chain : p.values.Pairwise (· ≤ ·)
  mem : ∀ v ∈ p.values, v ∈ data
  quantile : ∀ e ∈ p.quantiles, IsQuantile data e.1 e.2
  min_le : ∀ x ∈ data, p.min ≤ x
  le_max : ∀ x ∈ data, x ≤ p.max

variable {data data' : List UInt64} {i j k : ℕ}

theorem order_eq_getElem (hk : k < data.length) :
    ∃ hk' : k < (sort data).length, order data k = (sort data)[k] := by
  have hk' : k < (sort data).length := by
    rw [length_sort]
    exact hk
  exact ⟨hk', List.getD_eq_getElem _ _ hk'⟩

theorem order_mem (hk : k < data.length) : order data k ∈ data := by
  obtain ⟨hk', he⟩ := order_eq_getElem hk
  rw [he]
  exact (sort_perm data).mem_iff.mp (List.getElem_mem hk')

theorem exists_order {x : UInt64} (hx : x ∈ data) : ∃ k < data.length, order data k = x := by
  obtain ⟨k, hk', rfl⟩ := List.mem_iff_getElem.mp ((sort_perm data).mem_iff.mpr hx)
  have hk : k < data.length := by rwa [length_sort] at hk'
  obtain ⟨_, he⟩ := order_eq_getElem hk
  exact ⟨k, hk, he⟩

theorem order_le_order (hij : i ≤ j) (hj : j < data.length) : order data i ≤ order data j := by
  obtain ⟨hi', hei⟩ := order_eq_getElem (hij.trans_lt hj)
  obtain ⟨hj', hej⟩ := order_eq_getElem hj
  rw [hei, hej]
  rcases Nat.eq_or_lt_of_le hij with rfl | hlt
  · exact UInt64.le_refl _
  · have hsorted := List.pairwise_iff_getElem.mp (pairwise_sort data) i j (by simpa using hi')
      (by simpa using hj') hlt
    rw [List.getElem_map, List.getElem_map] at hsorted
    exact UInt64.le_iff_toNat_le.mpr hsorted

/-- A count over the sorted numbers is one over the latencies. -/
theorem countP_toNat_sort {p : ℕ → Bool} {p' : UInt64 → Bool} (h : ∀ x, p x.toNat = p' x) :
    ((sort data).map UInt64.toNat).countP p = data.countP p' := by
  rw [List.countP_map, ← (sort_perm data).countP_eq]
  exact List.countP_congr (fun x _ => by rw [Function.comp_apply, h])

theorem lt_countP_le_order (hk : k < data.length) : k < data.countP (· ≤ order data k) := by
  obtain ⟨hk', he⟩ := order_eq_getElem hk
  have hrank := Ranks.lt_countP_of_getElem_le (pairwise_sort data) (b := (order data k).toNat)
    (by simpa using hk') (by rw [List.getElem_map, he])
  rwa [countP_toNat_sort (fun x => decide_eq_decide.mpr UInt64.le_iff_toNat_le.symm)] at hrank

theorem length_le_countP_order_le (hk : k < data.length) :
    data.length ≤ data.countP (order data k ≤ ·) + k := by
  obtain ⟨hk', he⟩ := order_eq_getElem hk
  have hrank := Ranks.length_le_countP_add (pairwise_sort data) (k := k) (by simpa using hk')
  rw [List.getElem_map, ← he, List.length_map, length_sort] at hrank
  rwa [countP_toNat_sort (fun x => decide_eq_decide.mpr UInt64.le_iff_toNat_le.symm)] at hrank

theorem floor_length_mul (n num den : ℕ) : ⌊(n : ℚ) * (num / den)⌋₊ = n * num / den := by
  rw [← mul_div_assoc, ← Nat.cast_mul, Nat.floor_div_eq_div]

theorem isQuantile_order {num den : ℕ} {q : ℚ} (hq : q = num / den)
    (hk : data.length * num / den < data.length) :
    IsQuantile data (order data (data.length * num / den)) q := by
  subst hq
  have hle := length_le_countP_order_le hk
  constructor
  · rw [floor_length_mul]
    exact lt_countP_le_order hk
  · rw [floor_length_mul]
    omega

/-- The ranks increase and stay in range, for a single latency already. -/
theorem values_ranked (data : List UInt64) : (ranked data).values =
    [0, data.length / 2, data.length * 9 / 10, data.length * 19 / 20, data.length * 99 / 100,
      data.length * 999 / 1000, data.length * 9999 / 10000, data.length - 1].map (order data) :=
  rfl

theorem orderStatistics_ranked (hne : data ≠ []) : OrderStatistics data (ranked data) := by
  have hpos : 0 < data.length := List.length_pos_iff.mpr hne
  refine ⟨?_, ?_, ?_, ?_, ?_⟩
  · rw [values_ranked]
    apply List.Pairwise.map (R := fun i j => i ≤ j ∧ j < data.length)
    · intro i j hij
      exact order_le_order hij.1 hij.2
    · simp only [List.pairwise_cons, List.mem_cons, List.not_mem_nil, or_false, forall_eq_or_imp,
        forall_eq, List.Pairwise.nil, and_true, false_implies, implies_true]
      omega
  · rw [values_ranked]
    intro v hv
    obtain ⟨k, hk, rfl⟩ := List.mem_map.mp hv
    apply order_mem
    simp only [List.mem_cons, List.not_mem_nil, or_false] at hk
    omega
  · simp only [Percentiles.quantiles, List.forall_mem_cons, List.not_mem_nil, false_implies,
      implies_true, and_true]
    have hhalf : IsQuantile data (order data (data.length * 1 / 2)) (1 / 2) :=
      isQuantile_order (by norm_num) (by omega)
    rw [Nat.mul_one] at hhalf
    exact ⟨hhalf, isQuantile_order (by norm_num) (by omega),
      isQuantile_order (by norm_num) (by omega), isQuantile_order (by norm_num) (by omega),
      isQuantile_order (by norm_num) (by omega), isQuantile_order (by norm_num) (by omega)⟩
  · intro x hx
    obtain ⟨k, hk, rfl⟩ := exists_order hx
    exact order_le_order (Nat.zero_le _) hk
  · intro x hx
    obtain ⟨k, hk, rfl⟩ := exists_order hx
    exact order_le_order (Nat.le_sub_one_of_lt hk) (by omega)

theorem sort_eq_of_perm (h : data'.Perm data) : sort data' = sort data := by
  have hmap : ((sort data').map UInt64.toNat).Perm ((sort data).map UInt64.toNat) :=
    (((sort_perm data').trans h).trans (sort_perm data).symm).map _
  have he := hmap.eq_of_pairwise (fun _ _ _ _ => Nat.le_antisymm) (pairwise_sort data')
    (pairwise_sort data)
  exact (List.map_injective_iff.mpr (fun _ _ => UInt64.toNat_inj.mp)) he

theorem computePercentiles_perm (h : data'.Perm data) (hne : data ≠ [])
    (hlt : data.length < 2 ^ 31) : computePercentiles data' = computePercentiles data := by
  have hne' : data' ≠ [] := by
    rintro rfl
    exact hne h.nil_eq.symm
  have hsort := sort_eq_of_perm h
  have hranked : ranked data' = ranked data := by
    simp only [ranked, order, hsort, h.length_eq]
  rw [computePercentiles_eq hne' (h.length_eq ▸ hlt), computePercentiles_eq hne hlt, hranked,
    hsort]

/-- The percentiles of as many latencies as an `int` can count. -/
theorem computePercentiles_orderStatistics (hne : data ≠ []) (hlt : data.length < 2 ^ 31) :
    ∃ p sorted, computePercentiles data = .ok (p, sorted) ∧ OrderStatistics data p ∧
      ∀ data', data'.Perm data → computePercentiles data' = .ok (p, sorted) := by
  refine ⟨_, _, computePercentiles_eq hne hlt, orderStatistics_ranked hne, ?_⟩
  intro data' h
  rw [computePercentiles_perm h hne hlt, computePercentiles_eq hne hlt]

theorem computePercentiles_orderStatistics_three :
    ∃ p sorted, computePercentiles [30, 10, 20] = .ok (p, sorted) ∧
      OrderStatistics [30, 10, 20] p ∧
        ∀ data', data'.Perm [30, 10, 20] → computePercentiles data' = .ok (p, sorted) :=
  computePercentiles_orderStatistics (by decide) (by decide)

/-- From 2 ^ 31 latencies on their number is negative, and so is the index of the median. -/
theorem computePercentiles_of_overflow (h : data.length = 2 ^ 31) :
    computePercentiles data = .error .indexOutOfRange := by
  have hn : (Int32.ofNat data.length).toInt = -2 ^ 31 := by
    rw [h]
    rfl
  have hmin : entry (sort data) 0 = .ok (order data 0) := entry_sort rfl (by omega)
  have hmedian : entry (sort data) (rank (-2 ^ 31) 1 2) = .error .indexOutOfRange := by
    rw [entry]
    split <;> rfl
  have hzero : (-2 ^ 31 : ℤ) ≠ 0 := by decide
  simp only [computePercentiles, hn, hzero, if_false, hmin, hmedian, bind, Except.bind]

theorem not_orderStatistics : ¬ ∀ data : List UInt64, data ≠ [] →
    ∃ p sorted, computePercentiles data = .ok (p, sorted) ∧ OrderStatistics data p ∧
      ∀ data', data'.Perm data → computePercentiles data' = .ok (p, sorted) := by
  intro hall
  have hlen : (List.replicate (2 ^ 31) (0 : UInt64)).length = 2 ^ 31 := List.length_replicate
  have hne : List.replicate (2 ^ 31) (0 : UInt64) ≠ [] := by
    intro hnil
    rw [hnil] at hlen
    cases hlen
  obtain ⟨p, sorted, h, _⟩ := hall _ hne
  rw [computePercentiles_of_overflow hlen] at h
  cases h

end Tailslayer.Stats
