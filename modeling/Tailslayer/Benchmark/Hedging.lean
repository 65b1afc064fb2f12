import Tailslayer.Benchmark.Maximality
import Tailslayer.Benchmark.Percentiles

/-! Hedging never looks worse: the effective latencies against those of the channels. -/
namespace Tailslayer.Benchmark

open Stats

variable {n : ℕ} {allSamples : AllSamples n} {numSamples : ℤ}

/-- The tuples that the loop pairs, in pairing order. -/
def pairedTuples (allSamples : AllSamples n) (numSamples : ℤ) : ℕ → Window n → List (IndexTuple n)
  | 0, _ => []
  | fuel + 1, w =>
    match pairStep allSamples numSamples w with
    | .ok (some w') =>
      if w'.outEffective = w.outEffective then pairedTuples allSamples numSamples fuel w'
      else w.indices :: pairedTuples allSamples numSamples fuel w'
    | _ => []

/-- The latencies of a channel's samples that were paired. -/
def pairedLatencies (allSamples : AllSamples n) (tuples : List (IndexTuple n)) (c : Fin n) :
    List UInt64 :=
  tuples.map (fun t => (sampleAt allSamples t c).latency)

theorem pairedTuples_run (hn : 0 < n) {fuel : ℕ} {w w' : Window n}
    (h : WhileLoop.run (pairStep allSamples numSamples) fuel w = some (.ok w')) :
    ∃ vs, w'.outEffective = w.outEffective ++ vs ∧
      List.Forall₂ (IsMinLatency allSamples) (pairedTuples allSamples numSamples fuel w) vs ∧
      ∀ c, vs.length ≤ numSamples.toNat - w.indices c := by
  induction fuel generalizing w with
  | zero => cases h
  | succ fuel ih =>
    rcases pairStep_cases hn allSamples numSamples w with ⟨_, hs⟩ | ⟨hin, _, v, hv, hs⟩ |
      ⟨hin, c, d, _, _, hs⟩
    · simp only [WhileLoop.run, hs, Option.some.injEq, Except.ok.injEq] at h
      subst h
      exact ⟨[], by simp, by simp [pairedTuples, hs], by simp⟩
    · simp only [WhileLoop.run, hs] at h
      obtain ⟨vs, hout, hmin, hlen⟩ := ih h
      refine ⟨v :: vs, by simp [hout], ?_, ?_⟩
      · have hne : ¬ w.outEffective ++ [v] = w.outEffective := by simp
        simp only [pairedTuples, hs, if_neg hne]
        exact .cons hv hmin
      · intro c
        have hc := hin c
        have hlc := hlen c
        simp only [List.length_cons] at hlc ⊢
        omega
    · simp only [WhileLoop.run, hs] at h
      obtain ⟨vs, hout, hmin, hlen⟩ := ih h
      refine ⟨vs, hout, by simpa [pairedTuples, hs] using hmin, ?_⟩
      intro e
      have he := hlen e
      by_cases hec : e = c
      · subst hec
        simp only [Function.update_self] at he
        omega
      · simpa only [Function.update_of_ne hec] using he

theorem run_of_pairSamplesN (hn : 0 < n) {fuel : ℕ} {out res : List UInt64} {count : Int32}
    (h : pairSamplesN fuel allSamples numSamples out = some (.ok (count, res))) :
    ∃ w, WhileLoop.run (pairStep allSamples numSamples) fuel ⟨fun _ => 0, out⟩ = some (.ok w) ∧
      w.outEffective = res := by
  simp only [pairSamplesN, Nat.ne_of_gt hn, if_false, Option.map_eq_some_iff] at h
  obtain ⟨r, hr, he⟩ := h
  cases r with
  | error e => cases he
  | ok w =>
    cases he
    exact ⟨w, hr, rfl⟩

/-- Each effective latency is at most the latency it was paired from, in every channel. -/
theorem effective_le {tuples : List (IndexTuple n)} {effective : List UInt64}
    (h : List.Forall₂ (IsMinLatency allSamples) tuples effective) (c : Fin n) :
    List.Forall₂ (· ≤ ·) effective (pairedLatencies allSamples tuples c) := by
  apply List.forall₂_map_right_iff.mpr
  exact h.flip.imp (fun _ _ hv => UInt64.le_iff_toNat_le.mpr (hv.2 c))

/-- Whatever the samples, every statistic of the appended effective latencies is at most the
statistic of the same name of the samples that any channel contributed. -/
theorem hedging_atMost (allSamples : AllSamples n) (numSamples : Int32) (out : List UInt64)
    {fuel : ℕ} (hfuel : n * numSamples.toInt.toNat < fuel) :
    ∃ count effective, pairSamplesN fuel allSamples numSamples.toInt out =
        some (.ok (count, out ++ effective)) ∧
      (effective ≠ [] → ∀ c, ∃ pe pl sorted sorted',
        computePercentiles effective = .ok (pe, sorted) ∧
        computePercentiles (pairedLatencies allSamples
          (pairedTuples allSamples numSamples.toInt fuel ⟨fun _ => 0, out⟩) c) =
            .ok (pl, sorted') ∧ pe.AtMost pl) := by
  rcases Nat.eq_zero_or_pos n with rfl | hn
  · exact ⟨0, [], by simp [pairSamplesN], fun hne => (hne rfl).elim⟩
  · obtain ⟨w, hsome, -⟩ := pairSamplesN_total hn out trivial
      (keptByPairing_true allSamples numSamples.toInt) hfuel
    obtain ⟨w', hrun, hres⟩ := run_of_pairSamplesN hn hsome
    obtain ⟨effective, hout, hmin, hlen⟩ := pairedTuples_run hn hrun
    refine ⟨_, effective, by rw [hsome, ← hres, hout], ?_⟩
    intro hne c
    have hle := effective_le hmin c
    have hlt : effective.length < 2 ^ 31 := by
      have hc := hlen c
      have hmax := numSamples.toInt_lt
      omega
    have hlt' := hle.length_eq ▸ hlt
    have hne' : pairedLatencies allSamples
        (pairedTuples allSamples numSamples.toInt fuel ⟨fun _ => 0, out⟩) c ≠ [] := by
      intro hnil
      rw [hnil] at hle
      cases hle
      exact hne rfl
    exact ⟨_, _, _, _, computePercentiles_eq hne hlt, computePercentiles_eq hne' hlt',
      ranked_atMost hle⟩

theorem hedging_atMost_lateStart :
    ∃ count effective, pairSamplesN 7 lateStart (3 : Int32).toInt [] =
        some (.ok (count, [] ++ effective)) ∧
      (effective ≠ [] → ∀ c, ∃ pe pl sorted sorted',
        computePercentiles effective = .ok (pe, sorted) ∧
        computePercentiles (pairedLatencies lateStart
          (pairedTuples lateStart (3 : Int32).toInt 7 ⟨fun _ => 0, []⟩) c) =
            .ok (pl, sorted') ∧ pe.AtMost pl) :=
  hedging_atMost lateStart 3 [] (by decide)

end Tailslayer.Benchmark
