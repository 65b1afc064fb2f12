import Mathlib.Order.Fin.Tuple
import Tailslayer.Benchmark.Maximality
import Tailslayer.Foundations.LeastSteps

/-! On ordered timestamps the effective latencies do not depend on the order of the channels. -/
namespace Tailslayer.Benchmark

open LeastSteps

variable {n : ℕ} {allSamples : AllSamples n} {numSamples : ℤ} {w : Window n}

/-- A tuple that may be paired. -/
def Admissible (allSamples : AllSamples n) (numSamples : ℤ) (t : IndexTuple n) : Prop :=
  InRange numSamples t ∧ WithinGap allSamples t

def successor (t : IndexTuple n) : IndexTuple n := fun c => t c + 1

/-- The minimum latencies of the least admissible tuples, one after the other. -/
abbrev Emits (allSamples : AllSamples n) (numSamples : ℤ) : IndexTuple n → List UInt64 → Prop :=
  Greedy (Admissible allSamples numSamples) successor (IsMinLatency allSamples)

/-- What each iteration keeps: whatever is selected from the window on completes `out`. -/
def Selecting (allSamples : AllSamples n) (numSamples : ℤ) (out : List UInt64) (w : Window n) :
    Prop :=
  ∃ vs, w.outEffective = out ++ vs ∧ ∀ rest, Emits allSamples numSamples w.indices rest →
    Emits allSamples numSamples (fun _ => 0) (vs ++ rest)

theorem isMinLatency_unique (t : IndexTuple n) (u v : UInt64)
    (hu : IsMinLatency allSamples t u) (hv : IsMinLatency allSamples t v) : u = v := by
  obtain ⟨⟨c, rfl⟩, hule⟩ := hu
  obtain ⟨⟨d, rfl⟩, hvle⟩ := hv
  exact UInt64.toNat_inj.mp (le_antisymm (hule d) (hvle c))

theorem selecting_pair {out : List UInt64} {v : UInt64}
    (h : Selecting allSamples numSamples out w) (hin : InRange numSamples w.indices)
    (hgap : WithinGap allSamples w.indices) (hv : IsMinLatency allSamples w.indices v) :
    Selecting allSamples numSamples out
      ⟨fun c => w.indices c + 1, w.outEffective ++ [v]⟩ := by
  obtain ⟨vs, hout, hsel⟩ := h
  refine ⟨vs ++ [v], by simp [hout], ?_⟩
  intro rest hrest
  have hleast : IsLeast {t | Admissible allSamples numSamples t ∧ w.indices ≤ t} w.indices :=
    ⟨⟨⟨hin, hgap⟩, le_rfl⟩, fun t ht => ht.2⟩
  have hnext := hsel (v :: rest) (.step hleast hv hrest)
  simpa using hnext

theorem selecting_advance {out : List UInt64} (ho : Ordered allSamples numSamples)
    (h : Selecting allSamples numSamples out w) {c d : Fin n}
    (hfar : (sampleAt allSamples w.indices c).timestamp.toNat + MAX_PAIR_GAP.toNat ≤
      (sampleAt allSamples w.indices d).timestamp.toNat) :
    Selecting allSamples numSamples out
      { w with indices := Function.update w.indices c (w.indices c + 1) } := by
  obtain ⟨vs, hout, hsel⟩ := h
  refine ⟨vs, hout, fun rest hrest => hsel rest (greedy_congr ?_ hrest)⟩
  rintro t ⟨hin, hgap⟩
  constructor
  · intro hle e
    have he : Function.update w.indices c (w.indices c + 1) e ≤ t e := hle e
    rcases update_succ_cases w.indices c e with ⟨_, hup⟩ | ⟨_, hup⟩
    · rw [hup] at he
      exact Nat.le_of_succ_le he
    · rwa [hup] at he
  · intro hle e
    change Function.update w.indices c (w.indices c + 1) e ≤ t e
    rcases update_succ_cases w.indices c e with ⟨rfl, hup⟩ | ⟨_, hup⟩
    · rw [hup]
      exact lt_of_lagging ho hin hgap hle hfar
    · rw [hup]
      exact hle e

/-- The loop appends exactly the greedy selection. -/
theorem pairSamplesN_emits (hn : 0 < n) (ho : Ordered allSamples numSamples)
    (out : List UInt64) {fuel : ℕ} (hfuel : n * numSamples.toNat < fuel) :
    ∃ vs, Emits allSamples numSamples (fun _ => 0) vs ∧
      pairSamplesN fuel allSamples numSamples out =
        some (.ok (Int32.ofNat (out ++ vs).length, out ++ vs)) := by
  obtain ⟨w, hrun, ⟨vs, hout, hsel⟩, c, hc⟩ :=
    pairSamplesN_total hn out (I := Selecting allSamples numSamples out)
      ⟨[], by simp, fun rest hrest => hrest⟩
      ⟨fun _ _ h hin hgap hv => selecting_pair h hin hgap hv,
        fun _ _ _ h _ _ hfar => selecting_advance ho h hfar⟩ hfuel
  refine ⟨vs, ?_, by rw [hrun, hout]⟩
  -- an exhausted channel leaves nothing admissible ahead
  have hdone : Emits allSamples numSamples w.indices [] := by
    refine .done ?_
    rintro t ⟨hin, -⟩ hle
    have hlt := hin c
    have hge : w.indices c ≤ t c := hle c
    omega
  simpa using hsel [] hdone

/-- Renumbering the channels renumbers the tuples. -/
def renumber (σ : Equiv.Perm (Fin n)) : IndexTuple n ≃o IndexTuple n where
  toFun t := fun c => t (σ c)
  invFun t := fun c => t (σ.symm c)
  left_inv t := by simp
  right_inv t := by simp
  map_rel_iff' := by
    intro s t
    constructor
    · intro h c
      simpa using h (σ.symm c)
    · intro h c
      exact h (σ c)

theorem admissible_renumber (σ : Equiv.Perm (Fin n)) (t : IndexTuple n) :
    Admissible (fun c => allSamples (σ c)) numSamples (renumber σ t) ↔
      Admissible allSamples numSamples t := by
  constructor
  · rintro ⟨hin, hgap⟩
    refine ⟨fun c => ?_, fun c d => ?_⟩
    · simpa [renumber] using hin (σ.symm c)
    · simpa [renumber, sampleAt] using hgap (σ.symm c) (σ.symm d)
  · rintro ⟨hin, hgap⟩
    exact ⟨fun c => hin (σ c), fun c d => hgap (σ c) (σ d)⟩

theorem isMinLatency_renumber (σ : Equiv.Perm (Fin n)) (t : IndexTuple n) (v : UInt64)
    (h : IsMinLatency allSamples t v) :
    IsMinLatency (fun c => allSamples (σ c)) (renumber σ t) v := by
  obtain ⟨⟨c, hc⟩, hle⟩ := h
  exact ⟨⟨σ.symm c, by simpa [renumber, sampleAt] using hc⟩, fun c => hle (σ c)⟩

theorem successor_renumber (σ : Equiv.Perm (Fin n)) (t : IndexTuple n) :
    successor (renumber σ t) = renumber σ (successor t) := rfl

theorem emits_renumber (σ : Equiv.Perm (Fin n)) {vs : List UInt64}
    (h : Emits allSamples numSamples (fun _ => 0) vs) :
    Emits (fun c => allSamples (σ c)) numSamples (fun _ => 0) vs :=
  greedy_map (renumber σ) (admissible_renumber σ) (successor_renumber σ) (isMinLatency_renumber σ) h

theorem ordered_renumber (ho : Ordered allSamples numSamples) (σ : Equiv.Perm (Fin n)) :
    Ordered (fun c => allSamples (σ c)) numSamples :=
  fun c => ho (σ c)

/-- Every order of the channel vector gives the same list of effective latencies. -/
theorem pairing_channelOrder (ho : Ordered allSamples numSamples) (σ : Equiv.Perm (Fin n))
    (out : List UInt64) {fuel fuel' : ℕ} (hfuel : n * numSamples.toNat < fuel)
    (hfuel' : n * numSamples.toNat < fuel') :
    ∃ count vs, pairSamplesN fuel allSamples numSamples out = some (.ok (count, vs)) ∧
      pairSamplesN fuel' (fun c => allSamples (σ c)) numSamples out = some (.ok (count, vs)) := by
  rcases Nat.eq_zero_or_pos n with rfl | hn
  · exact ⟨0, out, rfl, rfl⟩
  · obtain ⟨vs, hvs, hrun⟩ := pairSamplesN_emits hn ho out hfuel
    obtain ⟨ws, hws, hrun'⟩ := pairSamplesN_emits hn (ordered_renumber ho σ) out hfuel'
    have heq : ws = vs := greedy_unique isMinLatency_unique hws (emits_renumber σ hvs)
    exact ⟨_, out ++ vs, hrun, by rw [hrun', heq]⟩

theorem pairing_channelOrder_lateStart :
    ∃ count vs, pairSamplesN 7 lateStart 3 [] = some (.ok (count, vs)) ∧
      pairSamplesN 8 (fun c => lateStart (Equiv.swap 0 1 c)) 3 [] = some (.ok (count, vs)) :=
  pairing_channelOrder ordered_lateStart (Equiv.swap 0 1) [] (by decide) (by decide)

end Tailslayer.Benchmark
