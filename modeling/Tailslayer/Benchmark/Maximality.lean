import Mathlib.Order.Bounds.Basic
import Tailslayer.Benchmark.Pairing
import Tailslayer.Foundations.DisjointTuples

/-! Pairing is sound, and on ordered timestamps it finds a maximum number of pairs. -/
namespace Tailslayer.Benchmark

open DisjointTuples

variable {n : ℕ} {allSamples : AllSamples n} {numSamples : ℤ} {w : Window n}

/-- The tuples behind a list of effective latencies. -/
structure PairedBy (allSamples : AllSamples n) (numSamples : ℤ) (tuples : List (IndexTuple n))
    (out : List UInt64) : Prop where
  increasing : tuples.Pairwise (fun t t' => ∀ c, t c < t' c)
  inRange : ∀ t ∈ tuples, InRange numSamples t
  withinGap : ∀ t ∈ tuples, WithinGap allSamples t
  latency : List.Forall₂ (IsMinLatency allSamples) tuples out

/-- What each iteration keeps: the paired samples lie behind the window. -/
def PairedBehind (allSamples : AllSamples n) (numSamples : ℤ) (w : Window n) : Prop :=
  ∃ tuples, PairedBy allSamples numSamples tuples w.outEffective ∧
    ∀ t ∈ tuples, ∀ c, t c < w.indices c

theorem pairedBehind_pair {v : UInt64} (h : PairedBehind allSamples numSamples w)
    (hin : InRange numSamples w.indices) (hgap : WithinGap allSamples w.indices)
    (hv : IsMinLatency allSamples w.indices v) :
    PairedBehind allSamples numSamples
      ⟨fun c => w.indices c + 1, w.outEffective ++ [v]⟩ := by
  obtain ⟨tuples, hp, hbehind⟩ := h
  refine ⟨tuples ++ [w.indices], ⟨?_, ?_, ?_, ?_⟩, ?_⟩
  · rw [List.pairwise_append]
    refine ⟨hp.increasing, List.pairwise_singleton _ _, ?_⟩
    intro t ht t' ht'
    rw [List.mem_singleton.mp ht']
    exact hbehind t ht
  · intro t ht
    rcases List.mem_append.mp ht with ht | ht
    · exact hp.inRange t ht
    · rwa [List.mem_singleton.mp ht]
  · intro t ht
    rcases List.mem_append.mp ht with ht | ht
    · exact hp.withinGap t ht
    · rwa [List.mem_singleton.mp ht]
  · exact List.rel_append hp.latency (.cons hv .nil)
  · intro t ht c
    rcases List.mem_append.mp ht with ht | ht
    · exact Nat.lt_succ_of_lt (hbehind t ht c)
    · rw [List.mem_singleton.mp ht]
      exact Nat.lt_succ_self _

theorem pairedBehind_advance (h : PairedBehind allSamples numSamples w) (c : Fin n) :
    PairedBehind allSamples numSamples
      { w with indices := Function.update w.indices c (w.indices c + 1) } := by
  obtain ⟨tuples, hp, hbehind⟩ := h
  refine ⟨tuples, hp, ?_⟩
  intro t ht d
  have hd := hbehind t ht d
  change t d < Function.update w.indices c (w.indices c + 1) d
  rcases update_succ_cases w.indices c d with ⟨_, he⟩ | ⟨_, he⟩
  · rw [he]
    exact Nat.lt_succ_of_lt hd
  · rwa [he]

/-- Whatever the samples, the appended values are the minima of an increasing run of tuples. -/
theorem pairing_sound (hn : 0 < n) (allSamples : AllSamples n) (numSamples : ℤ) {fuel : ℕ}
    (hfuel : n * numSamples.toNat < fuel) :
    ∃ out, pairSamplesN fuel allSamples numSamples [] =
        some (.ok (Int32.ofNat out.length, out)) ∧
      ∃ tuples, PairedBy allSamples numSamples tuples out := by
  obtain ⟨w, hrun, ⟨tuples, hp, _⟩, _⟩ :=
    pairSamplesN_total hn [] (I := PairedBehind allSamples numSamples)
      ⟨[], ⟨.nil, by simp, by simp, .nil⟩, by simp⟩
      ⟨fun _ _ h hin hgap hv => pairedBehind_pair h hin hgap hv,
        fun _ c _ h _ _ _ => pairedBehind_advance h c⟩ hfuel
  exact ⟨w.outEffective, hrun, tuples, hp⟩

/-- Two channels of three samples each, the second of which starts late. -/
def lateStart : AllSamples 2 := fun c i =>
  ⟨UInt64.ofNat (if c = 0 then 1000 * i else 600 + 900 * i), UInt64.ofNat (70 + 10 * i + c)⟩

theorem pairing_sound_lateStart :
    ∃ out, pairSamplesN 7 lateStart 3 [] = some (.ok (Int32.ofNat out.length, out)) ∧
      ∃ tuples, PairedBy lateStart 3 tuples out :=
  pairing_sound (by decide) lateStart 3 (by decide)

/-- `k` tuples within the gap that share no sample. -/
structure IsPairing (allSamples : AllSamples n) (numSamples : ℤ) {k : ℕ}
    (T : Fin k → IndexTuple n) : Prop where
  disjoint : Disjoint T
  inRange : ∀ j, InRange numSamples (T j)
  withinGap : ∀ j, WithinGap allSamples (T j)

def Ordered (allSamples : AllSamples n) (numSamples : ℤ) : Prop :=
  ∀ c (i j : ℕ), i ≤ j → (j : ℤ) < numSamples →
    (allSamples c i).timestamp.toNat ≤ (allSamples c j).timestamp.toNat

/-- Sorting a pairing column by column leaves a pairing. -/
theorem isPairing_sorted (ho : Ordered allSamples numSamples) {k : ℕ}
    {T : Fin k → IndexTuple n} (h : IsPairing allSamples numSamples T) :
    IsPairing allSamples numSamples (sorted T) where
  disjoint := (chain_sorted h.disjoint).disjoint
  inRange := by
    intro j c
    exact sorted_of_forall T (P := fun i => (i : ℤ) < numSamples) c (fun i => h.inRange i c) j
  withinGap := by
    intro j c d
    -- the gap condition, made to hold for all earlier `c` samples and all later `d` samples
    have hP := sorted_of_lagging (T := T) (P := fun x y => ∀ x' y', x' ≤ x → y ≤ y' →
      (y' : ℤ) < numSamples → (allSamples c x').timestamp.toNat <
        (allSamples d y').timestamp.toNat + MAX_PAIR_GAP.toNat) ?_ c d ?_ j
    · exact hP _ _ le_rfl le_rfl
        (sorted_of_forall T (P := fun i => (i : ℤ) < numSamples) d (fun i => h.inRange i d) j)
    · intro x x' y y' hx hy hxy a b ha hb
      exact hxy a b (ha.trans hx) (hy.trans hb)
    · intro i x' y' hx hy hlt
      have hc := ho c x' (T i c) hx (h.inRange i c)
      have hd := ho d (T i d) y' hy hlt
      have hgap := h.withinGap i c d
      simp only [sampleAt] at hgap
      omega

/-- What each iteration keeps: the tuples of a chain not yet matched lie ahead of the window. -/
def Ahead {k : ℕ} (S : Fin k → IndexTuple n) (w : Window n) : Prop :=
  ∀ j : Fin k, w.outEffective.length ≤ j → ∀ c, w.indices c ≤ S j c

theorem ahead_pair {k : ℕ} {S : Fin k → IndexTuple n} (hS : Chain S) (h : Ahead S w)
    (v : UInt64) : Ahead S ⟨fun c => w.indices c + 1, w.outEffective ++ [v]⟩ := by
  intro j hj c
  change (w.outEffective ++ [v]).length ≤ j at hj
  rw [List.length_append, List.length_singleton] at hj
  have hjk := j.isLt
  have hprev := h ⟨j - 1, by omega⟩ (by change _ ≤ (j : ℕ) - 1; omega) c
  have hlt : S ⟨j - 1, by omega⟩ c < S j c := hS c (by
    change (j : ℕ) - 1 < j
    omega)
  change w.indices c + 1 ≤ S j c
  omega

/-- A sample that lags behind is in no tuple ahead of the window. -/
theorem lt_of_lagging (ho : Ordered allSamples numSamples) {t : IndexTuple n}
    (hin : InRange numSamples t) (hgap : WithinGap allSamples t)
    (hle : ∀ e, w.indices e ≤ t e) {c d : Fin n}
    (hfar : (sampleAt allSamples w.indices c).timestamp.toNat + MAX_PAIR_GAP.toNat ≤
      (sampleAt allSamples w.indices d).timestamp.toNat) : w.indices c < t c := by
  refine lt_of_le_of_ne (hle c) ?_
  intro heq
  have hd := ho d (w.indices d) (t d) (hle d) (hin d)
  have hcd := hgap d c
  simp only [sampleAt, ← heq] at hcd hfar
  omega

theorem ahead_advance {k : ℕ} {S : Fin k → IndexTuple n} (ho : Ordered allSamples numSamples)
    (hS : IsPairing allSamples numSamples S) (h : Ahead S w) {c d : Fin n}
    (hfar : (sampleAt allSamples w.indices c).timestamp.toNat + MAX_PAIR_GAP.toNat ≤
      (sampleAt allSamples w.indices d).timestamp.toNat) :
    Ahead S { w with indices := Function.update w.indices c (w.indices c + 1) } := by
  intro j hj e
  have he := h j hj e
  change Function.update w.indices c (w.indices c + 1) e ≤ S j e
  rcases update_succ_cases w.indices c e with ⟨rfl, hup⟩ | ⟨_, hup⟩
  · rw [hup]
    exact lt_of_lagging ho (hS.inRange j) (hS.withinGap j) (h j hj) hfar
  · rwa [hup]

theorem isPairing_of_pairedBy {tuples : List (IndexTuple n)} {out : List UInt64}
    (h : PairedBy allSamples numSamples tuples out) :
    ∃ T : Fin out.length → IndexTuple n, IsPairing allSamples numSamples T := by
  have hlen : out.length = tuples.length := h.latency.length_eq.symm
  have hmem : ∀ j : Fin out.length, tuples.get (j.cast hlen) ∈ tuples :=
    fun j => List.get_mem _ _
  have hchain : Chain (fun j : Fin out.length => tuples.get (j.cast hlen)) := by
    intro c i j hij
    exact List.pairwise_iff_get.mp h.increasing _ _ hij c
  exact ⟨_, hchain.disjoint, fun j => h.inRange _ (hmem j), fun j => h.withinGap _ (hmem j)⟩

/-- On ordered timestamps no pairing has more tuples than `pair_samples_n` finds. -/
theorem pairing_maximum (hn : 0 < n) (ho : Ordered allSamples numSamples) {fuel : ℕ}
    (hfuel : n * numSamples.toNat < fuel) :
    ∃ out, pairSamplesN fuel allSamples numSamples [] =
        some (.ok (Int32.ofNat out.length, out)) ∧
      IsGreatest {k | ∃ T : Fin k → IndexTuple n, IsPairing allSamples numSamples T}
        out.length := by
  let I : Window n → Prop := fun w => PairedBehind allSamples numSamples w ∧
    ∀ k (T : Fin k → IndexTuple n), IsPairing allSamples numSamples T → Ahead (sorted T) w
  have h0 : I ⟨fun _ => 0, []⟩ :=
    ⟨⟨[], ⟨.nil, by simp, by simp, .nil⟩, by simp⟩, fun k T _ j _ c => Nat.zero_le _⟩
  have hI : KeptByPairing allSamples numSamples I := by
    constructor
    · intro w v hw hin hgap hv
      exact ⟨pairedBehind_pair hw.1 hin hgap hv,
        fun k T hT => ahead_pair (chain_sorted hT.disjoint) (hw.2 k T hT) v⟩
    · intro w c d hw _ _ hfar
      exact ⟨pairedBehind_advance hw.1 c,
        fun k T hT => ahead_advance ho (isPairing_sorted ho hT) (hw.2 k T hT) hfar⟩
  obtain ⟨w, hrun, ⟨⟨tuples, hp, _⟩, hahead⟩, c, hc⟩ := pairSamplesN_total hn [] h0 hI hfuel
  refine ⟨w.outEffective, hrun, isPairing_of_pairedBy hp, ?_⟩
  rintro k ⟨T, hT⟩
  by_contra hlt
  -- the next tuple of the chain would still lie ahead of an exhausted channel
  have hnext : w.outEffective.length < k := Nat.lt_of_not_le hlt
  have hle := hahead k T hT ⟨_, hnext⟩ le_rfl c
  have hin := (isPairing_sorted ho hT).inRange ⟨_, hnext⟩ c
  omega

theorem ordered_lateStart : Ordered lateStart 3 := by
  intro c i j hij hj
  have hcases : (i = 0 ∨ i = 1 ∨ i = 2) ∧ (j = 0 ∨ j = 1 ∨ j = 2) := by omega
  obtain ⟨rfl | rfl | rfl, rfl | rfl | rfl⟩ := hcases <;>
    first | omega | (revert c; decide)

theorem pairing_maximum_lateStart :
    ∃ out, pairSamplesN 7 lateStart 3 [] = some (.ok (Int32.ofNat out.length, out)) ∧
      IsGreatest {k | ∃ T : Fin k → IndexTuple 2, IsPairing lateStart 3 T} out.length :=
  pairing_maximum (by decide) ordered_lateStart (by decide)

end Tailslayer.Benchmark
