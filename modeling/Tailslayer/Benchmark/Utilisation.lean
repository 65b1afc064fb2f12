import Tailslayer.Benchmark.Execution
import Tailslayer.ThreadManager.Counters

/-! What the assertion about the thread count promises for the allocations that follow it. -/
namespace Tailslayer.Benchmark

open DynamicThreadManager FiniteMap ProcessorConfigurationVector

variable {Mask : Type} {cfg : ProcessorConfigurationVector Mask} {s t : DynamicThreadManager Mask}
  {b : Begin} {bs : List Begin} {k : UInt64}

/-- The number of threads of a core. -/
def coreSize (cfg : ProcessorConfigurationVector Mask) (k : UInt64) : ℕ := (cfg.threadsOf k).length

/-- A state between two allocations, with an exact counter. -/
structure Exact (cfg : ProcessorConfigurationVector Mask) (s : DynamicThreadManager Mask) :
    Prop where
  invariant : s.Invariant cfg
  counts : CountsFree cfg s

/-- While the counter is positive, some core has a free thread. -/
theorem Exact.not_empty (h : Exact cfg s) (hpos : 0 < s.freeThreads.toNat) :
    ¬ (s.freeThreadCount = 0 ∨ s.partiallyFreeCoreMap = ∅ ∧ s.freeCoreMap = ∅) := by
  rintro (hz | ⟨hpart, hfree⟩)
  · change 0 < s.freeThreadCount.toNat at hpos
    rw [hz] at hpos
    cases hpos
  · have hstored := h.counts.1
    rw [storedThreads, hpart, hfree, total_empty] at hstored
    omega

/-- Every core is completely free or completely used. -/
structure WholeCores (cfg : ProcessorConfigurationVector Mask) (s : DynamicThreadManager Mask) :
    Prop extends Exact cfg s where
  whole : s.partiallyFreeCoreMap = ∅

theorem wholeCores_initial (hw : cfg.WellFormed) : WholeCores cfg (initial cfg) where
  invariant := invariant_initial hw
  counts := countsFree_initial hw
  whole := rfl

/-- The free threads are those of the free cores. -/
theorem WholeCores.freeThreads_eq (h : WholeCores cfg s) :
    s.freeThreads.toNat = ∑ k ∈ s.freeCoreMap.keys, coreSize cfg k := by
  rw [h.counts.1, storedThreads, h.whole, total_empty, Nat.add_zero, total_eq_sum]
  apply Finset.sum_congr rfl
  intro k hk
  rw [value_of_lookup (h.invariant.lookup_free (Finmap.mem_keys.mp hk)), coreSize]

theorem WholeCores.freeCores_eq (h : WholeCores cfg s) :
    s.freeCores.toNat = s.freeCoreMap.keys.card :=
  h.invariant.coreCount

section Loops

variable {allocate : Begin → DynamicThreadManager Mask →
    Except Tailslayer.Fault (LogicalProcessor Mask × DynamicThreadManager Mask)}
  {p : LogicalProcessor Mask} {ps : List (LogicalProcessor Mask)} {ok : Bool}
  {u : DynamicThreadManager Mask}

theorem allocateEach_failed (ha : allocate b s = .ok (p, t)) (hp : p.coreID = 0xffffffff) :
    allocateEach allocate (b :: bs) s = .ok (false, [p], t) := by
  simp only [allocateEach, ha, bind, Except.bind, hp, if_true]
  rfl

theorem allocateEach_next (ha : allocate b s = .ok (p, t)) (hp : p.coreID ≠ 0xffffffff)
    (hrest : allocateEach allocate bs t = .ok (ok, ps, u)) :
    allocateEach allocate (b :: bs) s = .ok (ok, p :: ps, u) := by
  simp only [allocateEach, ha, bind, Except.bind, hp, if_false, hrest]
  rfl

end Loops

/-- A channel is given a thread of the core that `begin()` picks, and with it the whole core. -/
theorem allocateProcessor'_of_ne [Inhabited Mask] (hw : cfg.WellFormed) (h : WholeCores cfg s)
    (hne : s.freeCoreMap ≠ ∅) : ∃ p t, s.allocateProcessor' b = .ok (p, t) ∧ p ∈ cfg.proc ∧
      WholeCores cfg t ∧ t.freeCoreMap = s.freeCoreMap.erase (b.pick s.freeCoreMap) := by
  have hpick := b.pick_mem s.freeCoreMap hne
  have hcall := allocateProcessor_of_ne (b := b) hw h.invariant hne
  obtain ⟨q, hq, hqk⟩ := h.invariant.isCore_free hpick
  have hmem : q ∈ cfg.coreProcs (b.pick s.freeCoreMap) := mem_coreProcs.mpr ⟨hq, hqk⟩
  have heffect := @Effect.core _ _ cfg s (b.pick s.freeCoreMap) hpick
  cases hout : cfg.coreProcs (b.pick s.freeCoreMap) with
  | nil =>
    rw [hout] at hmem
    cases hmem
  | cons p ps =>
    rw [hout] at hcall
    refine ⟨p, _, ?_, ?_, ⟨⟨invariant_effect hw h.invariant heffect, ?_⟩, h.whole⟩, rfl⟩
    · rw [DynamicThreadManager.allocateProcessor', hcall]
      rfl
    · exact (mem_coreProcs.mp (hout ▸ List.mem_cons_self)).1
    · exact (countsFree_effect hw h.invariant h.counts heffect).mpr (fun hf => hf)

/-- `begin()` picks one of the given cores where it can. -/
def Prefers (b : Begin) (P : Finset UInt64) : Prop :=
  ∀ m : ProcMap, (m.keys ∩ P).Nonempty → b.pick m ∈ P

/-- No processor has the core number by which `execute_benchmarks` tells failed allocations. -/
def Numbered (cfg : ProcessorConfigurationVector Mask) : Prop :=
  ∀ p ∈ cfg.proc, p.coreID ≠ 0xffffffff

/-- Every allocation that was made gave a processor of the configuration, and none is missing. -/
structure Succeeds (cfg : ProcessorConfigurationVector Mask) (ok : Bool)
    (ps : List (LogicalProcessor Mask)) : Prop where
  mem : ∀ p ∈ ps, p ∈ cfg.proc
  complete : Numbered cfg → ok = true

theorem Succeeds.cons {p : LogicalProcessor Mask} {ps : List (LogicalProcessor Mask)} {ok : Bool}
    (hp : p ∈ cfg.proc) (h : Succeeds cfg ok ps) : Succeeds cfg ok (p :: ps) where
  mem := by
    intro q hq
    rcases List.mem_cons.mp hq with rfl | hq
    · exact hp
    · exact h.mem q hq
  complete := h.complete

/-- A processor with the number of a failed allocation ends the loop. -/
theorem Succeeds.unnumbered {p : LogicalProcessor Mask} (hp : p ∈ cfg.proc)
    (hfail : p.coreID = 0xffffffff) : Succeeds cfg false [p] where
  mem := fun _ hq => List.mem_singleton.mp hq ▸ hp
  complete := fun hn => absurd hfail (hn p hp)

/-- What the loop over the channels does: it takes the cores of `K` and gives each channel a
processor of the configuration. -/
structure TakesCores (cfg : ProcessorConfigurationVector Mask) (s : DynamicThreadManager Mask)
    (bs : List Begin) (ok : Bool) (ps : List (LogicalProcessor Mask))
    (t : DynamicThreadManager Mask) (K : Finset UInt64) : Prop extends Succeeds cfg ok ps where
  whole : WholeCores cfg t
  subset : K ⊆ s.freeCoreMap.keys
  left : t.freeCoreMap.keys = s.freeCoreMap.keys \ K
  card : ok = true → K.card = bs.length
  preferred : ∀ P : Finset UInt64, (∀ b ∈ bs, Prefers b P) →
    bs.length ≤ (s.freeCoreMap.keys ∩ P).card → K ⊆ P

theorem TakesCores.nil (h : WholeCores cfg s) : TakesCores cfg s [] true [] s ∅ where
  toSucceeds := ⟨by simp, fun _ => rfl⟩
  whole := h
  subset := Finset.empty_subset _
  left := Finset.sdiff_empty.symm
  card := fun _ => rfl
  preferred := fun P _ _ => Finset.empty_subset P

section Round

variable {p : LogicalProcessor Mask} {u : DynamicThreadManager Mask}

/-- Where a preferred core is free, a preferred core is picked. -/
theorem pick_mem_of_prefers {P : Finset UInt64} (hP : ∀ c ∈ b :: bs, Prefers c P)
    (hle : (b :: bs).length ≤ (s.freeCoreMap.keys ∩ P).card) : b.pick s.freeCoreMap ∈ P := by
  have hpos : 0 < (s.freeCoreMap.keys ∩ P).card := by
    rw [List.length_cons] at hle
    omega
  exact hP b List.mem_cons_self s.freeCoreMap (Finset.card_pos.mp hpos)

/-- The loop ends after its first round. -/
theorem TakesCores.unnumbered (hpick : b.pick s.freeCoreMap ∈ s.freeCoreMap.keys)
    (hkeys : u.freeCoreMap.keys = s.freeCoreMap.keys.erase (b.pick s.freeCoreMap))
    (hu : WholeCores cfg u) (hp : p ∈ cfg.proc) (hfail : p.coreID = 0xffffffff) :
    TakesCores cfg s (b :: bs) false [p] u {b.pick s.freeCoreMap} where
  toSucceeds := .unnumbered hp hfail
  whole := hu
  subset := Finset.singleton_subset_iff.mpr hpick
  left := by rw [hkeys, Finset.sdiff_singleton_eq_erase]
  card := by
    intro h
    cases h
  preferred := fun P hP hle => Finset.singleton_subset_iff.mpr (pick_mem_of_prefers hP hle)

/-- The loop goes on after its first round. -/
theorem TakesCores.cons {ok : Bool} {ps : List (LogicalProcessor Mask)} {K : Finset UInt64}
    (hpick : b.pick s.freeCoreMap ∈ s.freeCoreMap.keys)
    (hkeys : u.freeCoreMap.keys = s.freeCoreMap.keys.erase (b.pick s.freeCoreMap))
    (hp : p ∈ cfg.proc) (h : TakesCores cfg u bs ok ps t K) :
    TakesCores cfg s (b :: bs) ok (p :: ps) t (insert (b.pick s.freeCoreMap) K) where
  toSucceeds := h.toSucceeds.cons hp
  whole := h.whole
  subset := by
    apply Finset.insert_subset hpick
    exact h.subset.trans (hkeys ▸ Finset.erase_subset _ _)
  left := by rw [h.left, hkeys, Finset.erase_sdiff_comm, Finset.sdiff_insert]
  card := by
    intro hok
    have hnot : b.pick s.freeCoreMap ∉ K := by
      intro hin
      have hin' := h.subset hin
      rw [hkeys] at hin'
      exact Finset.notMem_erase _ _ hin'
    rw [Finset.card_insert_of_notMem hnot, h.card hok, List.length_cons]
  preferred := by
    intro P hP hle
    apply Finset.insert_subset (pick_mem_of_prefers hP hle)
    apply h.preferred P (fun c hc => hP c (List.mem_cons_of_mem _ hc))
    have hone := Finset.pred_card_le_card_erase (s := s.freeCoreMap.keys ∩ P)
      (a := b.pick s.freeCoreMap)
    rw [List.length_cons] at hle
    rw [hkeys, Finset.erase_inter]
    omega

end Round

variable [Inhabited Mask]

/-- While cores are free for all channels, each channel gets one. -/
theorem channelLoop (bs : List Begin) (hw : cfg.WellFormed) (h : WholeCores cfg s)
    (hlen : bs.length ≤ s.freeCoreMap.keys.card) : ∃ ok ps t K,
      allocateEach (fun b s => s.allocateProcessor' b) bs s = .ok (ok, ps, t) ∧
        TakesCores cfg s bs ok ps t K := by
  induction bs generalizing s with
  | nil => exact ⟨true, [], s, ∅, rfl, .nil h⟩
  | cons b bs ih =>
    have hne : s.freeCoreMap ≠ ∅ := by
      intro he
      rw [he] at hlen
      cases hlen
    have hpick : b.pick s.freeCoreMap ∈ s.freeCoreMap.keys :=
      Finmap.mem_keys.mpr (b.pick_mem _ hne)
    obtain ⟨p, u, hcall, hp, hu, hmap⟩ := allocateProcessor'_of_ne (b := b) hw h hne
    have hkeys : u.freeCoreMap.keys = s.freeCoreMap.keys.erase (b.pick s.freeCoreMap) := by
      rw [hmap, Finmap.keys_erase]
    by_cases hfail : p.coreID = 0xffffffff
    · exact ⟨false, [p], u, _, allocateEach_failed hcall hfail,
        .unnumbered hpick hkeys hu hp hfail⟩
    · have hleft : bs.length ≤ u.freeCoreMap.keys.card := by
        rw [List.length_cons] at hlen
        rw [hkeys, Finset.card_erase_of_mem hpick]
        omega
      obtain ⟨ok, ps, t, K, hrest, hK⟩ := ih hu hleft
      exact ⟨ok, p :: ps, t, _, allocateEach_next hcall hfail hrest, .cons hpick hkeys hp hK⟩

theorem allocateThread_of_pos (hw : cfg.WellFormed) (h : Exact cfg s)
    (hpos : 0 < s.freeThreads.toNat) : ∃ p t, s.allocateThread b = .ok (p, t) ∧ p ∈ cfg.proc ∧
      Exact cfg t ∧ t.freeThreads.toNat + 1 = s.freeThreads.toNat := by
  obtain ⟨r, t, hcall, he⟩ := allocateThread_effect hw h.invariant b
  obtain ⟨⟨p, u⟩, hp, hr⟩ := Except.bind_eq_ok_iff.mp hcall
  obtain ⟨rfl, rfl⟩ := Prod.mk.inj (Except.ok.inj hr)
  have hu : Exact cfg u := {
    invariant := invariant_effect hw h.invariant he
    counts := (countsFree_effect hw h.invariant h.counts he).mpr (fun hf => hf) }
  have hpred : (s.freeThreadCount - 1).toNat + 1 = s.freeThreadCount.toNat := by
    change 0 < s.freeThreadCount.toNat at hpos
    rw [toNat_pred (m := s.freeThreadCount.toNat - 1) (by omega)]
    omega
  refine ⟨p, u, hp, ?_⟩
  cases he with
  | noThread hnone => exact absurd hnone (h.not_empty hpos)
  | threadOfPartial k l p hmem _ _ | threadOfFree k l p hmem _ _ _ _ => exact ⟨hmem, hu, hpred⟩

/-- As many stress threads as there are free threads all get one. -/
theorem stressLoop (bs : List Begin) (hw : cfg.WellFormed) (h : Exact cfg s)
    (hlen : bs.length ≤ s.freeThreads.toNat) : ∃ ok ps t,
      allocateEach (fun b s => s.allocateThread b) bs s = .ok (ok, ps, t) ∧
        Succeeds cfg ok ps := by
  induction bs generalizing s with
  | nil => exact ⟨true, [], s, rfl, by simp, fun _ => rfl⟩
  | cons b bs ih =>
    rw [List.length_cons] at hlen
    obtain ⟨p, u, hp, hmem, hu, hcount⟩ := allocateThread_of_pos (b := b) hw h (by omega)
    by_cases hfail : p.coreID = 0xffffffff
    · exact ⟨false, [p], u, allocateEach_failed hp hfail, .unnumbered hmem hfail⟩
    · obtain ⟨ok, ps, t, hrest, hps⟩ := ih hu (by omega)
      exact ⟨ok, p :: ps, t, allocateEach_next hp hfail hrest, hps.cons hmem⟩

/-- More stress threads than that do not. -/
theorem stressLoop_short (bs : List Begin) (hw : cfg.WellFormed) (hnum : Numbered cfg)
    (h : Exact cfg s) (hlen : s.freeThreads.toNat < bs.length) : ∃ ok ps t,
      allocateEach (fun b s => s.allocateThread b) bs s = .ok (ok, ps, t) ∧
        ∃ p ∈ ps, p ∉ cfg.proc := by
  induction bs generalizing s with
  | nil => cases hlen
  | cons b bs ih =>
    rw [List.length_cons] at hlen
    rcases Nat.eq_zero_or_pos s.freeThreads.toNat with hz | hpos
    · have hzero : s.freeThreadCount = 0 := UInt32.toNat_inj.mp hz
      have hnone : s.allocateThread b = .ok (.sentinel, s) := by
        rw [DynamicThreadManager.allocateThread, if_pos hzero]
      refine ⟨false, [.sentinel], s, allocateEach_failed hnone rfl, .sentinel, by simp, ?_⟩
      intro hmem
      exact hw.ne_sentinel hmem rfl
    · obtain ⟨p, u, hp, hmem, hu, hcount⟩ := allocateThread_of_pos (b := b) hw h hpos
      obtain ⟨ok, ps, t, hrest, q, hq, hnot⟩ := ih hu (by omega)
      exact ⟨ok, p :: ps, t, allocateEach_next hp (hnum p hmem) hrest, q,
        List.mem_cons_of_mem _ hq, hnot⟩

variable {main : Begin} {p : LogicalProcessor Mask} {channels stress : UInt32} {orders : Orders}

omit [Inhabited Mask] in
/-- The average leaves a core for each channel. -/
theorem SufficientThreads.channels_lt (h : WholeCores cfg s)
    (hcheck : SufficientThreads channels stress s) :
    channels.toNat < s.freeCoreMap.keys.card := by
  have hlt : approximateThreadUtilization channels stress s + 1 < (s.freeThreads.toNat : ℚ) := by
    exact_mod_cast Int.floor_lt.mp hcheck
  rw [approximateThreadUtilization, threadToCoreRatio] at hlt
  rw [← h.freeCores_eq]
  have hstress : (0 : ℚ) ≤ stress.toNat := Nat.cast_nonneg _
  by_contra hle
  have hcores : (s.freeCores.toNat : ℚ) ≤ channels.toNat := by
    exact_mod_cast Nat.le_of_not_lt hle
  rcases Nat.eq_zero_or_pos s.freeCores.toNat with hz | hpos
  · -- no core and so no thread is free
    have hnone : s.freeThreads.toNat = 0 := by
      rw [h.freeCores_eq, Finset.card_eq_zero] at hz
      rw [h.freeThreads_eq, hz, Finset.sum_empty]
    rw [hz, hnone] at hlt
    norm_num at hlt
    linarith
  · have hc : (0 : ℚ) < s.freeCores.toNat := by exact_mod_cast hpos
    have hall : (s.freeThreads.toNat : ℚ) ≤
        channels.toNat * (s.freeThreads.toNat / s.freeCores.toNat) := by
      rw [mul_div_assoc', le_div_iff₀ hc, mul_comm]
      exact mul_le_mul_of_nonneg_right hcores (Nat.cast_nonneg _)
    linarith

/-- The main thread takes a whole core. -/
theorem wholeCores_main (hw : cfg.WellFormed)
    (hmain : (initial cfg).allocateProcessor' main = .ok (p, s)) : WholeCores cfg s := by
  have hne : (initial cfg).freeCoreMap ≠ ∅ := by
    obtain ⟨q, hq⟩ := List.exists_mem_of_ne_nil _ hw.nonempty
    have hmem : q.uniqueCoreID ∈ (initial cfg).freeCoreMap := (mem_initial hw).mpr ⟨q, hq, rfl⟩
    intro he
    rw [he] at hmem
    exact Finmap.notMem_empty hmem
  obtain ⟨q, t, hcall, -, ht, -⟩ :=
    allocateProcessor'_of_ne (b := main) hw (wholeCores_initial hw) hne
  rw [hmain] at hcall
  cases hcall
  exact ht

/-- The loop over the channels succeeds. -/
def ChannelsSucceed (cfg : ProcessorConfigurationVector Mask) (orders : Orders)
    (channels : UInt32) (s : DynamicThreadManager Mask) : Prop :=
  ∃ ok ps t, allocateEach (fun b s => s.allocateProcessor' b)
    ((List.range channels.toNat).map orders.channel) s = .ok (ok, ps, t) ∧ Succeeds cfg ok ps

/-- Both loops succeed. -/
def AllSucceed (cfg : ProcessorConfigurationVector Mask) (orders : Orders)
    (channels stress : UInt32) (s : DynamicThreadManager Mask) : Prop :=
  ∃ ok cores threads, allocateThreads orders channels stress s = .ok (ok, cores, threads) ∧
    Succeeds cfg ok (cores ++ threads)

/-- However the channels choose their cores, a thread is left for each stress thread. -/
def ReservesEnough (cfg : ProcessorConfigurationVector Mask) (channels stress : UInt32)
    (s : DynamicThreadManager Mask) : Prop :=
  ∀ K ⊆ s.freeCoreMap.keys, K.card = channels.toNat →
    ∑ k ∈ K, coreSize cfg k + stress.toNat ≤ s.freeThreads.toNat

/-- The free cores have equally many threads. -/
def Uniform (cfg : ProcessorConfigurationVector Mask) (s : DynamicThreadManager Mask) : Prop :=
  ∀ k ∈ s.freeCoreMap.keys, ∀ k' ∈ s.freeCoreMap.keys, coreSize cfg k = coreSize cfg k'

/-- What the assertion guarantees for the two loops. -/
structure CheckGuarantees (cfg : ProcessorConfigurationVector Mask) (channels stress : UInt32)
    (s : DynamicThreadManager Mask) : Prop where
  channelsSucceed : ∀ orders, ChannelsSucceed cfg orders channels s
  sufficient : ReservesEnough cfg channels stress s →
    ∀ orders, AllSucceed cfg orders channels stress s
  necessary : Numbered cfg → (∀ orders, AllSucceed cfg orders channels stress s) →
    ReservesEnough cfg channels stress s
  uniform : Uniform cfg s → ∀ orders, AllSucceed cfg orders channels stress s

theorem allocateThreads_failed {cores : List (LogicalProcessor Mask)}
    (hc : allocateEach (fun b s => s.allocateProcessor' b)
      ((List.range channels.toNat).map orders.channel) s = .ok (false, cores, t)) :
    allocateThreads orders channels stress s = .ok (false, cores, []) := by
  simp only [allocateThreads, hc, bind, Except.bind]
  rfl

theorem allocateThreads_next {cores threads : List (LogicalProcessor Mask)} {ok : Bool}
    {u : DynamicThreadManager Mask}
    (hc : allocateEach (fun b s => s.allocateProcessor' b)
      ((List.range channels.toNat).map orders.channel) s = .ok (true, cores, t))
    (hs : allocateEach (fun b s => s.allocateThread b)
      ((List.range stress.toNat).map orders.stress) t = .ok (ok, threads, u)) :
    allocateThreads orders channels stress s = .ok (ok, cores, threads) := by
  simp only [allocateThreads, hc, bind, Except.bind, if_true, hs]
  rfl

omit [Inhabited Mask] in
/-- The threads of the channels' cores are no longer free. -/
theorem TakesCores.freeThreads_add {ok : Bool} {ps : List (LogicalProcessor Mask)}
    {K : Finset UInt64} (h : WholeCores cfg s) (hK : TakesCores cfg s bs ok ps t K) :
    t.freeThreads.toNat + ∑ k ∈ K, coreSize cfg k = s.freeThreads.toNat := by
  rw [hK.whole.freeThreads_eq, h.freeThreads_eq, hK.left]
  exact Finset.sum_sdiff hK.subset

theorem allSucceed_of_reservesEnough (hw : cfg.WellFormed) (h : WholeCores cfg s)
    (hle : channels.toNat ≤ s.freeCoreMap.keys.card)
    (henough : ReservesEnough cfg channels stress s) :
    AllSucceed cfg orders channels stress s := by
  obtain ⟨ok, cores, t, K, hc, hK⟩ :=
    channelLoop ((List.range channels.toNat).map orders.channel) hw h (by simpa using hle)
  cases ok with
  | false =>
    refine ⟨false, cores, [], allocateThreads_failed hc, ?_⟩
    rw [List.append_nil]
    exact hK.toSucceeds
  | true =>
    have hcard : K.card = channels.toNat := by simpa using hK.card rfl
    have hsum := hK.freeThreads_add h
    have hroom := henough K hK.subset hcard
    have hlen : ((List.range stress.toNat).map orders.stress).length ≤ t.freeThreads.toNat := by
      rw [List.length_map, List.length_range]
      omega
    obtain ⟨ok, threads, u, hs, hthreads⟩ :=
      stressLoop ((List.range stress.toNat).map orders.stress) hw hK.whole.toExact hlen
    refine ⟨ok, cores, threads, allocateThreads_next hc hs, ?_, hthreads.complete⟩
    intro p hp
    rcases List.mem_append.mp hp with hp | hp
    · exact hK.mem p hp
    · exact hthreads.mem p hp

theorem largest_mem {K : Finset UInt64} (h : K.Nonempty) :
    UInt64.ofNat (K.sup UInt64.toNat) ∈ K := by
  obtain ⟨x, hx, he⟩ := Finset.exists_mem_eq_sup K h UInt64.toNat
  rw [he, UInt64.ofNat_toNat]
  exact hx

/-- `begin()` as the entry with the largest key of those in `K`, if there is one. -/
def preferring (K : Finset UInt64) : Begin where
  pick m := if (m.keys ∩ K).Nonempty then UInt64.ofNat ((m.keys ∩ K).sup UInt64.toNat)
    else Begin.largest.pick m
  pick_mem m hm := by
    split
    · next h => exact Finmap.mem_keys.mp (Finset.mem_inter.mp (largest_mem h)).1
    · exact Begin.largest.pick_mem m hm

theorem prefers_preferring (K : Finset UInt64) : Prefers (preferring K) K := by
  intro m h
  simp only [preferring, if_pos h]
  exact (Finset.mem_inter.mp (largest_mem h)).2

/-- The channels may choose the cores that leave the fewest threads. -/
theorem reservesEnough_of_allSucceed (hw : cfg.WellFormed) (hnum : Numbered cfg)
    (h : WholeCores cfg s) (hle : channels.toNat ≤ s.freeCoreMap.keys.card)
    (hall : ∀ orders, AllSucceed cfg orders channels stress s) :
    ReservesEnough cfg channels stress s := by
  intro K hsub hcard
  by_contra hshort
  let orders : Orders := ⟨fun _ => preferring K, fun _ => Begin.largest⟩
  obtain ⟨ok, cores, t, K', hc, hK'⟩ :=
    channelLoop ((List.range channels.toNat).map orders.channel) hw h (by simpa using hle)
  obtain rfl : ok = true := hK'.complete hnum
  have hcard' : K'.card = channels.toNat := by simpa using hK'.card rfl
  have hpreferred : K' ⊆ K := by
    apply hK'.preferred
    · intro b hb
      obtain ⟨_, -, rfl⟩ := List.mem_map.mp hb
      exact prefers_preferring K
    · rw [Finset.inter_eq_right.mpr hsub, hcard]
      simp
  obtain rfl : K' = K := Finset.eq_of_subset_of_card_le hpreferred (by omega)
  have hsum := hK'.freeThreads_add h
  have hlen : t.freeThreads.toNat < ((List.range stress.toNat).map orders.stress).length := by
    rw [List.length_map, List.length_range]
    omega
  obtain ⟨ok, threads, u, hs, q, hq, hnot⟩ :=
    stressLoop_short ((List.range stress.toNat).map orders.stress) hw hnum hK'.whole.toExact hlen
  obtain ⟨ok', cores', threads', hrun, hsucceed⟩ := hall orders
  rw [allocateThreads_next hc hs] at hrun
  cases hrun
  exact hnot (hsucceed.mem q (List.mem_append_right _ hq))

omit [Inhabited Mask] in
theorem uniform_of_coreSize {n : ℕ} (h : s.Invariant cfg)
    (hsize : ∀ p ∈ cfg.proc, coreSize cfg p.uniqueCoreID = n) : Uniform cfg s := by
  have hcore : ∀ k ∈ s.freeCoreMap.keys, coreSize cfg k = n := by
    intro k hk
    obtain ⟨p, hp, rfl⟩ := h.isCore_free (Finmap.mem_keys.mp hk)
    exact hsize p hp
  intro k hk k' hk'
  rw [hcore k hk, hcore k' hk']

omit [Inhabited Mask] in
/-- On cores of one size the average is exact. -/
theorem Uniform.reservesEnough (hu : Uniform cfg s) (h : WholeCores cfg s)
    (hcheck : SufficientThreads channels stress s) : ReservesEnough cfg channels stress s := by
  intro K hsub hcard
  have hlt := hcheck.channels_lt h
  obtain ⟨k, hk⟩ : s.freeCoreMap.keys.Nonempty := Finset.card_pos.mp (by omega)
  have hsum : ∀ K ⊆ s.freeCoreMap.keys, ∑ k' ∈ K, coreSize cfg k' = K.card * coreSize cfg k := by
    intro K hsub
    exact Finset.sum_const_nat (fun k' hk' => hu k' (hsub hk') k hk)
  have htotal : s.freeThreads.toNat = s.freeCores.toNat * coreSize cfg k := by
    rw [h.freeThreads_eq, h.freeCores_eq, hsum _ (Finset.Subset.refl _)]
  have hcores : (s.freeCores.toNat : ℚ) ≠ 0 := by
    rw [h.freeCores_eq]
    exact_mod_cast (by omega : s.freeCoreMap.keys.card ≠ 0)
  have hratio : threadToCoreRatio s = coreSize cfg k := by
    rw [threadToCoreRatio, htotal, Nat.cast_mul, mul_div_cancel_left₀ _ hcores]
  have hcast : approximateThreadUtilization channels stress s + 1 < (s.freeThreads.toNat : ℚ) := by
    exact_mod_cast Int.floor_lt.mp hcheck
  rw [approximateThreadUtilization, hratio] at hcast
  have hnat : channels.toNat * coreSize cfg k + stress.toNat + 1 < s.freeThreads.toNat := by
    exact_mod_cast hcast
  rw [hsum K hsub, hcard]
  omega

theorem checkGuarantees (hw : cfg.WellFormed)
    (hmain : (initial cfg).allocateProcessor' main = .ok (p, s))
    (hcheck : SufficientThreads channels stress s) : CheckGuarantees cfg channels stress s := by
  have h := wholeCores_main hw hmain
  have hle := Nat.le_of_lt (hcheck.channels_lt h)
  exact {
    channelsSucceed := by
      intro orders
      obtain ⟨ok, cores, t, K, hc, hK⟩ :=
        channelLoop ((List.range channels.toNat).map orders.channel) hw h (by simpa using hle)
      exact ⟨ok, cores, t, hc, hK.toSucceeds⟩
    sufficient := fun henough orders => allSucceed_of_reservesEnough hw h hle henough
    necessary := fun hnum hall => reservesEnough_of_allSucceed hw hnum h hle hall
    uniform := fun hu orders => allSucceed_of_reservesEnough hw h hle (hu.reservesEnough h hcheck) }

/-- A hybrid processor: four cores of two threads each, and eight of one. -/
def hybridThread (i : ℕ) : LogicalProcessor GroupAffinity :=
  ⟨UInt32.ofNat i, UInt32.ofNat (if i < 8 then i / 2 else i - 4), 0, 1,
    ⟨1 <<< UInt64.ofNat i, 0⟩⟩

def hybridCores : ProcessorConfigurationVector GroupAffinity where
  proc := (List.range 16).map hybridThread
  threadCount := 16
  physicalCoreCount := 12
  corePackageCount := 1

theorem hybridCores_wellFormed : hybridCores.WellFormed where
  nonempty := by decide
  globalID := by decide
  threadCount := rfl
  physicalCoreCount := by decide

/-- The main thread gets one of the small cores: fifteen threads of eleven cores are left. -/
def hybridAfterMain : DynamicThreadManager GroupAffinity :=
  match (initial hybridCores).allocateProcessor' Begin.largest with
  | .ok (_, s) => s
  | .error _ => initial hybridCores

theorem allocateProcessor'_hybridCores : (initial hybridCores).allocateProcessor' Begin.largest =
    .ok (hybridThread 15, hybridAfterMain) := by
  rfl

theorem sufficientThreads_hybridCores : SufficientThreads 4 8 hybridAfterMain := by
  decide +kernel

/-- Eight cores of two threads each. -/
def pairedCores : ProcessorConfigurationVector GroupAffinity where
  proc := (List.range 16).map fun i =>
    ⟨UInt32.ofNat i, UInt32.ofNat (i / 2), 0, 1, ⟨1 <<< UInt64.ofNat i, 0⟩⟩
  threadCount := 16
  physicalCoreCount := 8
  corePackageCount := 1

theorem pairedCores_wellFormed : pairedCores.WellFormed where
  nonempty := by decide
  globalID := by decide
  threadCount := rfl
  physicalCoreCount := by decide

/-- On the hybrid processor the channels get their cores; on cores of one size the stress threads
get a thread each as well, however both choose. -/
theorem checkGuarantees_hybridCores : CheckGuarantees hybridCores 4 8 hybridAfterMain ∧
    ∃ p s, (initial pairedCores).allocateProcessor' Begin.largest = .ok (p, s) ∧
      CheckGuarantees pairedCores 4 4 s ∧ ∀ orders, AllSucceed pairedCores orders 4 4 s := by
  refine ⟨checkGuarantees hybridCores_wellFormed allocateProcessor'_hybridCores
    sufficientThreads_hybridCores, ?_⟩
  obtain ⟨p, s, hmain⟩ : ∃ p s, (initial pairedCores).allocateProcessor' Begin.largest =
    .ok (p, s) := ⟨_, _, rfl⟩
  have hcheck : SufficientThreads 4 4 s := by
    cases hmain
    decide +kernel
  have huniform : Uniform pairedCores s :=
    uniform_of_coreSize (wholeCores_main pairedCores_wellFormed hmain).invariant (n := 2)
      (by decide)
  have hguaranteed := checkGuarantees pairedCores_wellFormed hmain hcheck
  exact ⟨p, s, hmain, hguaranteed, hguaranteed.uniform huniform⟩

/-- The channels choose the cores of two threads. -/
def twoThreadCores : Orders := ⟨fun _ => preferring {0, 1, 2, 3}, fun _ => Begin.largest⟩

/-- Seven of the eight stress threads get a thread. -/
theorem allocateThreads_hybridCores : allocateThreads twoThreadCores 4 8 hybridAfterMain =
    .ok (false, [6, 4, 2, 0].map hybridThread,
      [14, 13, 12, 11, 10, 9, 8].map hybridThread ++ [.sentinel]) := by
  rfl

/-- The check holds, and still a stress thread gets nothing. -/
theorem not_allSucceed_of_check : ¬ ∀ (cfg : ProcessorConfigurationVector GroupAffinity)
    (main : Begin) (p : LogicalProcessor GroupAffinity) (s : DynamicThreadManager GroupAffinity)
    (channels stress : UInt32) (orders : Orders),
    cfg.WellFormed → (initial cfg).allocateProcessor' main = .ok (p, s) → 1 ≤ channels →
    SufficientThreads channels stress s → AllSucceed cfg orders channels stress s := by
  intro h
  obtain ⟨ok, cores, threads, hrun, hsucceed⟩ := h _ _ _ _ 4 8 twoThreadCores
    hybridCores_wellFormed allocateProcessor'_hybridCores (by decide) sufficientThreads_hybridCores
  rw [allocateThreads_hybridCores] at hrun
  cases hrun
  have hmem : .sentinel ∈ hybridCores.proc := hsucceed.mem .sentinel (by simp)
  exact hybridCores_wellFormed.ne_sentinel hmem rfl

end Tailslayer.Benchmark
