import Tailslayer.Benchmark.Allocation
import Tailslayer.Topology.Exactness

/-! The affinity masks that measurement and stress threads install (`utilities.hpp`). -/
namespace Tailslayer.Benchmark

open DynamicThreadManager NativeRecord WordBits

/-- The mask of `SetCurrentThreadProcessorID(core_id)`. The shift `1 << core_id` is one of `int`:
its sign bit extends to the whole mask, and shifts beyond it are undefined. -/
def setCurrentThreadProcessorID (coreID : UInt32) : Option UInt64 :=
  if coreID.toNat < 31 then some (bit coreID.toNat)
  else if coreID.toNat = 31 then some 0xffffffff80000000
  else none

/-- The mask a measurement thread installs, for the processor in its context. -/
def measurementThread (coreId : LogicalProcessor GroupAffinity) : Option UInt64 :=
  setCurrentThreadProcessorID coreId.coreID

def stressThread (coreId : LogicalProcessor GroupAffinity) : Option UInt64 :=
  setCurrentThreadProcessorID coreId.coreID

/-- All threads of an arm run where they were told to, on different processors, and the
measurement threads on different cores. -/
structure PinnedAsAllocated (cfg : ProcessorConfigurationVector GroupAffinity)
    (arm : Arm GroupAffinity) : Prop where
  measurement : ∀ p ∈ arm.measurement, measurementThread p = some p.affinityMask.mask
  stress : ∀ p ∈ arm.stress, stressThread p = some p.affinityMask.mask
  processors : (arm.measurement.map measurementThread ++ arm.stress.map stressThread).Nodup
  cores : arm.measurement.Pairwise (fun p q => ∀ p' ∈ cfg.proc, ∀ q' ∈ cfg.proc,
    measurementThread p = some p'.affinityMask.mask →
    measurementThread q = some q'.affinityMask.mask → p'.uniqueCoreID ≠ q'.uniqueCoreID)

/-- A machine with a single processor group, and so with at most 64 processors. -/
def OneGroup (records : List NativeRecord) : Prop :=
  ∃ group, ∀ r ∈ cores records, ∀ e ∈ r.entries, e.group = group

/-- Every thread's processor is bit `c` of the group, where `c` is the position of its core
record among the core records, and `c` is at most 30. -/
def Aligned (records : List NativeRecord) (arm : Arm GroupAffinity) : Prop :=
  ∀ p ∈ arm.measurement ++ arm.stress, ∃ c, c ≤ 30 ∧ ∃ hc : c < (cores records).length,
    (cores records)[c].Contains p ∧ p.affinityMask.mask = bit c

variable {records : List NativeRecord} {sys : NativeSystem} {affinity : UInt64}
  {p q : LogicalProcessor GroupAffinity} {a : Allocation GroupAffinity}
  {arm : Arm GroupAffinity}

/-- The installed mask is a given single bit exactly when the core number is that bit. -/
theorem setCurrentThreadProcessorID_eq_bit {coreID : UInt32} {b : ℕ} (hb : b < 64) :
    setCurrentThreadProcessorID coreID = some (bit b) ↔ coreID.toNat = b ∧ b ≤ 30 := by
  by_cases hlt : coreID.toNat < 31
  · rw [setCurrentThreadProcessorID, if_pos hlt, Option.some.injEq]
    constructor
    · intro he
      have heq := bit_inj (by omega) hb he
      exact ⟨heq, by omega⟩
    · rintro ⟨rfl, -⟩
      rfl
  · rw [setCurrentThreadProcessorID, if_neg hlt]
    constructor
    · intro he
      split at he
      · -- the sign-extended mask has more than one bit
        have hmask := congrArg UInt64.toNat (Option.some.inj he)
        rw [toNat_bit hb] at hmask
        have h31 : (2 ^ b).testBit 31 = true := by
          rw [← hmask]
          decide
        have h32 : (2 ^ b).testBit 32 = true := by
          rw [← hmask]
          decide
        rw [Nat.testBit_two_pow] at h31 h32
        simp only [decide_eq_true_eq] at h31 h32
        omega
      · cases he
    · rintro ⟨he, hle⟩
      omega

/-- A processor of the topology is pinned to itself exactly when its bit is its core's number. -/
theorem pinned_iff_bit (h : NativeRecord.WellFormed records)
    (hp : p ∈ topologyProc sys affinity records) :
    setCurrentThreadProcessorID p.coreID = some p.affinityMask.mask ↔
      ∃ c, c ≤ 30 ∧ ∃ hc : c < (cores records).length,
        (cores records)[c].Contains p ∧ p.affinityMask.mask = bit c := by
  obtain ⟨r, hr, -, -, hrp, -, hid, -⟩ := mem_topologyProc h hp
  obtain ⟨group, b, hl, he⟩ := hrp
  have hindex := h.cores.toNat_idOf hr
  rw [he, setCurrentThreadProcessorID_eq_bit hl.lt, hid, hindex]
  constructor
  · rintro ⟨heq, hle⟩
    have hc := index_lt hr
    have hget : (cores records)[index (cores records) r] = r := by
      apply h.cores.index_inj (List.getElem_mem hc) hr
      exact h.cores.index_getElem hc
    subst heq
    exact ⟨_, hle, hc, hget.symm ▸ ⟨group, _, hl, he⟩, rfl⟩
  · rintro ⟨c, hle, hc, hcontains, hmask⟩
    obtain rfl := bit_inj hl.lt (by omega) hmask
    have hget := h.cores.contains_unique hr (List.getElem_mem hc) ⟨group, b, hl, he⟩ hcontains
    refine ⟨?_, hle⟩
    rw [hget, h.cores.index_getElem hc]

/-- In a single group the mask word alone tells processors apart. -/
theorem affinityMask_of_oneGroup (h : NativeRecord.WellFormed records) (hg : OneGroup records)
    (hp : p ∈ topologyProc sys affinity records) (hq : q ∈ topologyProc sys affinity records)
    (he : p.affinityMask.mask = q.affinityMask.mask) : p = q := by
  obtain ⟨group, hgroup⟩ := hg
  have hone : ∀ {p}, p ∈ topologyProc sys affinity records → p.affinityMask.group = group := by
    intro p hp
    obtain ⟨r, hr, -, -, hrp, -⟩ := mem_topologyProc h hp
    obtain ⟨g, b, ⟨e, hmem, rfl, -⟩, hm⟩ := hrp
    rw [hm]
    exact hgroup r hr e hmem
  have hmask : p.affinityMask = q.affinityMask := by
    have hgp := (hone hp).trans (hone hq).symm
    cases hpm : p.affinityMask
    cases hqm : q.affinityMask
    simp_all
  have hnodup := (exact_topology sys affinity h).nodup
  exact List.inj_on_of_nodup_map hnodup hp hq hmask

/-- Threads pinned to their processors share neither processors nor, for the channels, cores. -/
theorem pinnedAsAllocated_of_pinned (h : NativeRecord.WellFormed records) (hg : OneGroup records)
    (ha : a.Exclusive (topology sys affinity records))
    (harm : arm.measurement.Sublist a.channelCores)
    (hsub : (arm.measurement ++ arm.stress).Subperm (a.channelCores ++ a.stressThreads))
    (hpin : ∀ p ∈ arm.measurement ++ arm.stress,
      setCurrentThreadProcessorID p.coreID = some p.affinityMask.mask) :
    PinnedAsAllocated (topology sys affinity records) arm := by
  have hmem : ∀ p ∈ arm.measurement ++ arm.stress, p ∈ topologyProc sys affinity records :=
    fun p hp => ha.mem p (hsub.subset hp)
  have hnodup : (arm.measurement ++ arm.stress).Nodup := by
    obtain ⟨l, hperm, hl⟩ := hsub
    exact hperm.nodup_iff.mp (ha.threads.of_map.sublist hl)
  refine ⟨fun p hp => hpin p (by simp [hp]), fun p hp => hpin p (by simp [hp]), ?_, ?_⟩
  · change (arm.measurement.map (fun p => setCurrentThreadProcessorID p.coreID) ++
      arm.stress.map (fun p => setCurrentThreadProcessorID p.coreID)).Nodup
    rw [← List.map_append]
    apply List.Nodup.map_on _ hnodup
    intro p hp q hq he
    rw [hpin p hp, hpin q hq] at he
    exact affinityMask_of_oneGroup h hg (hmem p hp) (hmem q hq) (Option.some.inj he)
  · have hcores := (List.pairwise_map.mp ha.cores).sublist harm
    apply hcores.imp_of_mem
    intro p q hp hq hne p' hp' q' hq' hep heq
    have hp : p ∈ arm.measurement ++ arm.stress := by simp [hp]
    have hq : q ∈ arm.measurement ++ arm.stress := by simp [hq]
    have hpp : p = p' := affinityMask_of_oneGroup h hg (hmem p hp) hp'
      (Option.some.inj ((hpin p hp).symm.trans hep))
    have hqq : q = q' := affinityMask_of_oneGroup h hg (hmem q hq) hq'
      (Option.some.inj ((hpin q hq).symm.trans heq))
    rwa [← hpp, ← hqq]

/-- Core records that list one processor each, in the order of the bits, as without SMT. -/
def SingleThreaded (records : List NativeRecord) : Prop :=
  (cores records).length ≤ 31 ∧ ∀ c (hc : c < (cores records).length) group b,
    (cores records)[c].Lists group b → b = c

/-- On such a machine every arm is aligned. -/
theorem SingleThreaded.aligned (h : NativeRecord.WellFormed records)
    (hs : SingleThreaded records)
    (hmem : ∀ p ∈ arm.measurement ++ arm.stress, p ∈ topologyProc sys affinity records) :
    Aligned records arm := by
  obtain ⟨hlen, hbits⟩ := hs
  intro p hp
  obtain ⟨r, hr, -, -, ⟨group, b, hl, he⟩, -⟩ := mem_topologyProc h (hmem p hp)
  obtain ⟨c, hc, rfl⟩ := List.mem_iff_getElem.mp hr
  obtain rfl := hbits c hc group b hl
  exact ⟨b, by omega, hc, ⟨group, b, hl, he⟩, by rw [he]⟩

/-- Over every machine of one group, every allocation and every arm: the threads run where they
were told to exactly when bits and core numbers agree. -/
theorem pinnedAsAllocated_iff {buffer : NativeBuffer}
    {cfg₀ cfg : ProcessorConfigurationVector GroupAffinity} {fuel numChannels nStress : ℕ}
    {main : Begin} {channels stress : List Begin}
    (h : NativeRecord.WellFormed records) (hg : OneGroup records)
    (hb : sys.getProcessorNativeConfiguration = some buffer)
    (haff : sys.processAffinityMask = some affinity) (hh : buffer.Holds 0 records)
    (hf : records.length < fuel) (hparse : cfg₀.initializeCurrent sys fuel = some (true, cfg))
    (ha : allocate main channels stress (initial cfg) = .ok (some a))
    (harm : runArm numChannels nStress a = some arm) :
    PinnedAsAllocated cfg arm ↔ Aligned records arm := by
  have hresult : cfg₀.initializeCurrent sys fuel = some (true, topology sys affinity records) :=
    processCurrentConfiguration_eq h hb haff hh rfl hf
  obtain rfl : topology sys affinity records = cfg := by
    have he := hresult.symm.trans hparse
    simpa using he
  have hne : cores records ≠ [] := by
    intro hnil
    have hempty : (topology sys affinity records).proc = [] := by
      simp [topology, topologyProc, coreProcs, hnil]
    rw [allocate_of_empty hempty] at ha
    cases ha
  have hw := wellFormed_topology sys affinity h hne
  have hex := exclusive_allocate hw (invariant_initial hw) ha
  obtain ⟨hsublist, hsub⟩ := runArm_subperm harm
  have hmem : ∀ p ∈ arm.measurement ++ arm.stress, p ∈ topologyProc sys affinity records :=
    fun p hp => hex.mem p (hsub.subset hp)
  constructor
  · intro hpin p hp
    apply (pinned_iff_bit h (hmem p hp)).mp
    rcases List.mem_append.mp hp with hm | hs
    · exact hpin.measurement p hm
    · exact hpin.stress p hs
  · intro hal
    exact pinnedAsAllocated_of_pinned h hg hex hsublist hsub
      (fun p hp => (pinned_iff_bit h (hmem p hp)).mpr (hal p hp))

/-- Four cores of two threads each. -/
def fourCores : List NativeRecord :=
  [.ofMasks .processorPackage [⟨0xff, 0⟩], .ofMasks .processorCore [⟨0x3, 0⟩],
    .ofMasks .processorCore [⟨0xc, 0⟩], .ofMasks .processorCore [⟨0x30, 0⟩],
    .ofMasks .processorCore [⟨0xc0, 0⟩]]

theorem fourCores_wellFormed : NativeRecord.WellFormed fourCores :=
  .of_included ⟨by decide, by decide, by decide⟩ ⟨by decide, by decide, by decide⟩
    (by decide) (by decide)

def fourCoresConfiguration : ProcessorConfigurationVector GroupAffinity :=
  topology (.answering fourCores) 0xffffffffffffffff fourCores

theorem initializeCurrent_fourCores :
    ProcessorConfigurationVector.initializeCurrent (.answering fourCores) 6 ⟨[], 0, 0, 0⟩ =
      some (true, fourCoresConfiguration) := by
  rfl

/-- The main thread gets core 3, and the two channels the first threads of cores 2 and 1. -/
def twoChannels : Allocation GroupAffinity where
  mainThreadCoreID := ⟨6, 3, 0, 1, ⟨0x40, 0⟩⟩
  channelCores := [⟨4, 2, 0, 1, ⟨0x10, 0⟩⟩, ⟨2, 1, 0, 1, ⟨0x4, 0⟩⟩]
  stressThreads := []

theorem allocate_fourCores : allocate Begin.largest [Begin.largest, Begin.largest] []
    (initial fourCoresConfiguration) = .ok (some twoChannels) := by
  rfl

theorem pinnedAsAllocated_iff_fourCores :
    PinnedAsAllocated fourCoresConfiguration ⟨twoChannels.channelCores, []⟩ ↔
      Aligned fourCores ⟨twoChannels.channelCores, []⟩ :=
  pinnedAsAllocated_iff fourCores_wellFormed ⟨0, by decide⟩ rfl rfl
    (NativeBuffer.holds_layout (by decide) (by decide)) (by decide) initializeCurrent_fourCores
    allocate_fourCores (rfl : runArm 2 0 twoChannels = some ⟨twoChannels.channelCores, []⟩)

/-- The first channel is told to run on bit 4, but installs the mask of bit 2. -/
theorem not_pinnedAsAllocated : ¬ ∀ (records : List NativeRecord) (sys : NativeSystem)
    (affinity : UInt64) (buffer : NativeBuffer)
    (cfg₀ cfg : ProcessorConfigurationVector GroupAffinity) (fuel numChannels nStress : ℕ)
    (main : Begin) (channels stress : List Begin) (a : Allocation GroupAffinity)
    (arm : Arm GroupAffinity),
    NativeRecord.WellFormed records → OneGroup records →
    sys.getProcessorNativeConfiguration = some buffer → sys.processAffinityMask = some affinity →
    buffer.Holds 0 records → records.length < fuel →
    cfg₀.initializeCurrent sys fuel = some (true, cfg) →
    allocate main channels stress (initial cfg) = .ok (some a) →
    runArm numChannels nStress a = some arm → PinnedAsAllocated cfg arm := by
  intro hall
  have h := hall fourCores (.answering fourCores) 0xffffffffffffffff (.layout fourCores)
    ⟨[], 0, 0, 0⟩ fourCoresConfiguration 6 2 0 Begin.largest [Begin.largest, Begin.largest] []
    twoChannels ⟨twoChannels.channelCores, []⟩ fourCores_wellFormed ⟨0, by decide⟩ rfl rfl
    (NativeBuffer.holds_layout (by decide) (by decide)) (by decide) initializeCurrent_fourCores
    allocate_fourCores rfl
  have hfirst := h.measurement ⟨4, 2, 0, 1, ⟨0x10, 0⟩⟩ (by decide)
  exact absurd hfirst (by decide)

end Tailslayer.Benchmark
