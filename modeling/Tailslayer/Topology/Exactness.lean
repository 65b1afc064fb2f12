import Tailslayer.ThreadManager.Configuration
import Tailslayer.Topology.Result

/-! The parser turns a well-formed buffer into exactly the topology its records describe. -/
namespace Tailslayer

open NativeRecord WordBits

/-- The topology says about the processors what the records say, and nothing else. -/
structure Exact (records : List NativeRecord) (cfg : ProcessorConfigurationVector GroupAffinity) :
    Prop where
  nodup : (cfg.proc.map LogicalProcessor.affinityMask).Nodup
  listed : ∀ mask, mask ∈ cfg.proc.map LogicalProcessor.affinityMask ↔
    ∃ r ∈ cores records, ∃ group b, r.Lists group b ∧ mask = ⟨bit b, group⟩
  coreID : ∀ p ∈ cfg.proc, ∀ q ∈ cfg.proc,
    p.coreID = q.coreID ↔ ∃ r ∈ cores records, r.Contains p ∧ r.Contains q
  pkgID : ∀ p ∈ cfg.proc, ∀ q ∈ cfg.proc,
    p.pkgID = q.pkgID ↔ ∃ r ∈ packages records, r.Contains p ∧ r.Contains q
  uniqueCoreID : ∀ p ∈ cfg.proc, ∀ q ∈ cfg.proc,
    p.uniqueCoreID = q.uniqueCoreID ↔ ∃ r ∈ cores records, r.Contains p ∧ r.Contains q
  globalID : ∀ i (h : i < cfg.proc.length), cfg.proc[i].globalID.toNat = i
  threadCount : cfg.threadCount.toNat = cfg.proc.length
  physicalCoreCount : cfg.physicalCoreCount.toNat = (cores records).length
  corePackageCount : cfg.corePackageCount.toNat = (packages records).length

variable {sys : NativeSystem} {affinity : UInt64} {records : List NativeRecord}
  {buffer : NativeBuffer} {cfg : ProcessorConfigurationVector GroupAffinity}
  {p q : LogicalProcessor GroupAffinity} {fuel : ℕ}

variable (sys affinity) in
theorem length_topologyProc (h : NativeRecord.WellFormed records) :
    (topologyProc sys affinity records).length ≤ 2 ^ 22 := by
  have hlen : ((topologyProc sys affinity records).map LogicalProcessor.affinityMask).length = _ :=
    congrArg List.length affinityMask_topologyProc
  rw [List.length_map] at hlen
  rw [hlen]
  exact h.cores.length_processors_le

theorem toNat_ofNat_of_le {n : ℕ} (h : n ≤ 2 ^ 22) : (UInt32.ofNat n).toNat = n := by
  simp only [UInt32.toNat_ofNat']
  exact Nat.mod_eq_of_lt (by omega)

/-- Ids that tell the records apart agree exactly for processors of one record. -/
theorem NativeRecord.Partition.same_iff {rs : List NativeRecord} (h : Partition rs)
    {r r' : NativeRecord} (hr : r ∈ rs) (hr' : r' ∈ rs) (hp : r.Contains p)
    (hq : r'.Contains q) : r = r' ↔ ∃ k ∈ rs, k.Contains p ∧ k.Contains q := by
  constructor
  · rintro rfl
    exact ⟨r, hr, hp, hq⟩
  · rintro ⟨k, hk, hkp, hkq⟩
    exact (h.contains_unique hr hk hp hkp).trans (h.contains_unique hk hr' hkq hq)

theorem NativeRecord.WellFormed.toNat_pkgID (h : NativeRecord.WellFormed records)
    {r : NativeRecord} (hr : r ∈ NativeRecord.packages records) :
    (idOf (NativeRecord.packages records) r).toUInt16.toNat =
      index (NativeRecord.packages records) r := by
  have hlt := h.packageCount
  have hi := index_lt hr
  rw [UInt32.toNat_toUInt16, h.packages.toNat_idOf hr]
  exact Nat.mod_eq_of_lt (by omega)

theorem coreID_iff (h : NativeRecord.WellFormed records)
    (hp : p ∈ topologyProc sys affinity records) (hq : q ∈ topologyProc sys affinity records) :
    p.coreID = q.coreID ↔ ∃ r ∈ cores records, r.Contains p ∧ r.Contains q := by
  obtain ⟨r, hr, -, -, hrp, -, hid, -⟩ := mem_topologyProc h hp
  obtain ⟨r', hr', -, -, hrq, -, hid', -⟩ := mem_topologyProc h hq
  rw [← h.cores.same_iff hr hr' hrp hrq, hid, hid']
  constructor
  · intro he
    apply h.cores.index_inj hr hr'
    rw [← h.cores.toNat_idOf hr, ← h.cores.toNat_idOf hr', he]
  · rintro rfl
    rfl

theorem pkgID_iff (h : NativeRecord.WellFormed records)
    (hp : p ∈ topologyProc sys affinity records) (hq : q ∈ topologyProc sys affinity records) :
    p.pkgID = q.pkgID ↔ ∃ k ∈ packages records, k.Contains p ∧ k.Contains q := by
  obtain ⟨-, -, k, hk, -, hkp, -, hid⟩ := mem_topologyProc h hp
  obtain ⟨-, -, k', hk', -, hkq, -, hid'⟩ := mem_topologyProc h hq
  rw [← h.packages.same_iff hk hk' hkp hkq, hid, hid']
  constructor
  · intro he
    apply h.packages.index_inj hk hk'
    rw [← h.toNat_pkgID hk, ← h.toNat_pkgID hk', he]
  · rintro rfl
    rfl

/-- Processors of one core are of one package, so the core number alone decides. -/
theorem uniqueCoreID_iff (h : NativeRecord.WellFormed records)
    (hp : p ∈ topologyProc sys affinity records) (hq : q ∈ topologyProc sys affinity records) :
    p.uniqueCoreID = q.uniqueCoreID ↔ p.coreID = q.coreID := by
  rw [LogicalProcessor.uniqueCoreID_inj]
  constructor
  · rintro ⟨hc, -⟩
    exact hc
  · intro hc
    obtain ⟨r, hr, hrp, hrq⟩ := (coreID_iff h hp hq).mp hc
    obtain ⟨k, hk, hsub⟩ := h.corePackage r hr
    exact ⟨hc, (pkgID_iff h hp hq).mpr ⟨k, hk, hrp.mono hsub, hrq.mono hsub⟩⟩

theorem globalID_topologyProc (h : NativeRecord.WellFormed records) (i : ℕ)
    (hi : i < (topologyProc sys affinity records).length) :
    ((topologyProc sys affinity records)[i]).globalID.toNat = i := by
  have hlen := length_topologyProc sys affinity h
  have he : ((topologyProc sys affinity records)[i]).globalID = UInt32.ofNat i := by
    simp [topologyProc]
  rw [he]
  exact toNat_ofNat_of_le (by omega)

variable (sys affinity) in
theorem exact_topology (h : NativeRecord.WellFormed records) :
    Exact records (topology sys affinity records) := by
  have hlen := length_topologyProc sys affinity h
  refine {
    nodup := by
      change ((topologyProc sys affinity records).map _).Nodup
      rw [affinityMask_topologyProc]
      exact h.cores.nodup_processors
    listed := by
      intro mask
      change mask ∈ (topologyProc sys affinity records).map _ ↔ _
      rw [affinityMask_topologyProc, mem_processors]
    coreID := fun p hp q hq => coreID_iff h hp hq
    pkgID := fun p hp q hq => pkgID_iff h hp hq
    uniqueCoreID := fun p hp q hq => (uniqueCoreID_iff h hp hq).trans (coreID_iff h hp hq)
    globalID := fun i hi => globalID_topologyProc h i hi
    threadCount := toNat_ofNat_of_le hlen
    physicalCoreCount := toNat_ofNat_of_le h.cores.length_le
    corePackageCount := ?_ }
  have hlt := h.packageCount
  change (UInt32.ofNat (packages records).length).toUInt16.toNat = _
  rw [UInt32.toNat_toUInt16, toNat_ofNat_of_le (by omega)]
  exact Nat.mod_eq_of_lt (by omega)

variable (sys affinity) in
/-- Every core record contributes a processor. -/
theorem exists_of_core (h : NativeRecord.WellFormed records) {r : NativeRecord}
    (hr : r ∈ cores records) : ∃ p ∈ topologyProc sys affinity records, r.Contains p ∧
      p.coreID = idOf (cores records) r := by
  obtain ⟨group, b, hl⟩ := h.cores.exists_lists hr
  have hm : (⟨bit b, group⟩ : GroupAffinity) ∈
      (topologyProc sys affinity records).map LogicalProcessor.affinityMask := by
    rw [affinityMask_topologyProc, mem_processors]
    exact ⟨r, hr, group, b, hl, rfl⟩
  obtain ⟨p, hp, he⟩ := List.mem_map.mp hm
  obtain ⟨r', hr', -, -, hc, -, hid, -⟩ := mem_topologyProc h hp
  have hrp : r.Contains p := ⟨group, b, hl, he⟩
  obtain rfl := h.cores.contains_unique hr hr' hrp hc
  exact ⟨p, hp, hrp, hid⟩

variable (sys affinity) in
/-- There are as many core keys as core records. -/
theorem card_uniqueCoreID (h : NativeRecord.WellFormed records) :
    ((topologyProc sys affinity records).map LogicalProcessor.uniqueCoreID).toFinset.card =
      (cores records).length := by
  have hlow : ∀ p : LogicalProcessor GroupAffinity,
      p.uniqueCoreID.toNat % 2 ^ 32 = p.coreID.toNat := by
    intro p
    have hlt := p.coreID.toNat_lt
    rw [p.uniqueCoreID_toNat]
    omega
  have himage : ((topologyProc sys affinity records).map
      LogicalProcessor.uniqueCoreID).toFinset.image (fun k => k.toNat % 2 ^ 32) =
      Finset.range (cores records).length := by
    ext c
    simp only [Finset.mem_image, List.mem_toFinset, List.mem_map, Finset.mem_range]
    constructor
    · rintro ⟨_, ⟨p, hp, rfl⟩, rfl⟩
      obtain ⟨r, hr, -, -, -, -, hid, -⟩ := mem_topologyProc h hp
      rw [hlow, hid, h.cores.toNat_idOf hr]
      exact index_lt hr
    · intro hc
      obtain ⟨p, hp, -, hid⟩ := exists_of_core sys affinity h
        (List.getElem_mem hc)
      refine ⟨_, ⟨p, hp, rfl⟩, ?_⟩
      rw [hlow, hid, h.cores.toNat_idOf (List.getElem_mem hc), h.cores.index_getElem hc]
  rw [← Finset.card_range (cores records).length, ← himage]
  refine (Finset.card_image_of_injOn ?_).symm
  intro x hx y hy he
  obtain ⟨p, hp, rfl⟩ := List.mem_map.mp (List.mem_toFinset.mp hx)
  obtain ⟨q, hq, rfl⟩ := List.mem_map.mp (List.mem_toFinset.mp hy)
  apply (uniqueCoreID_iff h hp hq).mpr
  apply UInt32.toNat_inj.mp
  rw [← hlow p, ← hlow q]
  exact he

variable (sys affinity) in
/-- What the thread manager asks of a configuration. -/
theorem wellFormed_topology (h : NativeRecord.WellFormed records) (hne : cores records ≠ []) :
    (topology sys affinity records).WellFormed where
  nonempty := by
    obtain ⟨r, hr⟩ := List.exists_mem_of_ne_nil _ hne
    obtain ⟨p, hp, -⟩ := exists_of_core sys affinity h hr
    exact List.ne_nil_of_mem hp
  globalID := globalID_topologyProc h
  threadCount := toNat_ofNat_of_le (length_topologyProc sys affinity h)
  physicalCoreCount := by
    have hcard := card_uniqueCoreID sys affinity h
    exact (toNat_ofNat_of_le h.cores.length_le).trans hcard.symm

namespace ProcessorConfigurationVector

/-- On a well-formed buffer, with the system calls succeeding and no processors to start from,
the parser succeeds and its topology is exact. -/
theorem processCurrentConfiguration_exact (h : NativeRecord.WellFormed records)
    (hb : sys.getProcessorNativeConfiguration = some buffer)
    (ha : sys.processAffinityMask = some affinity) (hh : buffer.Holds 0 records)
    (hc : cfg.proc = []) (hf : records.length < fuel) :
    ∃ result, cfg.processCurrentConfiguration sys fuel = some (true, result) ∧
      Exact records result :=
  ⟨_, processCurrentConfiguration_eq h hb ha hh hc hf, exact_topology sys affinity h⟩

end ProcessorConfigurationVector

/-! A machine with two processor groups, whose package spans both. -/

def NativeRecord.ofMasks (relationship : Relationship) (masks : List GroupAffinity) :
    NativeRecord where
  relationship := relationship
  size := 80
  groupCount := UInt16.ofNat masks.length
  groupMask := fun g => masks.getD g default

/-- A system whose calls succeed and that answers with the given records. -/
def NativeSystem.answering (records : List NativeRecord) : NativeSystem where
  sizeQueried := false
  insufficientBuffer := true
  bufSizeBytes := UInt32.ofNat (NativeBuffer.totalSize records)
  configuration := some (NativeBuffer.seek records)
  processAffinityMask := some 0xffffffffffffffff
  currentGroup := 0
  processGroups := [0, 1]

def twoGroups : List NativeRecord :=
  [.ofMasks .processorCore [⟨0x5, 0⟩], .ofMasks (.other 2) [⟨0x5, 0⟩],
    .ofMasks .processorPackage [⟨0xf, 0⟩, ⟨0x1, 1⟩], .ofMasks .processorCore [⟨0x1, 1⟩],
    .ofMasks .processorCore [⟨0xa, 0⟩]]

theorem twoGroups_wellFormed : NativeRecord.WellFormed twoGroups :=
  .of_included ⟨by decide, by decide, by decide⟩ ⟨by decide, by decide, by decide⟩
    (by decide) (by decide)

theorem processCurrentConfiguration_exact_twoGroups :
    ∃ result, ProcessorConfigurationVector.processCurrentConfiguration
        (NativeSystem.answering twoGroups) 6 ⟨[], 0, 0, 0⟩ = some (true, result) ∧
      Exact twoGroups result :=
  ProcessorConfigurationVector.processCurrentConfiguration_exact twoGroups_wellFormed
    rfl rfl
    (NativeBuffer.holds_layout (by decide) (by decide)) rfl (by decide)

end Tailslayer
