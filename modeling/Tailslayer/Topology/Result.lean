import Tailslayer.Foundations.Passes
import Tailslayer.Topology.Partition
import Tailslayer.Topology.Scan

/-! What the parser computes from a well-formed buffer, in closed form. -/
namespace Tailslayer

open NativeRecord WordBits

namespace NativeRecord

variable {r : NativeRecord} {rs : List NativeRecord}

/-- The ids the first loop gives to records of one kind. -/
def ids (rs : List NativeRecord) : Enrollment GroupPair :=
  (rs.map (NativeRecord.key · 0)).foldl Enrollment.enroll .start

def idOf (rs : List NativeRecord) (r : NativeRecord) : UInt32 := (ids rs).id (r.key 0)

theorem Partition.next_ids (h : Partition rs) : (ids rs).next = UInt32.ofNat rs.length := by
  rw [ids, Enrollment.next_enroll_all h.nodup_keys, List.length_map]

theorem Partition.toNat_idOf (h : Partition rs) (hr : r ∈ rs) :
    (idOf rs r).toNat = index rs r := by
  have hi := index_lt hr
  have hlen := h.length_le
  rw [idOf, ids, Enrollment.id_enroll_all h.nodup_keys (List.mem_map_of_mem hr)]
  simp only [UInt32.toNat_ofNat']
  exact Nat.mod_eq_of_lt (by change index rs r < _; omega)

end NativeRecord

theorem foldl_pkgID {ι : Type} (f : ι → GroupAffinity → UInt16 → UInt16) (xs : List ι)
    (lp : LogicalProcessor GroupAffinity) :
    xs.foldl (fun lp x => { lp with pkgID := f x lp.affinityMask lp.pkgID }) lp =
      { lp with pkgID := xs.foldl (fun v x => f x lp.affinityMask v) lp.pkgID } := by
  induction xs generalizing lp with
  | nil => rfl
  | cons x xs ih => rw [List.foldl_cons, ih, List.foldl_cons]

theorem assignPackage_eq (pkgID : UInt32) (r : NativeRecord)
    (lp : LogicalProcessor GroupAffinity) :
    assignPackage pkgID r lp =
      { lp with pkgID := if r.Covers lp.affinityMask then pkgID.toUInt16 else lp.pkgID } := by
  have hw : (List.range r.groupCount.toNat).foldl (fun v g =>
      if (r.key g).Overlaps lp.affinityMask then pkgID.toUInt16 else v) lp.pkgID =
      if r.Covers lp.affinityMask then pkgID.toUInt16 else lp.pkgID :=
    List.foldl_overwrite (fun _ _ _ => rfl) lp.pkgID
  rw [assignPackage, foldl_pkgID (fun g mask v =>
    if (r.key g).Overlaps mask then pkgID.toUInt16 else v), hw]

/-- A processor after the package pass. -/
def assignPackages (ps : List NativeRecord) (lp : LogicalProcessor GroupAffinity) :
    LogicalProcessor GroupAffinity :=
  ps.foldl (fun lp r => assignPackage (idOf ps r) r lp) lp

theorem assignPackages_eq {ps : List NativeRecord} {r : NativeRecord}
    {lp : LogicalProcessor GroupAffinity} (h : Partition ps) (hr : r ∈ ps) (hp : r.Contains lp) :
    assignPackages ps lp = { lp with pkgID := (idOf ps r).toUInt16 } := by
  have hw : ps.foldl (fun v r =>
      if r.Covers lp.affinityMask then (idOf ps r).toUInt16 else v) lp.pkgID =
      if ∃ k ∈ ps, k.Covers lp.affinityMask then (idOf ps r).toUInt16 else lp.pkgID :=
    List.foldl_overwrite (fun k hk hc => by rw [h.contains_of_covers hr hk hp hc]) lp.pkgID
  simp only [assignPackages, assignPackage_eq]
  rw [foldl_pkgID (fun (r : NativeRecord) mask v =>
    if r.Covers mask then (idOf ps r).toUInt16 else v), hw, if_pos ⟨r, hr, covers_of_contains hp⟩]

/-! The result in closed form. -/

section Result

variable (sys : NativeSystem) (affinity : UInt64) (records : List NativeRecord)

/-- The processors after the core pass. -/
def coreProcs : List (LogicalProcessor GroupAffinity) :=
  (cores records).flatMap (fun r => coreProcessors sys affinity (idOf (cores records) r) r)

def topologyProc : List (LogicalProcessor GroupAffinity) :=
  ((coreProcs sys affinity records).map (assignPackages (packages records))).mapIdx
    (fun i lp => { lp with globalID := UInt32.ofNat i })

def topology : ProcessorConfigurationVector GroupAffinity where
  proc := topologyProc sys affinity records
  threadCount := UInt32.ofNat (topologyProc sys affinity records).length
  physicalCoreCount := UInt32.ofNat (cores records).length
  corePackageCount := (UInt32.ofNat (packages records).length).toUInt16

end Result

variable {sys : NativeSystem} {affinity : UInt64} {records : List NativeRecord}
  {buffer : NativeBuffer} {cfg : ProcessorConfigurationVector GroupAffinity}
  {p q : LogicalProcessor GroupAffinity} {fuel : ℕ}

variable (sys affinity) in
theorem corePass {s : RecordScan} (ho : s.coreInfoOffset.map buffer.read = cores records)
    (hm : s.coreMap = ids (cores records)) :
    s.coreInfoOffset.flatMap (fun offset => coreProcessors sys affinity
        (s.coreMap.id ((buffer.read offset).key 0)) (buffer.read offset)) =
      coreProcs sys affinity records := by
  rw [coreProcs, ← ho, List.flatMap_map, hm, ho]
  rfl

theorem packagePass {s : RecordScan} (ho : s.pkgInfoOffset.map buffer.read = packages records)
    (hm : s.packageMap = ids (packages records)) (proc : List (LogicalProcessor GroupAffinity)) :
    s.pkgInfoOffset.foldl (fun proc offset => proc.map (assignPackage
        (s.packageMap.id ((buffer.read offset).key 0)) (buffer.read offset))) proc =
      proc.map (assignPackages (packages records)) := by
  rw [List.foldl_map_comm]
  apply List.map_congr_left
  intro lp _
  rw [assignPackages, ← ho, List.foldl_map, hm, ho]
  rfl

/-- What the parser computes, starting from no processors. -/
theorem processCurrentConfiguration_eq (h : NativeRecord.WellFormed records)
    (hb : sys.getProcessorNativeConfiguration = some buffer)
    (ha : sys.processAffinityMask = some affinity) (hh : buffer.Holds 0 records)
    (hc : cfg.proc = []) (hf : records.length < fuel) :
    cfg.processCurrentConfiguration sys fuel = some (true, topology sys affinity records) := by
  have hrun := RecordScan.run_of_holds (s := .start) hh rfl hf
  obtain ⟨hcoreOff, hpkgOff⟩ := RecordScan.read_offsets (s := .start) hh rfl
  obtain ⟨hcoreMap, hpkgMap⟩ := RecordScan.foldl_maps records .start
  generalize records.foldl RecordScan.record .start = s at *
  have hproc := corePass sys affinity hcoreOff hcoreMap
  have hpkg := packagePass hpkgOff hpkgMap (coreProcs sys affinity records)
  have hcount : s.coreMap.next = UInt32.ofNat (cores records).length := by
    rw [hcoreMap]
    exact h.cores.next_ids
  have hpkgCount : s.packageMap.next = UInt32.ofNat (packages records).length := by
    rw [hpkgMap]
    exact h.packages.next_ids
  simp only [NativeBuffer.read] at hproc hpkg
  simp only [ProcessorConfigurationVector.processCurrentConfiguration, hb, ha, hrun, hc,
    List.nil_append, Option.bind_eq_bind, Option.bind_some, hproc, hpkg, hcount, hpkgCount]
  rfl

/-! The processors of the result. -/

theorem affinityMask_coreProcessors {coreID : UInt32} {r : NativeRecord} :
    (coreProcessors sys affinity coreID r).map LogicalProcessor.affinityMask =
      r.entries.flatMap GroupAffinity.processors := by
  simp only [coreProcessors, entries, List.map_flatMap, List.flatMap_map, List.map_map]
  rfl

variable (sys affinity records) in
theorem affinityMask_coreProcs :
    (coreProcs sys affinity records).map LogicalProcessor.affinityMask =
      ((cores records).flatMap entries).flatMap GroupAffinity.processors := by
  simp only [coreProcs, List.map_flatMap, affinityMask_coreProcessors, List.flatMap_assoc]

theorem contains_coreProcessors {coreID : UInt32} {r : NativeRecord}
    (hp : p ∈ coreProcessors sys affinity coreID r) : r.Contains p ∧ p.coreID = coreID := by
  simp only [coreProcessors, List.mem_flatMap, List.mem_map, List.mem_range] at hp
  obtain ⟨g, hg, b, hb, rfl⟩ := hp
  exact ⟨⟨_, b, ⟨r.groupMask g, mem_entries.mpr ⟨g, hg, rfl⟩, rfl, mem_bits.mp hb⟩, rfl⟩, rfl⟩

theorem mem_coreProcs (hp : p ∈ coreProcs sys affinity records) :
    ∃ r ∈ cores records, r.Contains p ∧ p.coreID = idOf (cores records) r := by
  obtain ⟨r, hr, hp⟩ := List.mem_flatMap.mp hp
  exact ⟨r, hr, contains_coreProcessors hp⟩

theorem NativeRecord.WellFormed.package_of_core (h : NativeRecord.WellFormed records)
    {r : NativeRecord} (hr : r ∈ NativeRecord.cores records) (hp : r.Contains p) :
    ∃ k ∈ NativeRecord.packages records, k.Contains p := by
  obtain ⟨k, hk, hsub⟩ := h.corePackage r hr
  exact ⟨k, hk, hp.mono hsub⟩

/-- Every entry comes from a core and a package record, and carries their ids. -/
theorem mem_topologyProc (h : NativeRecord.WellFormed records)
    (hp : p ∈ topologyProc sys affinity records) :
    ∃ r ∈ cores records, ∃ k ∈ packages records, r.Contains p ∧ k.Contains p ∧
      p.coreID = idOf (cores records) r ∧ p.pkgID = (idOf (packages records) k).toUInt16 := by
  obtain ⟨i, hi, rfl⟩ := List.mem_mapIdx.mp hp
  simp only [List.getElem_map]
  rw [List.length_map] at hi
  obtain ⟨r, hr, hc, hid⟩ := mem_coreProcs (List.getElem_mem hi)
  obtain ⟨k, hk, hkc⟩ := h.package_of_core hr hc
  rw [assignPackages_eq h.packages hk hkc]
  exact ⟨r, hr, k, hk, hc, hkc, hid, rfl⟩

theorem assignPackages_pkgID (ps : List NativeRecord) (lp : LogicalProcessor GroupAffinity) :
    ∃ pkgID, assignPackages ps lp = { lp with pkgID } := by
  refine ⟨ps.foldl (fun v r =>
    if r.Covers lp.affinityMask then (idOf ps r).toUInt16 else v) lp.pkgID, ?_⟩
  simp only [assignPackages, assignPackage_eq]
  rw [foldl_pkgID (fun (r : NativeRecord) mask v =>
    if r.Covers mask then (idOf ps r).toUInt16 else v)]

/-- The passes after the core pass set package and global numbers only. -/
theorem map_topologyProc {β : Type} {f : LogicalProcessor GroupAffinity → β}
    (hf : ∀ lp globalID pkgID, f { lp with globalID, pkgID } = f lp) :
    (topologyProc sys affinity records).map f = (coreProcs sys affinity records).map f := by
  apply List.ext_getElem
  · simp [topologyProc]
  · intro i _ hi
    have hi : i < (coreProcs sys affinity records).length := by simpa using hi
    simp only [topologyProc, List.getElem_map, List.getElem_mapIdx]
    obtain ⟨pkgID, he⟩ := assignPackages_pkgID (packages records)
      (coreProcs sys affinity records)[i]
    rw [he]
    exact hf (coreProcs sys affinity records)[i] _ pkgID

theorem affinityMask_topologyProc :
    (topologyProc sys affinity records).map LogicalProcessor.affinityMask =
      ((cores records).flatMap entries).flatMap GroupAffinity.processors := by
  rw [map_topologyProc (fun _ _ _ => rfl), affinityMask_coreProcs]

end Tailslayer
