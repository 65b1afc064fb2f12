import Tailslayer.ThreadManager.Initialization

/-! `getPhysicalCoreThreadAffinity` (`proc.cpp`): the masks of one core, and the early return
when the core's number is beyond the last entry's. -/
namespace Tailslayer

open NativeRecord

variable {Mask : Type}

namespace ProcessorConfigurationVector

def getPhysicalCoreThreadAffinity (cfg : ProcessorConfigurationVector Mask) (coreID : UInt32)
    (threadMasks : List Mask) : List Mask :=
  match cfg.proc.getLast? with
  | none => threadMasks
  | some back =>
    if back.coreID < coreID then threadMasks
    else cfg.proc.foldl (fun threadMasks lp =>
      if coreID ≠ lp.coreID then threadMasks else threadMasks ++ [lp.affinityMask]) threadMasks

/-- All masks of the core are appended, in the order of the entries. -/
def DropsNothing (cfg : ProcessorConfigurationVector Mask) (coreID : UInt32) : Prop :=
  ∀ threadMasks, cfg.getPhysicalCoreThreadAffinity coreID threadMasks =
    threadMasks ++ (cfg.proc.filter (fun lp => lp.coreID = coreID)).map
      LogicalProcessor.affinityMask

theorem foldl_affinityMask (proc : List (LogicalProcessor Mask)) (coreID : UInt32)
    (threadMasks : List Mask) : proc.foldl (fun threadMasks lp =>
      if coreID ≠ lp.coreID then threadMasks else threadMasks ++ [lp.affinityMask]) threadMasks =
      threadMasks ++ (proc.filter (fun lp => lp.coreID = coreID)).map
        LogicalProcessor.affinityMask := by
  induction proc generalizing threadMasks with
  | nil => exact (List.append_nil _).symm
  | cons lp proc ih =>
    rw [List.foldl_cons, ih, List.filter_cons]
    by_cases hid : lp.coreID = coreID
    · simp [hid]
    · simp [hid, Ne.symm hid]

/-- The early return is harmless just when it leaves no entry of the core behind. -/
theorem dropsNothing_iff (cfg : ProcessorConfigurationVector Mask) (coreID : UInt32) :
    cfg.DropsNothing coreID ↔ ∀ p ∈ cfg.proc, p.coreID = coreID →
      ∃ back, cfg.proc.getLast? = some back ∧ coreID ≤ back.coreID := by
  have hfilter : cfg.proc.filter (fun lp => lp.coreID = coreID) = [] ↔
      ∀ p ∈ cfg.proc, p.coreID ≠ coreID := by
    simp [List.filter_eq_nil_iff]
  unfold DropsNothing getPhysicalCoreThreadAffinity
  cases hback : cfg.proc.getLast? with
  | none =>
    have hnil : cfg.proc = [] := List.getLast?_eq_none_iff.mp hback
    simp [hnil]
  | some back =>
    by_cases hlt : back.coreID < coreID
    · have hle : ¬ coreID ≤ back.coreID := UInt32.not_le.mpr hlt
      simp only [hlt, if_true, Option.some.injEq, exists_eq_left', hle]
      constructor
      · intro h
        have hempty := List.self_eq_append_right.mp (h [])
        exact hfilter.mp (List.map_eq_nil_iff.mp hempty)
      · intro h threadMasks
        rw [hfilter.mpr h, List.map_nil, List.append_nil]
    · have hle : coreID ≤ back.coreID := UInt32.not_lt.mp hlt
      simp only [hlt, if_false, foldl_affinityMask, Option.some.injEq, exists_eq_left', hle,
        implies_true]

end ProcessorConfigurationVector

open ProcessorConfigurationVector

/-! Windows numbers the cores in the order of their entries. -/

section Windows

variable {sys : NativeSystem} {affinity : UInt64} {records : List NativeRecord}

variable (sys affinity) in
theorem pairwise_coreID_coreProcs (h : NativeRecord.WellFormed records) :
    (coreProcs sys affinity records).Pairwise (fun p q => p.coreID ≤ q.coreID) := by
  apply List.pairwise_flatMap.mpr
  constructor
  · intro r _
    apply List.pairwise_of_forall_mem_list
    intro p hp q hq
    rw [(contains_coreProcessors hp).2, (contains_coreProcessors hq).2]
    exact UInt32.le_refl _
  · apply List.pairwise_iff_getElem.mpr
    intro i j hi hj hij p hp q hq
    rw [(contains_coreProcessors hp).2, (contains_coreProcessors hq).2, UInt32.le_iff_toNat_le,
      h.cores.toNat_idOf (List.getElem_mem hi), h.cores.toNat_idOf (List.getElem_mem hj),
      h.cores.index_getElem hi, h.cores.index_getElem hj]
    exact hij.le

theorem coreID_le_back (h : NativeRecord.WellFormed records) {p : LogicalProcessor GroupAffinity}
    (hp : p ∈ topologyProc sys affinity records) :
    ∃ back, (topologyProc sys affinity records).getLast? = some back ∧
      p.coreID ≤ back.coreID := by
  have hsorted : (topologyProc sys affinity records).Pairwise
      (fun p q => p.coreID ≤ q.coreID) := by
    have hmap := List.pairwise_map.mpr (pairwise_coreID_coreProcs sys affinity h)
    rw [← map_topologyProc (fun _ _ _ => rfl)] at hmap
    exact List.pairwise_map.mp hmap
  exact ⟨_, List.getLast?_eq_some_getLast _,
    hsorted.rel_getLast_of_rel_getLast_getLast hp (UInt32.le_refl _)⟩

end Windows

/-! Linux copies the numbers from the files. -/

namespace Linux

variable {sys : System} {cfg : ProcessorConfigurationVector CpuSet} {allowedMask : CpuSet}

/-- How many processors the detection reads before it ends. -/
def System.readCount (sys : System) : ℕ :=
  match sys.allowedMask with
  | none => 0
  | some _ => ((List.range sys.rounds).takeWhile (fun i => sys.Readable i)).length

/-- The last processor that is read has at least the number of the core, if any of those has. -/
def System.LastCoreCovers (sys : System) (coreID : UInt32) : Prop :=
  ∀ i < sys.readCount, sys.coreID i = coreID → coreID ≤ sys.coreID (sys.readCount - 1)

/-- Processors are read from the first on, so those that are read are told by their number. -/
theorem takeWhile_range (p : ℕ → Bool) (n : ℕ) :
    (List.range n).takeWhile p = List.range ((List.range n).takeWhile p).length := by
  have hprefix := List.takeWhile_prefix p (l := List.range n)
  have hle := hprefix.length_le
  rw [List.length_range] at hle
  conv_lhs => rw [List.prefix_iff_eq_take.mp hprefix, List.take_range, Nat.min_eq_left hle]

theorem proc_initializeCurrent (sys : System) (cfg : ProcessorConfigurationVector CpuSet) :
    ∃ allowedMask, (initializeCurrent sys cfg).2.proc =
      (List.range sys.readCount).map (sys.processor allowedMask) := by
  unfold initializeCurrent processCurrentConfiguration System.readCount
  split
  · next hnone =>
    have hrounds : sys.rounds = 0 := by
      have hle := Int32.le_iff_toInt_le.mp hnone
      change sys.numProcessors.toInt ≤ 0 at hle
      unfold System.rounds
      omega
    refine ⟨0, ?_⟩
    cases sys.allowedMask <;> simp [hrounds]
  · cases hmask : sys.allowedMask with
    | none => exact ⟨0, rfl⟩
    | some allowedMask =>
      refine ⟨allowedMask, ?_⟩
      change (readProcessors sys allowedMask (List.range sys.rounds) []).2 = _
      rw [readProcessors_eq, List.nil_append, takeWhile_range]
      simp

theorem dropsNothing_initializeCurrent_iff (sys : System)
    (cfg : ProcessorConfigurationVector CpuSet) (coreID : UInt32) :
    (initializeCurrent sys cfg).2.DropsNothing coreID ↔ sys.LastCoreCovers coreID := by
  obtain ⟨allowedMask, hproc⟩ := proc_initializeCurrent sys cfg
  rw [dropsNothing_iff, hproc]
  constructor
  · intro h i hi hid
    obtain ⟨back, hback, hle⟩ := h (sys.processor allowedMask i)
      (List.mem_map_of_mem (List.mem_range.mpr hi)) hid
    have hlast : sys.processor allowedMask (sys.readCount - 1) = back := by
      simpa [List.getLast?_range, Nat.ne_zero_of_lt hi] using hback
    rw [← hlast] at hle
    exact hle
  · intro h p hp hid
    obtain ⟨i, hi, rfl⟩ := List.mem_map.mp hp
    have hlt := List.mem_range.mp hi
    refine ⟨sys.processor allowedMask (sys.readCount - 1), ?_, h i hlt hid⟩
    simp [List.getLast?_range, Nat.ne_zero_of_lt hlt]

end Linux

namespace HostSystem

/-- On Windows the buffer, if there is one, is well-formed; on Linux the files may say anything. -/
def WellFormed (fuel : ℕ) : HostSystem Mask → Prop
  | windows sys => ∀ buffer, sys.getProcessorNativeConfiguration = some buffer →
      ∃ records, NativeRecord.WellFormed records ∧ buffer.Holds 0 records ∧ records.length < fuel
  | linux _ => True

def LastCoreCovers (coreID : UInt32) : HostSystem Mask → Prop
  | windows _ => True
  | linux sys => sys.LastCoreCovers coreID

theorem dropsNothing_windows {sys : NativeSystem} {fuel : ℕ}
    {cfg : ProcessorConfigurationVector GroupAffinity}
    {detected : Bool × ProcessorConfigurationVector GroupAffinity}
    (hw : (windows sys).WellFormed fuel) (h : cfg.initializeCurrent sys fuel = some detected)
    (coreID : UInt32) : detected.2.DropsNothing coreID := by
  rw [dropsNothing_iff]
  intro p hp hid
  by_cases hanswered : sys.Unanswered
  · rw [((ProcessorConfigurationVector.initializeCurrent_failed h).mpr hanswered).2] at hp
    cases hp
  · rw [NativeSystem.Unanswered, not_or] at hanswered
    obtain ⟨buffer, hb⟩ := Option.ne_none_iff_exists'.mp hanswered.1
    obtain ⟨affinity, ha⟩ := Option.ne_none_iff_exists'.mp hanswered.2
    obtain ⟨records, hrecords, hholds, hfuel⟩ := hw buffer hb
    have hresult : cfg.initializeCurrent sys fuel = some (true, topology sys affinity records) :=
      processCurrentConfiguration_eq hrecords hb ha hholds rfl hfuel
    obtain rfl := Option.some.inj (hresult.symm.trans h)
    subst hid
    exact coreID_le_back hrecords hp

/-- For every configuration that the detection can leave: the masks of a core are appended in
full, on Windows always, on Linux when the last entry does not come before the core. -/
theorem getPhysicalCoreThreadAffinity_exact_iff {os : HostSystem Mask} {fuel : ℕ}
    {cfg : ProcessorConfigurationVector Mask}
    {detected : Bool × ProcessorConfigurationVector Mask} (hw : os.WellFormed fuel)
    (h : os.initializeCurrent fuel cfg = some detected) (coreID : UInt32) :
    detected.2.DropsNothing coreID ↔ os.LastCoreCovers coreID := by
  cases os with
  | windows sys => exact iff_of_true (dropsNothing_windows hw h coreID) trivial
  | linux sys =>
    obtain rfl := Option.some.inj h
    exact Linux.dropsNothing_initializeCurrent_iff sys cfg coreID

theorem wellFormed_twoGroups : (windows (.answering twoGroups)).WellFormed 6 := by
  intro buffer hb
  obtain rfl := Option.some.inj hb
  exact ⟨twoGroups, twoGroups_wellFormed, NativeBuffer.holds_layout (by decide) (by decide),
    by decide⟩

open DynamicThreadManager in
/-- A machine of each system, and two of their cores. -/
theorem getPhysicalCoreThreadAffinity_exact_iff_machines :
    (twoGroupsTopology.DropsNothing 1 ↔ (windows (.answering twoGroups)).LastCoreCovers 1) ∧
    ((Linux.initializeCurrent Linux.twoCores ⟨[], 0, 0, 0⟩).2.DropsNothing 0 ↔
      (linux Linux.twoCores).LastCoreCovers 0) := by
  have hwindows : (windows (.answering twoGroups)).initializeCurrent 6 ⟨[], 0, 0, 0⟩ =
      some (true, twoGroupsTopology) := initializeCurrent_twoGroups _
  have hlinux : (linux Linux.twoCores).initializeCurrent 0 ⟨[], 0, 0, 0⟩ =
      some (Linux.initializeCurrent Linux.twoCores ⟨[], 0, 0, 0⟩) := rfl
  have h1 := getPhysicalCoreThreadAffinity_exact_iff wellFormed_twoGroups hwindows 1
  have hany : (linux Linux.twoCores).WellFormed 0 := trivial
  have h0 := getPhysicalCoreThreadAffinity_exact_iff hany hlinux 0
  exact ⟨h1, h0⟩

end HostSystem

/-- The first of two processors is core 1, the second is core 0. -/
def Linux.swappedCores : Linux.System where
  numProcessors := 2
  allowedMask := some 3
  coreIDFile := fun i => some [49 - UInt8.ofNat i, 10]
  packageIDFile := fun _ => some [48, 10]

/-- Core 1 is left out. -/
theorem HostSystem.not_dropsNothing : ¬ ∀ (Mask : Type) (os : HostSystem Mask) fuel cfg detected,
    os.WellFormed fuel → os.initializeCurrent fuel cfg = some detected →
      ∀ coreID, detected.2.DropsNothing coreID := by
  intro hall
  have h := hall _ (linux Linux.swappedCores) 0 ⟨[], 0, 0, 0⟩ _ trivial rfl 1
  have hcovers := (Linux.dropsNothing_initializeCurrent_iff Linux.swappedCores _ 1).mp h
  exact absurd (hcovers 0 (by decide) (by decide)) (by decide)

end Tailslayer
