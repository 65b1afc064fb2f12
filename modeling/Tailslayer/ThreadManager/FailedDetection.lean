import Tailslayer.ThreadManager.Initialization

/-! What a detection that returns false leaves behind, and whether the manager can still be
initialized. -/
namespace Tailslayer

variable {Mask : Type}

/-- `data().empty()`, and what the count accessors report then. -/
structure ProcessorConfigurationVector.Empty (cfg : ProcessorConfigurationVector Mask) : Prop where
  data : cfg.proc = []
  physicalCoreCount : cfg.physicalCoreCount' = 0xffffffff
  logicalCoreCount : cfg.logicalCoreCount = 0xffffffff
  packageCount : cfg.packageCount = 0xffffffff

theorem ProcessorConfigurationVector.empty_iff {cfg : ProcessorConfigurationVector Mask} :
    cfg.Empty ↔ cfg.proc = [] := by
  constructor
  · exact Empty.data
  · intro h
    exact ⟨h, by rw [physicalCoreCount', if_pos h], by rw [logicalCoreCount, if_pos h],
      by rw [packageCount, if_pos h]⟩

/-- The detection ends at a processor after the first: the ones before it have been appended. -/
def Linux.System.FailsMidway (sys : Linux.System) : Prop :=
  0 < sys.numProcessors ∧ sys.allowedMask ≠ none ∧ sys.Readable 0 ∧
    ∃ i < sys.rounds, ¬ sys.Readable i

/-- On Windows the queries come before the first entry. -/
def HostSystem.FailsMidway : HostSystem Mask → Prop
  | windows _ => False
  | linux sys => sys.FailsMidway

namespace DynamicThreadManager

/-- Where `m_map.initialize()` returns false it leaves an empty configuration; the manager's
`initialize()` then fails, and initializing it from any configuration works. -/
structure FailsCleanly (s : DynamicThreadManager Mask)
    (detected : Bool × ProcessorConfigurationVector Mask) : Prop where
  empty : detected.1 = false → detected.2.Empty
  fails : detected.1 = false → (s.initializeDetected detected).1 = false
  retry : detected.1 = false → ∀ cfg,
    ((s.initializeDetected detected).2.initializeFrom cfg).1 = true

variable {s : DynamicThreadManager Mask} {detected : Bool × ProcessorConfigurationVector Mask}

theorem initializeDetected_failed (hs : s.map.proc = []) (h : detected.1 = false) :
    s.initializeDetected detected = (false, { s with map := detected.2 }) := by
  simp [initializeDetected, hs, h]

/-- Everything depends on the processors that the failed detection leaves. -/
theorem failsCleanly_iff (hs : s.map.proc = []) :
    s.FailsCleanly detected ↔ (detected.1 = false → detected.2.proc = []) := by
  constructor
  · intro h hfailed
    exact (h.empty hfailed).data
  · intro h
    refine ⟨fun hfailed => ProcessorConfigurationVector.empty_iff.mpr (h hfailed), ?_, ?_⟩
    · intro hfailed
      rw [initializeDetected_failed hs hfailed]
    · intro hfailed cfg
      rw [initializeDetected_failed hs hfailed, initializeFrom_fst]
      exact h hfailed

end DynamicThreadManager

theorem ProcessorConfigurationVector.proc_of_failed {sys : NativeSystem} {fuel : ℕ}
    {cfg : ProcessorConfigurationVector GroupAffinity}
    {detected : Bool × ProcessorConfigurationVector GroupAffinity}
    (h : initializeCurrent sys fuel cfg = some detected) (hfailed : detected.1 = false) :
    detected.2.proc = [] := by
  rcases initializeCurrent_cases h with ⟨-, rfl⟩ | ⟨-, htrue⟩
  · rfl
  · rw [htrue] at hfailed
    cases hfailed

namespace Linux

variable {sys : System} {allowedMask : CpuSet} {cfg : ProcessorConfigurationVector CpuSet}

/-- A failed detection is one that has not started or one that ends midway. -/
theorem initializeCurrent_fst (sys : System) (cfg : ProcessorConfigurationVector CpuSet) :
    (initializeCurrent sys cfg).1 = false ↔ sys.Unstarted ∨ sys.FailsMidway := by
  unfold initializeCurrent processCurrentConfiguration System.Unstarted System.FailsMidway
  split
  · next hnone => simp [hnone]
  · next hpos =>
    have hlt : 0 < sys.numProcessors := Int32.not_le.mp hpos
    have hrounds : 0 < sys.rounds := by
      have htoInt : 0 < sys.numProcessors.toInt := Int32.lt_iff_toInt_lt.mp hlt
      unfold System.rounds
      omega
    split
    · next hmask => simp [hmask]
    · next allowedMask hmask =>
      have hfalse : (readProcessors sys allowedMask (List.range sys.rounds) []).1 = false ↔
          ∃ i < sys.rounds, ¬ sys.Readable i := by
        rw [readProcessors_eq]
        simp
      simp only [hfalse, hpos, hlt, hmask, false_or, true_and, ne_eq, reduceCtorEq,
        not_false_eq_true]
      constructor
      · rintro ⟨i, hi, hunread⟩
        by_cases h0 : sys.Readable 0
        · exact Or.inr ⟨h0, i, hi, hunread⟩
        · exact Or.inl h0
      · rintro (h0 | ⟨-, hmid⟩)
        · exact ⟨0, hrounds, h0⟩
        · exact hmid

theorem not_unstarted_of_failsMidway (h : sys.FailsMidway) : ¬ sys.Unstarted := by
  obtain ⟨hpos, hmask, h0, -⟩ := h
  rintro (hnone | hnone | hunread)
  · exact Int32.not_le.mpr hpos hnone
  · exact hmask hnone
  · exact hunread h0

theorem proc_of_failed_iff (sys : System) (cfg : ProcessorConfigurationVector CpuSet) :
    ((initializeCurrent sys cfg).1 = false → (initializeCurrent sys cfg).2.proc = []) ↔
      ¬ sys.FailsMidway := by
  constructor
  · intro h hmid
    have hfailed := (initializeCurrent_fst sys cfg).mpr (Or.inr hmid)
    exact not_unstarted_of_failsMidway hmid
      ((initializeCurrent_failed sys cfg).mp ⟨hfailed, h hfailed⟩)
  · intro hmid hfailed
    rcases (initializeCurrent_fst sys cfg).mp hfailed with hun | h
    · exact ((initializeCurrent_failed sys cfg).mpr hun).2
    · exact absurd h hmid

end Linux

namespace DynamicThreadManager

/-- For every answer of either system: a failed detection leaves nothing behind unless it is one
of Linux that ends after the first processor. -/
theorem failsCleanly_initialize_iff {s : DynamicThreadManager Mask} (hs : s.map.proc = [])
    (os : HostSystem Mask) (fuel : ℕ) {detected : Bool × ProcessorConfigurationVector Mask}
    (hdetected : os.initializeCurrent fuel s.map = some detected) :
    s.FailsCleanly detected ↔ ¬ os.FailsMidway := by
  rw [failsCleanly_iff hs]
  cases os with
  | windows sys =>
    exact iff_of_true (ProcessorConfigurationVector.proc_of_failed hdetected) not_false
  | linux sys =>
    obtain rfl := Option.some.inj hdetected
    exact Linux.proc_of_failed_iff sys s.map

end DynamicThreadManager

/-- The core number of the second processor is not a number. -/
def Linux.secondMalformed : Linux.System where
  numProcessors := 2
  allowedMask := some 3
  coreIDFile := fun i => if i = 0 then some [48, 10] else some [120, 10]
  packageIDFile := fun _ => some [48, 10]

theorem Linux.failsMidway_secondMalformed : secondMalformed.FailsMidway :=
  ⟨by decide, by decide, by decide, 1, by decide, by decide⟩

namespace DynamicThreadManager

theorem failsCleanly_initialize_iff_machines :
    ((fresh 0 0).FailsCleanly (true, twoGroupsTopology) ↔
      ¬ (HostSystem.windows (.answering twoGroups)).FailsMidway) ∧
    ((fresh 0 0).FailsCleanly (Linux.initializeCurrent Linux.secondMalformed ⟨[], 0, 0, 0⟩) ↔
      ¬ (HostSystem.linux Linux.secondMalformed).FailsMidway) :=
  ⟨failsCleanly_initialize_iff rfl (.windows _) 6 (initializeCurrent_twoGroups _),
    failsCleanly_initialize_iff rfl (.linux _) 0 rfl⟩

/-- The entry of the first processor stays. -/
theorem not_failsCleanly : ¬ ∀ (s : DynamicThreadManager Linux.CpuSet) (sys : Linux.System),
    s.map.proc = [] → s.FailsCleanly (Linux.initializeCurrent sys s.map) := by
  intro hall
  have h := hall (fresh 0 0) Linux.secondMalformed rfl
  rw [failsCleanly_iff rfl, Linux.proc_of_failed_iff] at h
  exact h Linux.failsMidway_secondMalformed

end DynamicThreadManager

end Tailslayer
