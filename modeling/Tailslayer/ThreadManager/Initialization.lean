import Tailslayer.Topology.Linux
import Tailslayer.Topology.Exactness

/-! The two ways to initialize a manager: from a given configuration, and from the one detected. -/
namespace Tailslayer

/-- One of the two queries in front of the parser fails. -/
def NativeSystem.Unanswered (sys : NativeSystem) : Prop :=
  sys.getProcessorNativeConfiguration = none ∨ sys.processAffinityMask = none

/-- No processor is read: none is configured, the affinity query fails, or the files of the first
cannot be read. -/
def Linux.System.Unstarted (sys : Linux.System) : Prop :=
  sys.numProcessors ≤ 0 ∨ sys.allowedMask = none ∨ ¬ sys.Readable 0

/-- A system of either kind, with the masks that it counts by. -/
inductive HostSystem : Type → Type
  | windows (sys : NativeSystem) : HostSystem GroupAffinity
  | linux (sys : Linux.System) : HostSystem Linux.CpuSet

namespace HostSystem

variable {Mask : Type}

/-- `m_map.initialize()` -/
def initializeCurrent (fuel : ℕ) (cfg : ProcessorConfigurationVector Mask) :
    HostSystem Mask → Option (Bool × ProcessorConfigurationVector Mask)
  | windows sys => cfg.initializeCurrent sys fuel
  | linux sys => some (Linux.initializeCurrent sys cfg)

/-- The detection fails before it has found a processor. -/
def FailsEarly : HostSystem Mask → Prop
  | windows sys => sys.Unanswered
  | linux sys => sys.Unstarted

end HostSystem

namespace DynamicThreadManager

variable {Mask : Type}

/-- `initialize()`; `detected` is what `m_map.initialize()` returns and leaves. -/
def initializeDetected (s : DynamicThreadManager Mask)
    (detected : Bool × ProcessorConfigurationVector Mask) : Bool × DynamicThreadManager Mask :=
  if s.map.proc ≠ [] then (false, s)
  else
    let s := { s with map := detected.2 }
    if detected.1 = false then (false, s) else s.initializeFrom s.map

def destroy (s : DynamicThreadManager Mask) : DynamicThreadManager Mask where
  map := { s.map with proc := [] }
  coreToThreadMapIdx := ∅
  partiallyFreeCoreMap := ∅
  freeCoreMap := ∅
  freeThreadCount := 0
  freeCoreCount := 0

/-- A fresh or destroyed manager, whatever its counts are. -/
structure Blank (s : DynamicThreadManager Mask) : Prop where
  map : s.map.proc = []
  cores : s.coreToThreadMapIdx = ∅
  partially : s.partiallyFreeCoreMap = ∅
  free : s.freeCoreMap = ∅

/-- A successful detection initializes the manager as its configuration would; after a failed one
the manager can still be initialized from any configuration. -/
structure Agrees (s : DynamicThreadManager Mask)
    (detected : Bool × ProcessorConfigurationVector Mask) : Prop where
  success : detected.1 = true →
    s.initializeDetected detected = (true, (s.initializeFrom detected.2).2)
  failure : detected.1 = false → (s.initializeDetected detected).1 = false ∧
    ∀ cfg, (s.initializeDetected detected).2.initializeFrom cfg =
      (true, (s.initializeFrom cfg).2)

variable {s : DynamicThreadManager Mask} {detected : Bool × ProcessorConfigurationVector Mask}

theorem blank_fresh (threads cores : UInt32) :
    (fresh threads cores : DynamicThreadManager Mask).Blank :=
  ⟨rfl, rfl, rfl, rfl⟩

theorem blank_destroy (s : DynamicThreadManager Mask) : s.destroy.Blank := ⟨rfl, rfl, rfl, rfl⟩

theorem initializeFrom_fst (s : DynamicThreadManager Mask)
    (cfg : ProcessorConfigurationVector Mask) :
    (s.initializeFrom cfg).1 = true ↔ s.map.proc = [] := by
  unfold initializeFrom
  by_cases h : s.map.proc = []
  · simp [h]
  · simp [h]

/-- The guard of the second overload sees the processors that the detection has left. -/
theorem agrees_iff (h : s.Blank) (hne : detected.1 = true → detected.2.proc ≠ []) :
    Agrees s detected ↔ detected.1 = false ∧ detected.2.proc = [] := by
  obtain ⟨good, map⟩ := detected
  have hmap := h.map
  cases good with
  | true =>
    have hne := hne rfl
    apply iff_of_false
    · intro hagrees
      have hfst := congrArg Prod.fst (hagrees.success rfl)
      simp [initializeDetected, hmap, initializeFrom, hne] at hfst
    · exact fun hf => Bool.false_ne_true hf.1.symm
  | false =>
    have hstate : s.initializeDetected (false, map) = (false, { s with map }) := by
      simp [initializeDetected, hmap]
    constructor
    · intro hagrees
      refine ⟨rfl, ?_⟩
      have hlater := congrArg Prod.fst ((hagrees.failure rfl).2 map)
      rw [hstate, initializeFrom_fst] at hlater
      exact hlater
    · rintro ⟨-, hempty⟩
      refine ⟨fun hf => absurd hf Bool.false_ne_true, fun _ => ?_⟩
      rw [hstate]
      refine ⟨rfl, fun cfg => ?_⟩
      have hempty : map.proc = [] := hempty
      simp [initializeFrom, hempty, hmap]

end DynamicThreadManager

/-! What a failed detection leaves. -/

section Windows

variable {sys : NativeSystem} {fuel : ℕ} {cfg : ProcessorConfigurationVector GroupAffinity}
  {detected : Bool × ProcessorConfigurationVector GroupAffinity}

/-- Past the two queries the parser returns true; before them it has read nothing. -/
theorem ProcessorConfigurationVector.initializeCurrent_cases
    (h : initializeCurrent sys fuel cfg = some detected) :
    sys.Unanswered ∧ detected = (false, { cfg with proc := [] }) ∨
      ¬ sys.Unanswered ∧ detected.1 = true := by
  unfold initializeCurrent processCurrentConfiguration at h
  unfold NativeSystem.Unanswered
  split at h
  · next hquery => exact Or.inl ⟨Or.inl hquery, (Option.some.inj h).symm⟩
  · next hquery =>
    split at h
    · next haffinity => exact Or.inl ⟨Or.inr haffinity, (Option.some.inj h).symm⟩
    · next haffinity =>
      obtain ⟨scan, -, hrest⟩ := Option.bind_eq_some_iff.mp h
      obtain rfl := Option.some.inj hrest
      exact Or.inr ⟨by simp [hquery, haffinity], rfl⟩

theorem ProcessorConfigurationVector.initializeCurrent_failed
    (h : initializeCurrent sys fuel cfg = some detected) :
    detected.1 = false ∧ detected.2.proc = [] ↔ sys.Unanswered := by
  rcases initializeCurrent_cases h with ⟨hun, rfl⟩ | ⟨hanswered, htrue⟩
  · exact iff_of_true ⟨rfl, rfl⟩ hun
  · refine iff_of_false (fun hf => ?_) hanswered
    rw [htrue] at hf
    cases hf.1

end Windows

namespace Linux

variable {sys : System} {allowedMask : CpuSet} {cfg : ProcessorConfigurationVector CpuSet}

/-- The loop leaves nothing only if its first round does. -/
theorem readProcessors_failed {i : ℕ} {is : List ℕ} :
    (readProcessors sys allowedMask (i :: is) []).1 = false ∧
      (readProcessors sys allowedMask (i :: is) []).2 = [] ↔ ¬ sys.Readable i := by
  rw [readProcessors_eq, List.takeWhile_cons]
  by_cases hi : sys.Readable i
  · simp [hi]
  · simp [hi]

theorem initializeCurrent_failed (sys : System) (cfg : ProcessorConfigurationVector CpuSet) :
    (initializeCurrent sys cfg).1 = false ∧ (initializeCurrent sys cfg).2.proc = [] ↔
      sys.Unstarted := by
  unfold initializeCurrent processCurrentConfiguration System.Unstarted
  split
  · next hnone => simp [hnone]
  · next hpos =>
    split
    · next hmask => simp [hmask]
    · next hmask =>
      have hrounds : ∃ n, sys.rounds = n + 1 := by
        have hlt := Int32.lt_iff_toInt_lt.mp (Int32.not_le.mp hpos)
        change 0 < sys.numProcessors.toInt at hlt
        exact ⟨sys.rounds - 1, by unfold System.rounds; omega⟩
      obtain ⟨n, hn⟩ := hrounds
      rw [hn, List.range_succ_eq_map]
      simp only [readProcessors_failed, hpos, hmask, false_or]
      simp

end Linux

theorem HostSystem.initializeCurrent_failed {Mask : Type} {os : HostSystem Mask} {fuel : ℕ}
    {cfg : ProcessorConfigurationVector Mask}
    {detected : Bool × ProcessorConfigurationVector Mask}
    (h : os.initializeCurrent fuel cfg = some detected) :
    detected.1 = false ∧ detected.2.proc = [] ↔ os.FailsEarly := by
  cases os with
  | windows sys => exact ProcessorConfigurationVector.initializeCurrent_failed h
  | linux sys =>
    obtain rfl := Option.some.inj h
    exact Linux.initializeCurrent_failed sys cfg

namespace DynamicThreadManager

/-- On both systems: the two ways agree just when the detection fails before it has found a
processor. -/
theorem initialize_agrees_iff {Mask : Type} {s : DynamicThreadManager Mask} (hs : s.Blank)
    (os : HostSystem Mask) (fuel : ℕ) {detected : Bool × ProcessorConfigurationVector Mask}
    (hdetected : os.initializeCurrent fuel s.map = some detected)
    (hne : detected.1 = true → detected.2.proc ≠ []) :
    Agrees s detected ↔ os.FailsEarly :=
  (agrees_iff hs hne).trans (HostSystem.initializeCurrent_failed hdetected)

/-! A machine of each system, both detected in full. -/

abbrev twoGroupsTopology : ProcessorConfigurationVector GroupAffinity :=
  topology (.answering twoGroups) 0xffffffffffffffff twoGroups

theorem initializeCurrent_twoGroups (cfg : ProcessorConfigurationVector GroupAffinity) :
    cfg.initializeCurrent (.answering twoGroups) 6 = some (true, twoGroupsTopology) :=
  processCurrentConfiguration_eq twoGroups_wellFormed rfl rfl
    (NativeBuffer.holds_layout (by decide) (by decide)) rfl (by decide)

theorem twoGroupsTopology_ne_nil : twoGroupsTopology.proc ≠ [] :=
  (wellFormed_topology _ _ twoGroups_wellFormed (by decide)).nonempty

theorem initialize_agrees_iff_machines :
    (Agrees (fresh 0 0) (true, twoGroupsTopology) ↔
      (HostSystem.windows (.answering twoGroups)).FailsEarly) ∧
    (Agrees (fresh 0 0).destroy (Linux.initializeCurrent Linux.twoCores ⟨[], 0, 0, 0⟩) ↔
      (HostSystem.linux Linux.twoCores).FailsEarly) :=
  ⟨initialize_agrees_iff (blank_fresh 0 0) (.windows _) 6 (initializeCurrent_twoGroups _)
      (fun _ => twoGroupsTopology_ne_nil),
    initialize_agrees_iff (blank_destroy (fresh 0 0)) (.linux _) 0 rfl
      (fun _ => List.cons_ne_nil _ _)⟩

/-- A fresh manager does not initialize itself from what it has detected. -/
theorem not_initialize_agrees :
    ¬ ∀ (s : DynamicThreadManager GroupAffinity) (sys : NativeSystem) (fuel : ℕ)
      (detected : Bool × ProcessorConfigurationVector GroupAffinity), s.Blank →
      s.map.initializeCurrent sys fuel = some detected →
      (detected.1 = true → detected.2.proc ≠ []) → Agrees s detected := by
  intro h
  have hagrees := h (fresh 0 0) _ 6 _ (blank_fresh 0 0) (initializeCurrent_twoGroups _)
    (fun _ => twoGroupsTopology_ne_nil)
  rw [agrees_iff (blank_fresh 0 0) (fun _ => twoGroupsTopology_ne_nil)] at hagrees
  exact Bool.false_ne_true hagrees.1.symm

end DynamicThreadManager

end Tailslayer
