import Mathlib.Data.Rat.Init
import Mathlib.Algebra.Order.Ring.Rat
import Mathlib.Tactic.Common

/-! What the benchmark's threads make of the outcome of their pinning (`measurement_thread`,
`stress_thread`, `setup_environment`). -/
namespace Tailslayer.Benchmark

def THREAD_PRIORITY_TIME_CRITICAL : Int32 := 15

def THREAD_PRIORITY_NORMAL : Int32 := 0

/-- The conversion of `DWORD_PTR` to `BOOL`: the low 32 bits, as a signed number. -/
def toBOOL (x : UInt64) : Int32 := x.toUInt32.toInt32

/-- The answers of the system to a thread. `SetThreadAffinityMask` gives the previous mask, or
zero if it fails; a priority is granted or not. -/
structure ThreadAnswers where
  setThreadAffinityMask : UInt64
  getThreadPriority : Int32
  setThreadPriority : Int32 → Int32

/-- What a thread keeps of the answers; either complaint ends it. -/
structure ThreadStatus where
  unpinned : Bool
  unprioritised : Bool
  oldThreadPrio : Int32
  deriving DecidableEq, Repr

def ThreadStatus.givesUp (status : ThreadStatus) : Bool := status.unpinned || status.unprioritised

/-- The first steps of both kinds of threads. -/
def startThread (newPriority : Int32) (os : ThreadAnswers) : ThreadStatus where
  unpinned := toBOOL os.setThreadAffinityMask < 0
  unprioritised := os.setThreadPriority newPriority == 0
  oldThreadPrio := os.getThreadPriority

def measurementThreadStatus (os : ThreadAnswers) : ThreadStatus :=
  startThread THREAD_PRIORITY_TIME_CRITICAL os

def stressThreadStatus (os : ThreadAnswers) : ThreadStatus :=
  startThread THREAD_PRIORITY_NORMAL os

/-- The answers to the main thread; `tscGhz` is what the calibration measures. -/
structure EnvironmentAnswers extends ThreadAnswers where
  initializeVMMReader : Bool
  setLockMemoryPrivilege : Bool
  setPriorityClass : Int32
  tscGhz : ℚ

/-- The five entries of `status`. -/
structure EnvironmentStatus where
  vmmReader : Bool
  lockMemory : Bool
  processPriority : Bool
  pinned : Bool
  threadPriority : Bool
  deriving DecidableEq, Repr

def environmentStatus (os : EnvironmentAnswers) : EnvironmentStatus where
  vmmReader := os.initializeVMMReader
  lockMemory := os.setLockMemoryPrivilege
  processPriority := os.setPriorityClass != 0
  pinned := toBOOL os.setThreadAffinityMask != 0
  threadPriority := os.setThreadPriority THREAD_PRIORITY_TIME_CRITICAL != 0

def setupEnvironment (os : EnvironmentAnswers) : ℚ :=
  let status := environmentStatus os
  if status.vmmReader = false ∨ status.lockMemory = false ∨ status.processPriority = false ∨
      status.pinned = false ∨ status.threadPriority = false then -1
  else os.tscGhz

/-- The answers to the main thread and to the threads of the arms. -/
structure PinningRun where
  main : EnvironmentAnswers
  measurement : List ThreadAnswers
  stress : List ThreadAnswers

namespace PinningRun

/-- `main` goes on after the setup, and every thread does what it is started for. -/
def Measures (run : PinningRun) : Prop :=
  ¬ setupEnvironment run.main < 0 ∧
    (∀ os ∈ run.measurement, (measurementThreadStatus os).givesUp = false) ∧
    ∀ os ∈ run.stress, (stressThreadStatus os).givesUp = false

/-- The system pinned every thread. -/
def Pinned (run : PinningRun) : Prop :=
  run.main.setThreadAffinityMask ≠ 0 ∧
    ∀ os ∈ run.measurement ++ run.stress, os.setThreadAffinityMask ≠ 0

/-- Nothing fails, except perhaps a pinning. -/
structure OthersSucceed (run : PinningRun) : Prop where
  vmmReader : run.main.initializeVMMReader = true
  lockMemory : run.main.setLockMemoryPrivilege = true
  processPriority : run.main.setPriorityClass ≠ 0
  calibration : 0 ≤ run.main.tscGhz
  main : run.main.setThreadPriority THREAD_PRIORITY_TIME_CRITICAL ≠ 0
  measurement : ∀ os ∈ run.measurement, os.setThreadPriority THREAD_PRIORITY_TIME_CRITICAL ≠ 0
  stress : ∀ os ∈ run.stress, os.setThreadPriority THREAD_PRIORITY_NORMAL ≠ 0

/-- Each call site sees a failed pinning, and only that. -/
structure FailuresDetected (run : PinningRun) : Prop where
  setup : (environmentStatus run.main).pinned = false ↔ run.main.setThreadAffinityMask = 0
  measurement : ∀ os ∈ run.measurement,
    (measurementThreadStatus os).unpinned = true ↔ os.setThreadAffinityMask = 0
  stress : ∀ os ∈ run.stress,
    (stressThreadStatus os).unpinned = true ↔ os.setThreadAffinityMask = 0
  measures : run.OthersSucceed → (run.Measures ↔ run.Pinned)

/-- The threads of the arms are all pinned and had masks whose bit 31 is clear; the main thread's
mask, if it had one, is not of high bits only. -/
def Distinguishable (run : PinningRun) : Prop :=
  (run.main.setThreadAffinityMask = 0 ∨ run.main.setThreadAffinityMask.toNat % 2 ^ 32 ≠ 0) ∧
    ∀ os ∈ run.measurement ++ run.stress,
      os.setThreadAffinityMask ≠ 0 ∧ os.setThreadAffinityMask.toNat % 2 ^ 32 < 2 ^ 31

end PinningRun

variable {run : PinningRun} {os : ThreadAnswers} {newPriority : Int32} {x : UInt64}

theorem toNat_toBOOL (x : UInt64) : (toBOOL x).toBitVec.toNat = x.toNat % 2 ^ 32 := by
  rw [toBOOL, UInt32.toBitVec_toInt32, UInt32.toNat_toBitVec, UInt64.toNat_toUInt32]

theorem toBOOL_eq_zero_iff : toBOOL x = 0 ↔ x.toNat % 2 ^ 32 = 0 := by
  rw [← Int32.toBitVec_inj, ← BitVec.toNat_inj, toNat_toBOOL]
  rfl

theorem toBOOL_neg_iff : toBOOL x < 0 ↔ 2 ^ 31 ≤ x.toNat % 2 ^ 32 := by
  rw [Int32.lt_iff_toInt_lt, ← Int32.toInt_toBitVec, BitVec.toInt_eq_toNat_cond, toNat_toBOOL]
  change _ < (0 : ℤ) ↔ _
  split <;> omega

/-- A thread's test for a negative status is right for the masks that it cannot confuse. -/
theorem unpinned_iff : ((startThread newPriority os).unpinned = true ↔
    os.setThreadAffinityMask = 0) ↔
      os.setThreadAffinityMask ≠ 0 ∧ os.setThreadAffinityMask.toNat % 2 ^ 32 < 2 ^ 31 := by
  have hneg : (startThread newPriority os).unpinned = true ↔
      2 ^ 31 ≤ os.setThreadAffinityMask.toNat % 2 ^ 32 := by
    rw [← toBOOL_neg_iff]
    exact decide_eq_true_iff
  rw [hneg]
  by_cases hz : os.setThreadAffinityMask = 0
  · simp [hz]
  · simp [hz]

theorem pinned_iff {os : EnvironmentAnswers} : ((environmentStatus os).pinned = false ↔
    os.setThreadAffinityMask = 0) ↔
      os.setThreadAffinityMask = 0 ∨ os.setThreadAffinityMask.toNat % 2 ^ 32 ≠ 0 := by
  have hpin : (environmentStatus os).pinned = false ↔
      os.setThreadAffinityMask.toNat % 2 ^ 32 = 0 := by
    rw [← toBOOL_eq_zero_iff]
    exact bne_eq_false_iff_eq
  rw [hpin]
  by_cases hz : os.setThreadAffinityMask = 0
  · simp [hz]
  · simp [hz]

namespace PinningRun

theorem setupEnvironment_neg_iff (h : run.OthersSucceed) :
    setupEnvironment run.main < 0 ↔ (environmentStatus run.main).pinned = false := by
  have hstatus : (environmentStatus run.main).vmmReader = true ∧
      (environmentStatus run.main).lockMemory = true ∧
      (environmentStatus run.main).processPriority = true ∧
      (environmentStatus run.main).threadPriority = true :=
    ⟨h.vmmReader, h.lockMemory, bne_iff_ne.mpr h.processPriority, bne_iff_ne.mpr h.main⟩
  obtain ⟨hv, hl, hp, ht⟩ := hstatus
  have hghz := h.calibration
  rw [setupEnvironment]
  cases (environmentStatus run.main).pinned
  · simp [hv, hl, hp, ht]
  · simp [hv, hl, hp, ht, hghz]

theorem givesUp_iff (h : os.setThreadPriority newPriority ≠ 0) :
    (startThread newPriority os).givesUp = (startThread newPriority os).unpinned := by
  have hprio : (startThread newPriority os).unprioritised = false := by
    simpa [startThread] using h
  rw [ThreadStatus.givesUp, hprio, Bool.or_false]

/-- Threads that see a failed pinning, and nothing else, measure just when all are pinned. -/
theorem forall_givesUp_iff {threads : List ThreadAnswers}
    (hpriority : ∀ os ∈ threads, os.setThreadPriority newPriority ≠ 0)
    (hdetected : ∀ os ∈ threads,
      (startThread newPriority os).unpinned = true ↔ os.setThreadAffinityMask = 0) :
    (∀ os ∈ threads, (startThread newPriority os).givesUp = false) ↔
      ∀ os ∈ threads, os.setThreadAffinityMask ≠ 0 := by
  refine forall₂_congr fun os hos => ?_
  rw [givesUp_iff (hpriority os hos), ne_eq, ← hdetected os hos, Bool.not_eq_true]

/-- Where all call sites are right, so is the run. -/
theorem measures_iff (h : run.OthersSucceed)
    (hsetup : (environmentStatus run.main).pinned = false ↔ run.main.setThreadAffinityMask = 0)
    (hmeasurement : ∀ os ∈ run.measurement,
      (measurementThreadStatus os).unpinned = true ↔ os.setThreadAffinityMask = 0)
    (hstress : ∀ os ∈ run.stress,
      (stressThreadStatus os).unpinned = true ↔ os.setThreadAffinityMask = 0) :
    run.Measures ↔ run.Pinned := by
  have hm : (∀ os ∈ run.measurement, (measurementThreadStatus os).givesUp = false) ↔
      ∀ os ∈ run.measurement, os.setThreadAffinityMask ≠ 0 :=
    forall_givesUp_iff h.measurement hmeasurement
  have hs : (∀ os ∈ run.stress, (stressThreadStatus os).givesUp = false) ↔
      ∀ os ∈ run.stress, os.setThreadAffinityMask ≠ 0 := forall_givesUp_iff h.stress hstress
  rw [Measures, Pinned, setupEnvironment_neg_iff h, hsetup, hm, hs, List.forall_mem_append]

/-- Over every outcome of every pinning: the failures are detected exactly when each thread of the
arms is pinned from a mask without bit 31, and the main thread not from high bits only. -/
theorem failuresDetected_iff (run : PinningRun) : run.FailuresDetected ↔ run.Distinguishable := by
  constructor
  · intro h
    refine ⟨pinned_iff.mp h.setup, ?_⟩
    intro os hos
    rcases List.mem_append.mp hos with hm | hs
    · exact unpinned_iff.mp (h.measurement os hm)
    · exact unpinned_iff.mp (h.stress os hs)
  · rintro ⟨hmain, hthreads⟩
    rw [List.forall_mem_append] at hthreads
    have hsetup := pinned_iff.mpr hmain
    have hmeasurement : ∀ os ∈ run.measurement,
        (measurementThreadStatus os).unpinned = true ↔ os.setThreadAffinityMask = 0 :=
      fun os hos => unpinned_iff.mpr (hthreads.1 os hos)
    have hstress : ∀ os ∈ run.stress,
        (stressThreadStatus os).unpinned = true ↔ os.setThreadAffinityMask = 0 :=
      fun os hos => unpinned_iff.mpr (hthreads.2 os hos)
    exact ⟨hsetup, hmeasurement, hstress, fun h => measures_iff h hsetup hmeasurement hstress⟩

/-- Every answer is a success, but the one measurement thread could not be pinned. -/
def oneUnpinned : PinningRun where
  main := ⟨⟨0xff, 0, fun _ => 1⟩, true, true, 1, 3⟩
  measurement := [⟨0, 0, fun _ => 1⟩]
  stress := []

/-- The thread measures nevertheless. -/
theorem not_failuresDetected : ¬ ∀ run : PinningRun, run.FailuresDetected := by
  intro h
  have hthread := (h oneUnpinned).measurement ⟨0, 0, fun _ => 1⟩ (List.mem_singleton.mpr rfl)
  exact absurd (hthread.mpr rfl) (by decide)

end PinningRun

end Tailslayer.Benchmark
