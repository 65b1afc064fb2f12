import Mathlib.Data.Rat.Floor
import Tailslayer.Benchmark.Allocation
import Tailslayer.Benchmark.MemorySetup

/-! `execute_benchmarks` (`main.cpp`): the processors it allocates and the arms it runs. -/
namespace Tailslayer.Benchmark

open DynamicThreadManager
open HedgedReader (Build)

def UINT32_MAX : UInt32 := 0xffffffff

inductive ArmName
  | singleQuiet
  | hedgedQuiet
  | singleStress
  | hedgedStress
  deriving DecidableEq, Repr

/-- The arm measures the first replica only. -/
def ArmName.single : ArmName → Bool
  | .singleQuiet | .singleStress => true
  | .hedgedQuiet | .hedgedStress => false

/-- The arm runs under load. -/
def ArmName.withload : ArmName → Bool
  | .singleStress | .hedgedStress => true
  | .singleQuiet | .hedgedQuiet => false

/-- The flag that asks for the arm. -/
def Arms.runs (a : Arms) : ArmName → Bool
  | .singleQuiet => a.singleThreadNoload
  | .hedgedQuiet => a.hedgedThreadsNoload
  | .singleStress => a.singleThreadWithload
  | .hedgedStress => a.hedgedThreadsWithload

/-- The arguments of a call of `run_arm`. -/
structure ArmCall (Mask : Type) where
  name : ArmName
  channelAddrs : List UInt64
  channelCores : List (LogicalProcessor Mask)
  stressThreads : List (LogicalProcessor Mask)
  stressRegion : UInt64
  deriving DecidableEq

/-- A failed assertion, an undefined operation of the thread manager, or `m_replicas[0]` of no
replicas. -/
inductive Stop
  | assertion (text : String)
  | fault (f : Tailslayer.Fault)
  | noReplica
  deriving DecidableEq, Repr

def check (build : Build) (p : Prop) [Decidable p] (text : String) : Except Stop Unit :=
  if build = .debug ∧ ¬ p then .error (.assertion text) else .ok ()

variable {Mask : Type}

namespace AppConfig

def channelsToBenchmark (config : AppConfig Mask) : UInt32 :=
  if config.singleThreadNoload || config.singleThreadWithload then 1
  else if config.hedgedThreadsNoload || config.hedgedThreadsWithload then
    config.nChannels.toUInt32
  else UINT32_MAX

def stressThreadsToUse (config : AppConfig Mask) : UInt32 :=
  if config.singleThreadNoload || config.hedgedThreadsNoload then 0
  else if config.singleThreadWithload || config.hedgedThreadsWithload then
    config.nStress.toUInt32
  else UINT32_MAX

end AppConfig

/-- `threadToCoreRatio`, and with it the expressions it occurs in, in exact arithmetic. -/
def threadToCoreRatio (s : DynamicThreadManager Mask) : ℚ :=
  s.freeThreads.toNat / s.freeCores.toNat

def approximateThreadUtilization (channelsToBenchmark stressThreadsToUse : UInt32)
    (s : DynamicThreadManager Mask) : ℚ :=
  channelsToBenchmark.toNat * threadToCoreRatio s + stressThreadsToUse.toNat

/-- The assertion about the thread count. -/
def SufficientThreads (channelsToBenchmark stressThreadsToUse : UInt32)
    (s : DynamicThreadManager Mask) : Prop :=
  ⌊approximateThreadUtilization channelsToBenchmark stressThreadsToUse s + 1⌋ <
    (s.freeThreads.toNat : ℤ)

instance (channels stress : UInt32) (s : DynamicThreadManager Mask) :
    Decidable (SufficientThreads channels stress s) :=
  inferInstanceAs (Decidable (_ < _))

/-- What `begin()` picks in each round of the two allocation loops. -/
structure Orders where
  channel : ℕ → Begin
  stress : ℕ → Begin

variable [Inhabited Mask]

/-- The loop over the channels and, if it succeeds, the loop over the stress threads. -/
def allocateThreads (orders : Orders) (channelsToBenchmark stressThreadsToUse : UInt32)
    (s : DynamicThreadManager Mask) :
    Except Tailslayer.Fault
      (Bool × List (LogicalProcessor Mask) × List (LogicalProcessor Mask)) := do
  let (success, channelCores, s) ← allocateEach (fun b s => s.allocateProcessor' b)
    ((List.range channelsToBenchmark.toNat).map orders.channel) s
  if success then
    let (success, stressThreads, _) ← allocateEach (fun b s => s.allocateThread b)
      ((List.range stressThreadsToUse.toNat).map orders.stress) s
    return (success, channelCores, stressThreads)
  else return (false, channelCores, [])

/-- The replicas an arm measures. -/
def ArmName.channelAddrs (name : ArmName) (mem : MemorySetup) : Except Stop (List UInt64) :=
  if name.single then
    match mem.replicas with
    | [] => .error .noReplica
    | replica :: _ => .ok [replica]
  else .ok mem.replicas

omit [Inhabited Mask] in
/-- The call that runs an arm. -/
def armCall (mem : MemorySetup) (channelCores stressThreads : List (LogicalProcessor Mask))
    (name : ArmName) : Except Stop (ArmCall Mask) := do
  let channelAddrs ← name.channelAddrs mem
  return {
    name
    channelAddrs
    channelCores
    stressThreads := if name.withload then stressThreads else []
    stressRegion := if name.withload then mem.stressPage else 0 }

/-- Whether the allocations succeeded, and the calls of `run_arm` in their order. -/
structure Execution (Mask : Type) where
  success : Bool
  calls : List (ArmCall Mask)
  deriving DecidableEq

def executeBenchmarks (build : Build) (orders : Orders) (config : AppConfig Mask)
    (mem : MemorySetup) : Except Stop (Execution Mask) := do
  let channels := config.channelsToBenchmark
  let stress := config.stressThreadsToUse
  check build (channels ≠ UINT32_MAX ∧ stress ≠ UINT32_MAX)
    "Invalid Options supplied (Shouldn't happen if arg parsing is correct)\n"
  check build (SufficientThreads channels stress config.coreAlloc) "Insufficient Thread Count \n"
  let (success, channelCores, stressThreads) ←
    (allocateThreads orders channels stress config.coreAlloc).mapError .fault
  check build (success = true) "CPU/Thread Allocation failed\n"
  let calls ← ([ArmName.singleQuiet, .hedgedQuiet, .singleStress, .hedgedStress].filter
    config.runs).mapM (armCall mem channelCores stressThreads)
  return { success, calls }

variable {build : Build} {orders : Orders} {config : AppConfig Mask} {mem : MemorySetup}
  {e : Execution Mask} {c : ArmCall Mask} {name : ArmName} {b : Begin}
  {channels stress : UInt32} {s : DynamicThreadManager Mask}
  {channelCores stressThreads : List (LogicalProcessor Mask)}

omit [Inhabited Mask] in
/-- A loop that succeeds makes one allocation a round. -/
theorem length_allocateEach {allocate : Begin → DynamicThreadManager Mask →
      Except Tailslayer.Fault (LogicalProcessor Mask × DynamicThreadManager Mask)}
    {bs : List Begin} {ps : List (LogicalProcessor Mask)} {t : DynamicThreadManager Mask}
    (h : allocateEach allocate bs s = .ok (true, ps, t)) : ps.length = bs.length := by
  induction bs generalizing s ps with
  | nil =>
    cases h
    rfl
  | cons b bs ih =>
    obtain ⟨⟨p, u⟩, hu, h⟩ := Except.bind_eq_ok_iff.mp h
    simp only at h
    split at h
    · cases h
    · obtain ⟨⟨success, rest, v⟩, hv, h⟩ := Except.bind_eq_ok_iff.mp h
      cases h
      exact congrArg Nat.succ (ih hv)

theorem length_allocateThreads
    (h : allocateThreads orders channels stress s = .ok (true, channelCores, stressThreads)) :
    channelCores.length = channels.toNat ∧ stressThreads.length = stress.toNat := by
  obtain ⟨⟨success, cores, t⟩, hcores, h⟩ := Except.bind_eq_ok_iff.mp h
  cases success with
  | false => cases h
  | true =>
    obtain ⟨⟨success, threads, u⟩, hthreads, h⟩ := Except.bind_eq_ok_iff.mp h
    cases h
    have hc := length_allocateEach hcores
    have hs := length_allocateEach hthreads
    rw [List.length_map, List.length_range] at hc hs
    exact ⟨hc, hs⟩

/-- The calls of a run whose allocations succeed: one for each arm asked for, with as many
processors as were allocated. -/
theorem calls_executeBenchmarks (h : executeBenchmarks build orders config mem = .ok e)
    (hsuccess : e.success = true) : ∃ channelCores stressThreads,
      channelCores.length = config.channelsToBenchmark.toNat ∧
      stressThreads.length = config.stressThreadsToUse.toNat ∧
      (∀ name, config.runs name = true → ∃ c ∈ e.calls,
        armCall mem channelCores stressThreads name = .ok c) ∧
      ∀ c ∈ e.calls, ∃ name, config.runs name = true ∧
        armCall mem channelCores stressThreads name = .ok c := by
  obtain ⟨_, _, h⟩ := Except.bind_eq_ok_iff.mp h
  obtain ⟨_, _, h⟩ := Except.bind_eq_ok_iff.mp h
  obtain ⟨⟨success, channelCores, stressThreads⟩, halloc, h⟩ := Except.bind_eq_ok_iff.mp h
  obtain ⟨_, _, h⟩ := Except.bind_eq_ok_iff.mp h
  obtain ⟨calls, hcalls, h⟩ := Except.bind_eq_ok_iff.mp h
  cases h
  change success = true at hsuccess
  subst hsuccess
  obtain ⟨hcores, hthreads⟩ := length_allocateThreads (Except.mapError_eq_ok_iff.mp halloc)
  obtain ⟨hmade, hasked⟩ := Except.mem_mapM hcalls
  refine ⟨channelCores, stressThreads, hcores, hthreads, ?_, ?_⟩
  · intro name hname
    apply hmade
    rw [List.mem_filter]
    exact ⟨by cases name <;> simp, hname⟩
  · intro c hc
    obtain ⟨name, hname, hcall⟩ := hasked c hc
    exact ⟨name, (List.mem_filter.mp hname).2, hcall⟩

end Tailslayer.Benchmark
