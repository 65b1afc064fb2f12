import Tailslayer.Benchmark.Affinity
import Tailslayer.Benchmark.Execution

/-! Whether every arm of a run gets the processors it uses. -/
namespace Tailslayer.Benchmark

open DynamicThreadManager Memory
open HedgedReader (Build)

variable {Mask : Type} {config : AppConfig Mask} {c : ArmCall Mask} {mem : MemorySetup}
  {name : ArmName} {channelCores stressThreads ps : List (LogicalProcessor Mask)} {n : ℕ}

/-- The arm has a core for each channel and the stress threads it is configured with, so it runs,
and under load if it should. -/
structure ArmCall.Served (config : AppConfig Mask) (c : ArmCall Mask) : Prop where
  cores : c.channelAddrs.length ≤ c.channelCores.length
  stress : c.name.withload = true → (c.stressThreads.length : ℤ) = config.nStress.toInt
  runs : ∃ arm, runArm c.channelAddrs.length config.nStress.toInt.toNat
      ⟨config.mainThreadCoreID, c.channelCores, c.stressThreads⟩ = some arm ∧
    (c.name.withload = true → (arm.stress.length : ℤ) = config.nStress.toInt)

theorem startStressThreads_of_le (h : n ≤ ps.length) :
    ∃ qs, startStressThreads n ps = some qs ∧ qs.length = n := by
  induction n generalizing ps with
  | zero => exact ⟨[], rfl, rfl⟩
  | succ n ih =>
    cases hl : ps.getLast? with
    | none =>
      rw [List.getLast?_eq_none_iff] at hl
      rw [hl] at h
      cases h
    | some p =>
      have hle : n ≤ ps.dropLast.length := by
        rw [List.length_dropLast]
        omega
      obtain ⟨qs, hqs, hlen⟩ := ih hle
      refine ⟨p :: qs, ?_, congrArg Nat.succ hlen⟩
      simp only [startStressThreads, hl, hqs, Option.map_some]

/-- The numbers of processors decide. -/
theorem served_of_lengths (hn : 0 ≤ config.nStress.toInt)
    (hcores : c.channelAddrs.length ≤ c.channelCores.length)
    (hstress : c.name.withload = true → (c.stressThreads.length : ℤ) = config.nStress.toInt)
    (hquiet : c.name.withload = false → c.stressThreads = []) : c.Served config := by
  refine ⟨hcores, hstress, ?_⟩
  rw [runArm, if_neg (Nat.not_lt.mpr hcores)]
  by_cases hnil : c.stressThreads = []
  · refine ⟨⟨c.channelCores.take c.channelAddrs.length, []⟩, by simp [hnil], ?_⟩
    intro hload
    rw [← hstress hload, hnil]
  · have hload : c.name.withload = true := by
      cases hw : c.name.withload with
      | true => rfl
      | false => exact absurd (hquiet hw) hnil
    have hlen := hstress hload
    obtain ⟨qs, hqs, hq⟩ : ∃ qs, startStressThreads config.nStress.toInt.toNat c.stressThreads =
        some qs ∧ qs.length = config.nStress.toInt.toNat :=
      startStressThreads_of_le (by omega)
    refine ⟨⟨c.channelCores.take c.channelAddrs.length, qs⟩, ?_, ?_⟩
    · simp only [if_neg hnil, hqs, Option.map_some]
    · intro _
      change (qs.length : ℤ) = _
      omega

theorem served_armCall (hn : 0 ≤ config.nStress.toInt)
    (h : armCall mem channelCores stressThreads name = .ok c) : c.Served config ↔
      (if name.single then 1 else mem.replicas.length) ≤ channelCores.length ∧
      (name.withload = true → (stressThreads.length : ℤ) = config.nStress.toInt) := by
  obtain ⟨addrs, haddrs, hc⟩ := Except.bind_eq_ok_iff.mp h
  have hlen : addrs.length = if name.single then 1 else mem.replicas.length := by
    unfold ArmName.channelAddrs at haddrs
    split at haddrs
    · next hs =>
      rw [if_pos hs]
      split at haddrs
      · cases haddrs
      · cases haddrs
        rfl
    · next hs =>
      cases haddrs
      rw [if_neg hs]
  cases hc
  rw [← hlen]
  constructor
  · intro hserved
    refine ⟨hserved.cores, ?_⟩
    intro hload
    have hstress := hserved.stress hload
    simpa only [hload, if_true] using hstress
  · rintro ⟨hcores, hstress⟩
    apply served_of_lengths hn hcores
    · intro hload
      change name.withload = true at hload
      simpa only [hload, if_true] using hstress hload
    · intro hload
      change name.withload = false at hload
      simp only [hload, Bool.false_eq_true, if_false]

variable [Inhabited Mask] {result : Option Options}
  {detected : Bool × ProcessorConfigurationVector Mask} {main : Begin} {os : Windows}
  {virt2Phys : Virt2Phys} {fuel : ℕ} {calls : List HeapCall} {build : Build} {orders : Orders}
  {e : Execution Mask}

omit [Inhabited Mask] in
/-- After a successful `setup_memory` there is a replica for each channel. -/
theorem length_replicas_setupMemory {outMem : MemorySetup}
    (h : setupMemory os virt2Phys fuel config outMem = some (.ok (true, mem, calls))) :
    (mem.replicas.length : ℤ) = config.nChannels.toInt := by
  obtain ⟨l, -, h⟩ := Option.map_eq_some_iff.mp h
  unfold setupPages at h
  split at h
  · cases h
  · obtain ⟨⟨status, mem'⟩, hset, h⟩ := Except.bind_eq_ok_iff.mp h
    cases h
    exact (replicasSet_setupReplicaPage hset).length

/-- All arms are served if each of them is by the numbers of processors allocated. -/
theorem served_calls_iff (hn : 0 ≤ config.nStress.toInt)
    (hmem : (mem.replicas.length : ℤ) = config.nChannels.toInt)
    (h : executeBenchmarks build orders config mem = .ok e) (hsuccess : e.success = true) :
    (∀ c ∈ e.calls, c.Served config) ↔ ∀ name, config.runs name = true →
      (if name.single then 1 else config.nChannels.toInt) ≤ config.channelsToBenchmark.toNat ∧
      (name.withload = true → (config.stressThreadsToUse.toNat : ℤ) = config.nStress.toInt) := by
  obtain ⟨channelCores, stressThreads, hcores, hthreads, hmade, hasked⟩ :=
    calls_executeBenchmarks h hsuccess
  have hsizes : ∀ name c, armCall mem channelCores stressThreads name = .ok c →
      (c.Served config ↔
        (if name.single then 1 else config.nChannels.toInt) ≤ config.channelsToBenchmark.toNat ∧
        (name.withload = true →
          (config.stressThreadsToUse.toNat : ℤ) = config.nStress.toInt)) := by
    intro name c hc
    rw [served_armCall hn hc, hcores, hthreads, ← hmem]
    cases name.single <;> simp
  constructor
  · intro hall name hname
    obtain ⟨c, hc, hcall⟩ := hmade name hname
    exact (hsizes name c hcall).mp (hall c hc)
  · intro hall c hc
    obtain ⟨name, hname, hcall⟩ := hasked c hc
    exact (hsizes name c hcall).mpr (hall name hname)

omit [Inhabited Mask] in
theorem toNat_toUInt32 {x : Int32} (h : 0 ≤ x.toInt) : (x.toUInt32.toNat : ℤ) = x.toInt := by
  rw [Int32.toNat_toUInt32_of_le (Int32.le_iff_toInt_le.mpr h)]
  exact Int.toNat_of_nonneg h

/-- Over every command line and every machine on which all allocations succeed: the arms get what
they use exactly when not all of them run, or they need one core and no load. -/
theorem arms_served_iff (hparse : parseCli result detected main = .ok config)
    (hchannels : 1 ≤ config.nChannels) (hstress : 0 ≤ config.nStress)
    (hmem : setupMemory os virt2Phys fuel config .fresh = some (.ok (true, mem, calls)))
    (hex : executeBenchmarks build orders config mem = .ok e) (hsuccess : e.success = true) :
    (∀ c ∈ e.calls, c.Served config) ↔
      config.allBenchmarks = false ∨ config.nChannels = 1 ∧ config.nStress = 0 := by
  have hc : 1 ≤ config.nChannels.toInt := Int32.le_iff_toInt_le.mp hchannels
  have hs : 0 ≤ config.nStress.toInt := Int32.le_iff_toInt_le.mp hstress
  have hcw : (config.nChannels.toUInt32.toNat : ℤ) = config.nChannels.toInt :=
    toNat_toUInt32 (by omega)
  have hsw : (config.nStress.toUInt32.toNat : ℤ) = config.nStress.toInt := toNat_toUInt32 hs
  obtain ⟨options, -, hparsed⟩ := parsed_of_parseCli hparse
  rw [served_calls_iff hs (length_replicas_setupMemory hmem) hex hsuccess]
  unfold AppConfig.channelsToBenchmark AppConfig.stressThreadsToUse
  rcases hparsed.possible with h | h | h | h | h <;> rw [h]
  · -- all arms share the sizes of the quiet arm of one thread
    constructor
    · intro hall
      right
      obtain ⟨hcores, -⟩ := hall .hedgedQuiet rfl
      obtain ⟨-, hload⟩ := hall .singleStress rfl
      have hone : config.nChannels.toInt = 1 := Int.le_antisymm hcores hc
      have hzero : config.nStress.toInt = 0 := (hload rfl).symm
      exact ⟨Int32.toInt_inj.mp hone, Int32.toInt_inj.mp hzero⟩
    · rintro (hfalse | ⟨hone, hzero⟩) name -
      · cases hfalse
      · rw [hone, hzero]
        cases name <;> simp [ArmName.single, ArmName.withload]
  all_goals
    constructor
    · intro _
      exact Or.inl rfl
    · rintro - name hname
      cases name <;> simp_all [Arms.runs, ArmName.single, ArmName.withload]

/-- All arms with the default options. -/
def allArms : Options := ⟨false, true, none, none, none, none, none, none, none⟩

/-- The threads that are left after the main thread got its core. -/
def afterMain : DynamicThreadManager GroupAffinity :=
  match (initial fourCoresConfiguration).allocateProcessor' Begin.largest with
  | .ok (_, s) => s
  | .error _ => initial fourCoresConfiguration

def allArmsConfig : AppConfig GroupAffinity where
  toArms := ⟨true, true, true, true, true⟩
  nSamples := 5000000
  nStress := 4
  channelBit := 8
  channelOffset := 256
  nChannels := 2
  mainThreadCoreID := ⟨6, 3, 0, 1, ⟨0x40, 0⟩⟩
  coreCfg := fourCoresConfiguration
  coreAlloc := afterMain
  rawPrefix := ""

theorem parseCli_allArms : parseCli (some allArms) (true, fourCoresConfiguration) Begin.largest =
    .ok allArmsConfig := by
  rfl

def twoReplicas : MemorySetup where
  memory := onePieceBlock.out
  physContigMem := onePieceBlock.memBegin
  replicaPage := 0x10000000000
  stressPage := 0x10040000000
  replicas := [0x10000000000, 0x10000000100]

theorem setupMemory_allArms : setupMemory (fortyGiB onePiece) onePiece 1025 allArmsConfig .fresh =
    some (.ok (true, twoReplicas, [.virtualAlloc 0x10000000000])) := by
  have hrequest : request allArmsConfig = .ofSize 0x80000000 := by decide
  rw [setupMemory, hrequest, allocateLargePageMin_onePiece]
  decide

/-- Two replicas on one core, and four stress threads on none. -/
def allArmsExecution : Execution GroupAffinity where
  success := true
  calls := [
    ⟨.singleQuiet, [0x10000000000], [⟨4, 2, 0, 1, ⟨0x10, 0⟩⟩], [], 0⟩,
    ⟨.hedgedQuiet, [0x10000000000, 0x10000000100], [⟨4, 2, 0, 1, ⟨0x10, 0⟩⟩], [], 0⟩,
    ⟨.singleStress, [0x10000000000], [⟨4, 2, 0, 1, ⟨0x10, 0⟩⟩], [], 0x10040000000⟩,
    ⟨.hedgedStress, [0x10000000000, 0x10000000100], [⟨4, 2, 0, 1, ⟨0x10, 0⟩⟩], [],
      0x10040000000⟩]

def largest : Orders := ⟨fun _ => Begin.largest, fun _ => Begin.largest⟩

theorem executeBenchmarks_allArms :
    executeBenchmarks .release largest allArmsConfig twoReplicas = .ok allArmsExecution := by
  rfl

theorem arms_served_iff_allArms :
    (∀ c ∈ allArmsExecution.calls, c.Served allArmsConfig) ↔
      allArmsConfig.allBenchmarks = false ∨
        allArmsConfig.nChannels = 1 ∧ allArmsConfig.nStress = 0 :=
  arms_served_iff parseCli_allArms (by decide) (by decide) setupMemory_allArms
    executeBenchmarks_allArms rfl

/-- Two replicas are measured with one core. -/
theorem not_arms_served : ¬ ∀ (result : Option Options)
    (detected : Bool × ProcessorConfigurationVector GroupAffinity) (main : Begin)
    (config : AppConfig GroupAffinity) (os : Windows) (virt2Phys : Virt2Phys) (fuel : ℕ)
    (mem : MemorySetup) (calls : List HeapCall) (build : Build) (orders : Orders)
    (e : Execution GroupAffinity),
    parseCli result detected main = .ok config → 1 ≤ config.nChannels → 0 ≤ config.nStress →
    setupMemory os virt2Phys fuel config .fresh = some (.ok (true, mem, calls)) →
    executeBenchmarks build orders config mem = .ok e → e.success = true →
    ∀ c ∈ e.calls, c.Served config := by
  intro h
  have hserved := h _ _ _ _ _ _ _ _ _ _ _ _ parseCli_allArms (by decide) (by decide)
    setupMemory_allArms executeBenchmarks_allArms rfl
    ⟨.hedgedQuiet, [0x10000000000, 0x10000000100], [⟨4, 2, 0, 1, ⟨0x10, 0⟩⟩], [], 0⟩
    (by simp [allArmsExecution])
  exact absurd hserved.cores (by decide)

end Tailslayer.Benchmark
