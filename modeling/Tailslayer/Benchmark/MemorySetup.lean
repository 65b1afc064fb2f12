import Tailslayer.Benchmark.CommandLine
import Tailslayer.Memory.Allocation

/-! The pages of a benchmark run, from their allocation to their release (`main.cpp`). -/
namespace Tailslayer.Benchmark

open Memory

structure MemorySetup where
  memory : AllocationRequest
  physContigMem : PhysicalMemRegion
  replicaPage : UInt64
  stressPage : UInt64
  replicas : List UInt64
  deriving DecidableEq, Repr

/-- `MemorySetup mem{}` -/
def MemorySetup.fresh : MemorySetup := ⟨.default, .empty, 0, 0, []⟩

/-- What `setup_replica_page` does not recover from. -/
inductive SetupFault
  | lengthError
  | emptyReplicas
  | intOverflow
  | undefinedShift
  deriving DecidableEq, Repr

/-- `i * channel_offset`, a product of `int`s. -/
def intMul (i : ℕ) (channelOffset : Int32) : Except SetupFault Int32 :=
  if -2 ^ 31 ≤ i * channelOffset.toInt ∧ i * channelOffset.toInt < 2 ^ 31 then
    .ok (Int32.ofInt (i * channelOffset.toInt))
  else .error .intOverflow

/-- Where replica `i` goes. -/
def replicaAddress (channelOffset : Int32) (replicaPage : UInt64) (i : ℕ) :
    Except SetupFault UInt64 :=
  (intMul i channelOffset).map (fun offset => replicaPage + toSizeT offset)

/-- The loop over the replicas' physical addresses; it ends early at a failed translation. -/
def resolveChannels (virt2Phys : Virt2Phys) (channelBit : Int32) :
    List UInt64 → Except SetupFault Bool
  | [] => .ok true
  | replica :: rest =>
    let physAddr := virtToPhys virt2Phys replica
    if physAddr = Memory.UINT64_MAX ∨ physAddr = 0 then .ok false
    -- `compute_channel` shifts the address by the channel bit
    else if channelBit < 0 ∨ 64 ≤ channelBit then .error .undefinedShift
    else resolveChannels virt2Phys channelBit rest

variable {Mask : Type}

/-- The loop that copies the first cache line of the page to each other replica. -/
def copyReplicas (channelOffset : Int32) (replicaPage : UInt64) (nChannels : ℕ) :
    Except SetupFault (List UInt64) := do
  let copies ← (List.range' 1 (nChannels - 1)).mapM (replicaAddress channelOffset replicaPage)
  return replicaPage :: copies

def setupReplicaPage (virt2Phys : Virt2Phys) (config : AppConfig Mask) (mem : MemorySetup) :
    Except SetupFault (Bool × MemorySetup) :=
  if config.nChannels < 0 then .error .lengthError
  else if config.nChannels = 0 then .error .emptyReplicas
  else do
    let replicas ← copyReplicas config.channelOffset mem.replicaPage config.nChannels.toInt.toNat
    let status ← resolveChannels virt2Phys config.channelBit replicas
    return (status, { mem with
      replicas
      replicaPage := if status then mem.replicaPage else 0 })

/-- One page for the replicas, and one for the stress threads if there are any. -/
def request (config : AppConfig Mask) : AllocationRequest :=
  .ofSize ((1 + if config.withload then 1 else 0) * SUPERPAGE_SIZE)

/-- `setup_memory`, after its allocation. -/
def setupPages (virt2Phys : Virt2Phys) (config : AppConfig Mask) (outMem : MemorySetup)
    (l : LargePage) : Except SetupFault (Bool × MemorySetup × List HeapCall) :=
  if l.out.virtaddr = 0 then .ok (false, outMem, l.calls)
  else do
    let outMem := { outMem with
      memory := l.out
      physContigMem := l.memBegin
      replicaPage := l.memBegin.vaddr
      stressPage := if config.withload then l.memBegin.vaddr + SUPERPAGE_SIZE else 0 }
    let (status, outMem) ← setupReplicaPage virt2Phys config outMem
    -- `setup_stress_page` always succeeds
    return (status, outMem,
      l.calls ++ if status then [] else freeLargePage outMem.memory)

/-- `virt2Phys` answers `setup_replica_page`; `none` when a scan runs out of fuel. -/
def setupMemory (os : Windows) (virt2Phys : Virt2Phys) (fuel : ℕ) (config : AppConfig Mask)
    (outMem : MemorySetup) : Option (Except SetupFault (Bool × MemorySetup × List HeapCall)) :=
  (allocateLargePageMin os fuel (request config)).map (setupPages virt2Phys config outMem)

def destroyEnvironment (toDestroy : MemorySetup) : List HeapCall :=
  if toDestroy.memory.virtaddr ≠ 0 then freeLargePage toDestroy.memory else []

variable {config : AppConfig Mask} {virt2Phys : Virt2Phys} {mem mem' : MemorySetup}
  {status : Bool} {l : LargePage} {calls : List HeapCall} {page : UInt64}
  {channelOffset channelBit : Int32}

/-- The translation of a replica's address counts as failed. -/
def Unresolved (virt2Phys : Virt2Phys) (replica : UInt64) : Prop :=
  virtToPhys virt2Phys replica = Memory.UINT64_MAX ∨ virtToPhys virt2Phys replica = 0

theorem resolveChannels_iff {replicas : List UInt64}
    (h : resolveChannels virt2Phys channelBit replicas = .ok status) :
    status = false ↔ ∃ a ∈ replicas, Unresolved virt2Phys a := by
  induction replicas with
  | nil =>
    cases h
    simp
  | cons a as ih =>
    simp only [resolveChannels] at h
    split at h
    · next hbad =>
      cases h
      exact ⟨fun _ => ⟨a, List.mem_cons_self, hbad⟩, fun _ => rfl⟩
    · next hgood =>
      split at h
      · cases h
      · have hhead : ¬ Unresolved virt2Phys a := hgood
        rw [ih h]
        simp [hhead]

theorem replicaAddress_zero (channelOffset : Int32) (page : UInt64) :
    replicaAddress channelOffset page 0 = .ok page := by
  have h0 : intMul 0 channelOffset = .ok 0 := by simp [intMul]
  have hz : page + toSizeT 0 = page := UInt64.add_zero page
  rw [replicaAddress, h0]
  exact congrArg Except.ok hz

theorem copyReplicas_ok {n : ℕ} (hn : 0 < n) {replicas : List UInt64}
    (h : copyReplicas channelOffset page n = .ok replicas) : replicas.length = n ∧
      ∀ i (hi : i < replicas.length), replicaAddress channelOffset page i = .ok replicas[i] := by
  obtain ⟨copies, hcopies, he⟩ := Except.bind_eq_ok_iff.mp h
  cases he
  obtain ⟨hlen, hget⟩ := Except.mapM_ok hcopies
  rw [List.length_range'] at hlen
  refine ⟨by rw [List.length_cons, hlen]; omega, ?_⟩
  intro i hi
  cases i with
  | zero => exact replicaAddress_zero channelOffset page
  | succ i =>
    rw [List.length_cons] at hi
    have hi' : i < (List.range' 1 (n - 1)).length := by
      rw [List.length_range']
      omega
    have hcopy := hget i hi' (by omega)
    rw [List.getElem_range', Nat.one_mul, Nat.add_comm] at hcopy
    exact hcopy

/-- What `setup_replica_page` leaves: a pointer for each channel, all of them translated if it
succeeds, and the block of the memory as it was. -/
structure ReplicasSet (virt2Phys : Virt2Phys) (config : AppConfig Mask) (mem mem' : MemorySetup)
    (status : Bool) : Prop where
  length : (mem'.replicas.length : ℤ) = config.nChannels.toInt
  address : ∀ i (hi : i < mem'.replicas.length),
    replicaAddress config.channelOffset mem.replicaPage i = .ok mem'.replicas[i]
  resolved : status = false ↔ ∃ a ∈ mem'.replicas, Unresolved virt2Phys a
  memory : mem'.memory = mem.memory

theorem replicasSet_setupReplicaPage
    (h : setupReplicaPage virt2Phys config mem = .ok (status, mem')) :
    ReplicasSet virt2Phys config mem mem' status := by
  unfold setupReplicaPage at h
  split at h
  · cases h
  · next hneg =>
    split at h
    · cases h
    · next hzero =>
      have hpos : 0 < config.nChannels.toInt := by
        have hnn := Int32.le_iff_toInt_le.mp (Int32.not_lt.mp hneg)
        have hne : config.nChannels.toInt ≠ 0 := fun h => hzero (Int32.toInt_inj.mp h)
        change 0 ≤ config.nChannels.toInt at hnn
        omega
      obtain ⟨replicas, hreplicas, h⟩ := Except.bind_eq_ok_iff.mp h
      obtain ⟨status', hstatus, h⟩ := Except.bind_eq_ok_iff.mp h
      cases h
      obtain ⟨hlen, hget⟩ := copyReplicas_ok (by omega) hreplicas
      refine ⟨?_, hget, resolveChannels_iff hstatus, rfl⟩
      change (replicas.length : ℤ) = _
      omega

/-- Two gigabytes in one piece. -/
def onePieceBlock : LargePage where
  out := ⟨0x10000000000, 0x80000000, 0x200000, true⟩
  memBegin := ⟨0x10000000000, 0x100000000, 0x80000000⟩
  calls := [.virtualAlloc 0x10000000000]

theorem allocateLargePageMin_onePiece :
    allocateLargePageMin (fortyGiB onePiece) 1025 (.ofSize 0x80000000) = some onePieceBlock := by
  decide +kernel

end Tailslayer.Benchmark
