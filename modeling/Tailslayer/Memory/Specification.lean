import Mathlib.Data.Nat.Notation
import Mathlib.Tactic.Common

/-! Large pages and the physical memory behind them (`types.hpp`, `utilities.hpp`). -/
namespace Tailslayer.Memory

def UINT64_MAX : UInt64 := 0xffffffffffffffff

structure PhysicalMemRegion where
  vaddr : UInt64
  paddr : UInt64
  size : UInt64
  deriving DecidableEq, Repr

/-- `PhysicalMemRegion{}` -/
def PhysicalMemRegion.empty : PhysicalMemRegion := ⟨0, 0, 0⟩

/-- A null pointer is the address zero. -/
structure AllocationRequest where
  virtaddr : UInt64
  sizeInBytes : UInt64
  pageSize : UInt64
  verifyContiguous : Bool
  deriving DecidableEq, Repr

/-- `AllocationRequest()` -/
def AllocationRequest.default : AllocationRequest := ⟨0, 0, 4096, false⟩

/-- `AllocationRequest(allocationRequestSizeInBytes)` -/
def AllocationRequest.ofSize (size : UInt64) : AllocationRequest := ⟨0, size, 4096, false⟩

/-- `VMMDLL_MemVirt2Phys`: the physical address, if the call succeeds. -/
abbrev Virt2Phys := UInt64 → Option UInt64

/-- `VirtToPhys` -/
def virtToPhys (virt2Phys : Virt2Phys) (vaddr : UInt64) : UInt64 :=
  (virt2Phys vaddr).getD UINT64_MAX

/-- The frame of a page that the scan does not skip. -/
def translated (virt2Phys : Virt2Phys) (vaddr : UInt64) : Option UInt64 :=
  (virt2Phys vaddr).filter (fun paddr => paddr ≠ UINT64_MAX)

/-- The variables of the loop over the pages. -/
structure RegionScan where
  maxRegion : PhysicalMemRegion
  currentRegion : PhysicalMemRegion
  deriving DecidableEq, Repr

/-- A translated page extends the current region or starts a new one. -/
def PhysicalMemRegion.extend (currentRegion : PhysicalMemRegion)
    (pageSize currvaddr currpaddr : UInt64) : PhysicalMemRegion :=
  if 0 < currentRegion.size ∧ currpaddr = currentRegion.paddr + currentRegion.size then
    { currentRegion with size := currentRegion.size + pageSize }
  else ⟨currvaddr, currpaddr, pageSize⟩

def RegionScan.visit (s : RegionScan) (pageSize currvaddr currpaddr : UInt64) : RegionScan :=
  let currentRegion := s.currentRegion.extend pageSize currvaddr currpaddr
  { currentRegion
    maxRegion := if s.maxRegion.size < currentRegion.size then currentRegion else s.maxRegion }

/-- The loop, from a given offset; `none` when the fuel runs out. -/
def scanRegion (virt2Phys : Virt2Phys) (vaddr vregionSizeBytes pageSize desiredSizeBytes : UInt64) :
    ℕ → UInt64 → RegionScan → Option RegionScan
  | 0, _, _ => none
  | fuel + 1, offset, s =>
    if offset < vregionSizeBytes then
      match translated virt2Phys (vaddr + offset) with
      | none => scanRegion virt2Phys vaddr vregionSizeBytes pageSize desiredSizeBytes fuel
          (offset + pageSize) { s with currentRegion := .empty }
      | some currpaddr =>
        let s := s.visit pageSize (vaddr + offset) currpaddr
        if 0 < desiredSizeBytes ∧ desiredSizeBytes ≤ s.maxRegion.size then some s
        else scanRegion virt2Phys vaddr vregionSizeBytes pageSize desiredSizeBytes fuel
          (offset + pageSize) s
    else some s

def findLargestPhysicalRegion (virt2Phys : Virt2Phys) (fuel : ℕ)
    (vaddr vregionSizeBytes vregionPageSizeBytes desiredSizeBytes : UInt64) :
    Option PhysicalMemRegion :=
  let desiredSizeBytes := if desiredSizeBytes = 0 then UINT64_MAX else desiredSizeBytes
  if desiredSizeBytes < vregionPageSizeBytes then some .empty
  else (scanRegion virt2Phys vaddr vregionSizeBytes vregionPageSizeBytes desiredSizeBytes fuel 0
    ⟨.empty, .empty⟩).map RegionScan.maxRegion

/-- The calls that obtain and release blocks, with the address obtained or released. -/
inductive HeapCall
  | virtualAlloc (result : UInt64)
  | virtualFree (address : UInt64)
  deriving DecidableEq, Repr

/-- What the system answers in the attempt with a given multiplier; `VirtualFree` succeeds. -/
structure Windows where
  getLargePageMinimum : UInt64
  availablePhysicalMemory : ℕ → UInt64
  virtualAlloc : ℕ → UInt64 → UInt64
  virt2Phys : ℕ → Virt2Phys

def memoryMultiplierBegin : ℕ := 5

def memoryMultiplierEnd : ℕ := 80

/-- The variables of the loop over the multipliers, and the calls so far. -/
structure Attempt where
  physMem : PhysicalMemRegion
  outVirtAddr : UInt64
  allocAttemptSize : UInt64
  failure : Bool
  calls : List HeapCall
  deriving DecidableEq, Repr

def Attempt.start : Attempt := ⟨.empty, 0, 0, true, []⟩

def allocAttemptSize (os : Windows) (memMul : ℕ) : UInt64 :=
  let size := UInt64.ofNat memMul * os.availablePhysicalMemory memMul / 100
  (size + os.getLargePageMinimum - 1) &&& ~~~(os.getLargePageMinimum - 1)

/-- The body of the loop; `none` where the process ends in it, or the scan needs more fuel. -/
def attempt (os : Windows) (fuel : ℕ) (sizeInBytes : UInt64) (memMul : ℕ)
    (calls : List HeapCall) : Option Attempt := do
  let size := allocAttemptSize os memMul
  let outVirtAddr := os.virtualAlloc memMul size
  -- the message about a failed allocation divides by the page size
  guard (outVirtAddr ≠ 0 ∨ os.getLargePageMinimum ≠ 0)
  let physMem ← findLargestPhysicalRegion (os.virt2Phys memMul) fuel outVirtAddr size
    os.getLargePageMinimum 0
  let failure : Bool := physMem.size < sizeInBytes
  let freed := if failure ∧ outVirtAddr ≠ 0 then [.virtualFree outVirtAddr] else []
  return {
    physMem
    outVirtAddr
    allocAttemptSize := size
    failure
    calls := calls ++ .virtualAlloc outVirtAddr :: freed }

/-- The loop over the multipliers that are left. -/
def attemptEach (os : Windows) (fuel : ℕ) (sizeInBytes : UInt64) :
    List ℕ → Attempt → Option Attempt
  | [], a => some a
  | memMul :: rest, a => do
    let a ← attempt os fuel sizeInBytes memMul a.calls
    if a.failure then attemptEach os fuel sizeInBytes rest a else return a

/-- The request and the region it hands back, and the calls it made. -/
structure LargePage where
  out : AllocationRequest
  memBegin : PhysicalMemRegion
  calls : List HeapCall
  deriving DecidableEq, Repr

def allocateLargePageMin (os : Windows) (fuel : ℕ) (out : AllocationRequest) :
    Option LargePage := do
  let a ← attemptEach os fuel out.sizeInBytes
    (List.range' memoryMultiplierBegin (memoryMultiplierEnd - memoryMultiplierBegin)) .start
  return {
    out := {
      virtaddr := if a.failure then 0 else a.outVirtAddr
      sizeInBytes := a.allocAttemptSize
      pageSize := os.getLargePageMinimum
      verifyContiguous := true }
    memBegin := a.physMem
    calls := a.calls }

/-- `freeLargePage` leaves the request as it is, its address included. -/
def freeLargePage (out : AllocationRequest) : List HeapCall :=
  if out.virtaddr = 0 then [] else [.virtualFree out.virtaddr]

end Tailslayer.Memory
