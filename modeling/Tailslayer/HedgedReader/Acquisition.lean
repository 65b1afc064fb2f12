import Tailslayer.HedgedReader.Builds
import Tailslayer.HedgedReader.Placement
import Tailslayer.Memory.Allocation

/-! `setup_memory` on Windows: the allocation, the second scan, and when they agree. -/
namespace Tailslayer.HedgedReader

open Memory

/-- The region on which the replicas go, if `setup_memory` gets that far. -/
structure Acquired where
  region : Option PhysicalMemRegion
  alloc : AllocationRequest
  calls : List HeapCall
  deriving DecidableEq, Repr

/-- The request for one page of the reader. -/
def pageRequest : AllocationRequest := { AllocationRequest.default with
  sizeInBytes := kHUGEPAGE_SIZE }

/-- `setup_memory` up to the pointers; `rescan` answers the scan that follows the allocation. -/
def acquireMemory (os : Windows) (fuel : ℕ) (privileged : Bool) (rescan : Virt2Phys) :
    Option Acquired :=
  if privileged = false then some ⟨none, pageRequest, []⟩
  else do
    let l ← allocateLargePageMin os fuel pageRequest
    if l.out.virtaddr = 0 then return ⟨none, l.out, l.calls⟩
    else
      let region ← findLargestPhysicalRegion rescan fuel l.out.virtaddr l.out.sizeInBytes
        l.out.pageSize 0
      -- `sizeInBytes` now is the size of the whole block, no longer that of the request
      if region.size < l.out.sizeInBytes then
        return ⟨none, l.out, l.calls ++ freeLargePage l.out⟩
      else return ⟨some region, l.out, l.calls⟩

variable {cfg : Config}

def setupMemoryOn (os : Windows) (fuel : ℕ) (privileged : Bool) (rescan : Virt2Phys)
    (r : HedgedReader cfg) (mem : ByteMemory) : Option (Bool × HedgedReader cfg × ByteMemory) :=
  (acquireMemory os fuel privileged rescan).map (fun a =>
    r.setupMemory (a.region.map (fun region => region.vaddr.toNat)) mem)

/-- The page of the reader is a contiguous region of the block, large enough for the reader. -/
def SetsUpPage (os : Windows) (fuel : ℕ) (virt2Phys : Virt2Phys) (block : AllocationRequest)
    (r : HedgedReader cfg) (mem : ByteMemory) : Prop :=
  ∃ (r' : HedgedReader cfg) (mem' : ByteMemory) (region : PhysicalMemRegion),
    setupMemoryOn os fuel true virt2Phys r mem = some (true, r', mem') ∧
    r'.replicaPage = region.vaddr.toNat ∧ kHUGEPAGE_SIZE ≤ region.size ∧
    region.Contiguous virt2Phys block.pageSize ∧
    region.Inside block.virtaddr block.sizeInBytes

variable {os : Windows} {fuel : ℕ} {virt2Phys : Virt2Phys} {l : LargePage}
  {r : HedgedReader cfg} {mem : ByteMemory}

/-- The second scan repeats the one that ended the allocation, so it finds the same region. -/
theorem acquireMemory_eq (hsame : ∀ memMul, os.virt2Phys memMul = virt2Phys)
    (hl : allocateLargePageMin os fuel pageRequest = some l) (hne : l.out.virtaddr ≠ 0) :
    acquireMemory os fuel true virt2Phys =
      if l.memBegin.size < l.out.sizeInBytes then
        some ⟨none, l.out, l.calls ++ freeLargePage l.out⟩
      else some ⟨some l.memBegin, l.out, l.calls⟩ := by
  have ha := allocated_allocateLargePageMin hl
  obtain ⟨memMul, -, -, hscan, -⟩ := ha.good hne
  rw [hsame, ← ha.pageSize] at hscan
  simp only [acquireMemory, hl, Option.bind_eq_bind, Option.bind_some, hne, hscan, if_false,
    Bool.true_eq_false]
  rfl

/-- The page is given up where the found region is smaller than the block. -/
theorem not_setsUpPage (hsame : ∀ memMul, os.virt2Phys memMul = virt2Phys)
    (hl : allocateLargePageMin os fuel pageRequest = some l) (hne : l.out.virtaddr ≠ 0)
    (hsmall : l.memBegin.size < l.out.sizeInBytes) :
    ¬ SetsUpPage os fuel virt2Phys l.out r mem := by
  rintro ⟨r', mem', region, hsetup, -⟩
  obtain ⟨acquired, hacq, hres⟩ := Option.map_eq_some_iff.mp hsetup
  rw [acquireMemory_eq hsame hl hne, if_pos hsmall] at hacq
  cases hacq
  cases hres

/-- A found page is set up exactly when the whole block is contiguous, which nobody asked for. -/
theorem setsUpPage_iff (hpage : os.PageSizeDocumented) (hfit : os.BlocksFit)
    (hsame : ∀ memMul, os.virt2Phys memMul = virt2Phys)
    (hl : allocateLargePageMin os fuel pageRequest = some l) (hne : l.out.virtaddr ≠ 0) :
    SetsUpPage os fuel virt2Phys l.out r mem ↔
      BlockContiguous virt2Phys l.out.virtaddr l.out.sizeInBytes l.out.pageSize := by
  have ha := allocated_allocateLargePageMin hl
  obtain ⟨hlarge, hinside, -, memMul, hcontiguous, hwhole⟩ :=
    ha.region_spec hpage hfit (by decide) hne
  rw [hsame] at hcontiguous hwhole
  rw [← hwhole]
  constructor
  · intro hsets
    by_contra hsmall
    exact not_setsUpPage hsame hl hne (UInt64.not_le.mp hsmall) hsets
  · intro hle
    have heq := acquireMemory_eq hsame hl hne
    rw [if_neg (UInt64.not_lt.mpr hle)] at heq
    refine ⟨(r.setupMemory (some l.memBegin.vaddr.toNat) mem).2.1,
      (r.setupMemory (some l.memBegin.vaddr.toNat) mem).2.2, l.memBegin, ?_, rfl, hlarge,
      hcontiguous, hinside⟩
    rw [setupMemoryOn, heq]
    rfl

/-- Two gigabytes, of which the second half lies elsewhere in physical memory. -/
def twoGiB : LargePage where
  out := ⟨0x10000000000, 0x80000000, 0x200000, true⟩
  memBegin := ⟨0x10000000000, 0x100000000, 0x40000000⟩
  calls := [.virtualAlloc 0x10000000000]

theorem allocateLargePageMin_twoPieces :
    allocateLargePageMin (fortyGiB twoPieces) 1025 pageRequest = some twoGiB := by
  decide +kernel

/-- A reader that has no memory yet. -/
def freshReader : HedgedReader defaultConfig :=
  unsetReader ⟨536870912, 8, 255, 512⟩ ⟨#[1, 2], rfl⟩

theorem setsUpPage_iff_twoPieces :
    SetsUpPage (fortyGiB twoPieces) 1025 twoPieces twoGiB.out freshReader (fun _ => 0) ↔
      BlockContiguous twoPieces twoGiB.out.virtaddr twoGiB.out.sizeInBytes twoGiB.out.pageSize :=
  setsUpPage_iff (pageSizeDocumented_fortyGiB _) (blocksFit_fortyGiB _) (fun _ => rfl)
    allocateLargePageMin_twoPieces (by decide)

theorem not_found_setsUpPage : ¬ ∀ (os : Windows) (fuel : ℕ) (virt2Phys : Virt2Phys)
    (l : LargePage) (cfg : Config) (r : HedgedReader cfg) (mem : ByteMemory),
    os.PageSizeDocumented → os.BlocksFit → (∀ memMul, os.virt2Phys memMul = virt2Phys) →
    allocateLargePageMin os fuel pageRequest = some l → l.out.virtaddr ≠ 0 →
    SetsUpPage os fuel virt2Phys l.out r mem := by
  intro h
  have hsets := h (fortyGiB twoPieces) 1025 twoPieces twoGiB defaultConfig freshReader (fun _ => 0)
    (pageSizeDocumented_fortyGiB _) (blocksFit_fortyGiB _) (fun _ => rfl)
    allocateLargePageMin_twoPieces (by decide)
  exact not_setsUpPage (fun _ => rfl) allocateLargePageMin_twoPieces (by decide) (by decide) hsets

end Tailslayer.HedgedReader
