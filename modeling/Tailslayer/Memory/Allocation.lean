import Tailslayer.Foundations.Blocks
import Tailslayer.Foundations.RoundUp
import Tailslayer.Memory.LargestRegion

/-! What `allocateLargePageMin` hands out, and what becomes of the blocks of its attempts. -/
namespace Tailslayer.Memory

open Blocks

variable {os : Windows} {fuel memMul : ℕ} {wanted : UInt64} {out : AllocationRequest}
  {l : LargePage} {a a₀ : Attempt} {calls : List HeapCall}

/-- Large pages have a power of two as their size, or zero where they are not supported. -/
def Windows.PageSizeDocumented (os : Windows) : Prop :=
  os.getLargePageMinimum = 0 ∨ ∃ k, os.getLargePageMinimum.toNat = 2 ^ k

/-- Large pages are supported: their size is a power of two. -/
def Windows.LargePages (os : Windows) : Prop := ∃ k, os.getLargePageMinimum.toNat = 2 ^ k

/-- Blocks end within the address space. -/
def Windows.BlocksFit (os : Windows) : Prop :=
  ∀ memMul size, os.virtualAlloc memMul size ≠ 0 →
    (os.virtualAlloc memMul size).toNat + size.toNat ≤ 2 ^ 64

/-- A call that obtains nothing is no event. -/
def HeapCall.event : HeapCall → Option (Event UInt64)
  | .virtualAlloc result => if result = 0 then none else some (.obtained result)
  | .virtualFree address => some (.released address)

def events (calls : List HeapCall) : List (Event UInt64) := calls.filterMap HeapCall.event

/-- The blocks behind an address. -/
def block (virtaddr : UInt64) : Finset UInt64 := if virtaddr = 0 then ∅ else {virtaddr}

theorem events_append (calls calls' : List HeapCall) :
    events (calls ++ calls') = events calls ++ events calls' :=
  List.filterMap_append

theorem replay_virtualAlloc (result : UInt64) :
    replay ∅ (events [.virtualAlloc result]) = some (block result) := by
  by_cases h : result = 0
  · subst h
    rfl
  · simp [events, HeapCall.event, block, h]

theorem replay_freeLargePage (out : AllocationRequest) :
    replay (block out.virtaddr) (events (freeLargePage out)) = some ∅ := by
  by_cases h : out.virtaddr = 0
  · simp [freeLargePage, block, h, events]
  · simp [freeLargePage, block, h, events, HeapCall.event]

/-! The size of an attempt is a number of large pages. -/

theorem allocAttemptSize_cases (h : os.PageSizeDocumented) (memMul : ℕ) :
    allocAttemptSize os memMul = 0 ∨ 0 < os.getLargePageMinimum.toNat ∧
      ∃ N, (allocAttemptSize os memMul).toNat = N * os.getLargePageMinimum.toNat := by
  rcases h with h | ⟨k, hk⟩
  · left
    rw [allocAttemptSize, h]
    exact UInt64.and_zero
  · right
    exact ⟨hk ▸ Nat.two_pow_pos k, _, RoundUp.toNat_and_not_pred hk _⟩

/-! One attempt, and the loop over the attempts. -/

/-- The loop variables after the attempt with a given multiplier. -/
structure Attempted (os : Windows) (fuel : ℕ) (wanted : UInt64) (memMul : ℕ) (a : Attempt) :
    Prop where
  size : a.allocAttemptSize = allocAttemptSize os memMul
  address : a.outVirtAddr = os.virtualAlloc memMul (allocAttemptSize os memMul)
  scan : findLargestPhysicalRegion (os.virt2Phys memMul) fuel a.outVirtAddr a.allocAttemptSize
    os.getLargePageMinimum 0 = some a.physMem
  failure : a.failure = decide (a.physMem.size < wanted)

theorem attempt_spec (h : attempt os fuel wanted memMul calls = some a) :
    Attempted os fuel wanted memMul a ∧ a.calls = calls ++ .virtualAlloc a.outVirtAddr ::
      if a.failure ∧ a.outVirtAddr ≠ 0 then [.virtualFree a.outVirtAddr] else [] := by
  obtain ⟨-, -, h⟩ := Option.bind_eq_some_iff.mp h
  obtain ⟨physMem, hscan, he⟩ := Option.bind_eq_some_iff.mp h
  cases he
  exact ⟨⟨rfl, rfl, hscan, rfl⟩, rfl⟩

/-- An attempt leaves the block it found good, and releases any other. -/
theorem replay_attempt (h : attempt os fuel wanted memMul calls = some a)
    (hc : replay ∅ (events calls) = some ∅) : replay ∅ (events a.calls) =
      some (if a.failure then ∅ else block a.outVirtAddr) := by
  obtain ⟨-, hcalls⟩ := attempt_spec h
  have hsplit : a.calls = calls ++ ([.virtualAlloc a.outVirtAddr] ++
      if a.failure ∧ a.outVirtAddr ≠ 0 then [.virtualFree a.outVirtAddr] else []) := hcalls
  rw [hsplit, events_append, replay_append, hc, Option.bind_some, events_append, replay_append,
    replay_virtualAlloc, Option.bind_some]
  by_cases ha : a.outVirtAddr = 0
  · simp [ha, block, events]
  · cases hf : a.failure with
    | false => simp [events]
    | true => simp [ha, block, events, HeapCall.event]

/-- What holds of the loop variables at the end: no attempt was good, or the last one was. -/
structure Finished (os : Windows) (fuel : ℕ) (wanted : UInt64) (a : Attempt) : Prop where
  live : replay ∅ (events a.calls) = some (if a.failure then ∅ else block a.outVirtAddr)
  good : a.failure = false → ∃ memMul, Attempted os fuel wanted memMul a

theorem finished_attemptEach {muls : List ℕ} (h : attemptEach os fuel wanted muls a₀ = some a)
    (hf : a₀.failure = true) (hc : replay ∅ (events a₀.calls) = some ∅) :
    Finished os fuel wanted a := by
  induction muls generalizing a₀ with
  | nil =>
    obtain rfl : a₀ = a := Option.some.inj h
    refine ⟨by rw [hc, hf]; rfl, ?_⟩
    intro hgood
    rw [hf] at hgood
    cases hgood
  | cons memMul muls ih =>
    obtain ⟨a₁, hstep, hrest⟩ := Option.bind_eq_some_iff.mp h
    have hlive := replay_attempt hstep hc
    cases hfail : a₁.failure with
    | true =>
      rw [hfail] at hlive hrest
      exact ih hrest hfail hlive
    | false =>
      rw [hfail] at hrest
      obtain rfl : a₁ = a := Option.some.inj hrest
      exact ⟨hlive, fun _ => ⟨memMul, (attempt_spec hstep).1⟩⟩

/-- What `allocateLargePageMin` returns. -/
structure LargePage.Allocated (os : Windows) (fuel : ℕ) (wanted : UInt64) (l : LargePage) :
    Prop where
  live : replay ∅ (events l.calls) = some (block l.out.virtaddr)
  pageSize : l.out.pageSize = os.getLargePageMinimum
  good : l.out.virtaddr ≠ 0 → ∃ memMul,
    l.out.sizeInBytes = allocAttemptSize os memMul ∧
    l.out.virtaddr = os.virtualAlloc memMul (allocAttemptSize os memMul) ∧
    findLargestPhysicalRegion (os.virt2Phys memMul) fuel l.out.virtaddr l.out.sizeInBytes
      os.getLargePageMinimum 0 = some l.memBegin ∧
    wanted ≤ l.memBegin.size

theorem allocated_allocateLargePageMin (h : allocateLargePageMin os fuel out = some l) :
    l.Allocated os fuel out.sizeInBytes := by
  obtain ⟨a, hloop, he⟩ := Option.bind_eq_some_iff.mp h
  have hfin := finished_attemptEach hloop rfl rfl
  cases he
  cases hf : a.failure with
  | true =>
    refine ⟨?_, rfl, ?_⟩
    · rw [hfin.live, hf]
      rfl
    · intro hne
      exact absurd rfl hne
  | false =>
    obtain ⟨memMul, ha⟩ := hfin.good hf
    refine ⟨?_, rfl, ?_⟩
    · rw [hfin.live, hf]
      rfl
    · intro _
      refine ⟨memMul, ha.size, ha.address, ha.scan, ?_⟩
      have hsmall := ha.failure
      rw [hf] at hsmall
      exact UInt64.not_lt.mp (of_decide_eq_false hsmall.symm)

/-- The block was scanned page by page: its region is contiguous and lies inside of it. -/
theorem LargePage.Allocated.region_spec (h : l.Allocated os fuel wanted)
    (hpage : os.PageSizeDocumented) (hfit : os.BlocksFit) (hw : 0 < wanted)
    (hne : l.out.virtaddr ≠ 0) :
    wanted ≤ l.memBegin.size ∧ l.memBegin.Inside l.out.virtaddr l.out.sizeInBytes ∧
      l.out.virtaddr.toNat + l.out.sizeInBytes.toNat ≤ 2 ^ 64 ∧
      ∃ memMul, l.memBegin.Contiguous (os.virt2Phys memMul) l.out.pageSize ∧
        (l.out.sizeInBytes ≤ l.memBegin.size ↔ BlockContiguous (os.virt2Phys memMul)
          l.out.virtaddr l.out.sizeInBytes l.out.pageSize) := by
  obtain ⟨memMul, hsize, haddr, hscan, hlarge⟩ := h.good hne
  have hmem : l.memBegin.size ≠ 0 := by
    intro h0
    rw [h0] at hlarge
    exact absurd (UInt64.lt_of_lt_of_le hw hlarge) (by decide)
  rcases allocAttemptSize_cases hpage memMul with hzero | ⟨hp, N, hN⟩
  · rw [hsize, hzero] at hscan
    rw [eq_empty_of_scan hscan] at hmem
    exact absurd rfl hmem
  · rw [← hsize] at hN
    have hblock : l.out.virtaddr.toNat + l.out.sizeInBytes.toNat ≤ 2 ^ 64 := by
      rw [hsize, haddr]
      exact hfit _ _ (haddr ▸ hne)
    refine ⟨hlarge, ?_⟩
    rw [eq_best_of_scan hN hp hscan] at hmem ⊢
    rw [h.pageSize]
    exact ⟨inside_best hN hp hblock hmem, hblock, memMul, contiguous_best hN hp,
      size_le_best_iff hN hp⟩

/-! With enough fuel the scans, and with them the allocation, come to an end. -/

theorem Windows.LargePages.pos (h : os.LargePages) : 0 < os.getLargePageMinimum.toNat := by
  obtain ⟨k, hk⟩ := h
  exact hk ▸ Nat.two_pow_pos k

theorem attempt_returns (hpage : os.LargePages) (hf : 2 ^ 64 < fuel) (memMul : ℕ)
    (calls : List HeapCall) : ∃ a, attempt os fuel wanted memMul calls = some a := by
  have hne : os.getLargePageMinimum ≠ 0 := by
    intro hzero
    have hpos := hpage.pos
    rw [hzero] at hpos
    cases hpos
  have hscan : ∃ r, findLargestPhysicalRegion (os.virt2Phys memMul) fuel
      (os.virtualAlloc memMul (allocAttemptSize os memMul)) (allocAttemptSize os memMul)
      os.getLargePageMinimum 0 = some r := by
    rcases allocAttemptSize_cases (Or.inr hpage) memMul with hzero | ⟨hp, N, hN⟩
    · rw [hzero]
      exact ⟨_, findLargestPhysicalRegion_of_empty _ _ _ (by omega)⟩
    · have hle : N ≤ N * os.getLargePageMinimum.toNat := Nat.le_mul_of_pos_right N hp
      have hlt := (allocAttemptSize os memMul).toNat_lt
      exact ⟨_, findLargestPhysicalRegion_eq _ _ hN hp (by omega)⟩
  obtain ⟨r, hr⟩ := hscan
  refine ⟨_, Option.bind_eq_some_iff.mpr ⟨(), ?_, Option.bind_eq_some_iff.mpr ⟨r, hr, rfl⟩⟩⟩
  exact if_pos (Or.inr hne)

theorem allocateLargePageMin_returns (hpage : os.LargePages) (hf : 2 ^ 64 < fuel)
    (out : AllocationRequest) : ∃ l, allocateLargePageMin os fuel out = some l := by
  have hloop : ∀ muls a₀, ∃ a, attemptEach os fuel out.sizeInBytes muls a₀ = some a := by
    intro muls
    induction muls with
    | nil => exact fun a₀ => ⟨a₀, rfl⟩
    | cons memMul muls ih =>
      intro a₀
      obtain ⟨a, ha⟩ := attempt_returns hpage hf memMul a₀.calls
      obtain ⟨a', ha'⟩ := ih a
      rw [attemptEach, ha]
      cases hfail : a.failure with
      | true => exact ⟨a', by simpa [hfail] using ha'⟩
      | false => exact ⟨a, by simp [hfail]⟩
  obtain ⟨a, ha⟩ := hloop _ .start
  exact ⟨_, Option.bind_eq_some_iff.mpr ⟨a, ha, rfl⟩⟩

/-- A machine with 40 GiB of available memory and pages of 2 MiB, whose first attempt obtains 2 GiB
at 1 TiB. -/
def fortyGiB (virt2Phys : Virt2Phys) : Windows where
  getLargePageMinimum := 0x200000
  availablePhysicalMemory := fun _ => 42949672960
  virtualAlloc := fun memMul size =>
    if memMul = 5 ∧ size = 0x80000000 then 0x10000000000 else 0
  virt2Phys := fun _ => virt2Phys

theorem blocksFit_fortyGiB (virt2Phys : Virt2Phys) : (fortyGiB virt2Phys).BlocksFit := by
  intro memMul size hne
  simp only [fortyGiB] at hne ⊢
  split at hne
  · next h =>
    rw [if_pos h, h.2]
    decide
  · exact absurd rfl hne

theorem pageSizeDocumented_fortyGiB (virt2Phys : Virt2Phys) :
    (fortyGiB virt2Phys).PageSizeDocumented := Or.inr ⟨21, rfl⟩

/-- The two halves of the block lie apart in physical memory. -/
def twoPieces (vaddr : UInt64) : Option UInt64 :=
  if vaddr < 0x10000000000 then none
  else if vaddr < 0x10040000000 then some (vaddr - 0xff00000000)
  else if vaddr < 0x10080000000 then some (vaddr - 0xfc00000000)
  else none

def onePiece (vaddr : UInt64) : Option UInt64 :=
  if vaddr < 0x10000000000 then none
  else if vaddr < 0x10080000000 then some (vaddr - 0xff00000000)
  else none

end Tailslayer.Memory
