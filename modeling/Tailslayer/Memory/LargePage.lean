import Tailslayer.Memory.LargePageMax

/-! `allocateLargePage`: one request for a block, with a second way to ask for it. -/
namespace Tailslayer.Memory

open Blocks RoundUp

/-- What the system answers to an allocation without attempts. -/
structure SingleWindows where
  getLargePageMinimum : UInt64
  virtualAlloc2 : UInt64 → UInt64
  virtualAlloc : UInt64 → UInt64

/-- The request keeps the size of the block; a page is said to have 1 GiB where `VirtualAlloc2`
succeeds. -/
def allocateLargePage (os : SingleWindows) (out : AllocationRequest) : LargePageMax :=
  let lPageSize := os.getLargePageMinimum
  let sizeInBytes := (out.sizeInBytes + lPageSize - 1) &&& ~~~(lPageSize - 1)
  let outVirtAddr := os.virtualAlloc2 sizeInBytes
  if outVirtAddr ≠ 0 then
    { out := { out with virtaddr := outVirtAddr, sizeInBytes, pageSize := hugePageSize }
      calls := [.virtualAlloc2 sizeInBytes outVirtAddr] }
  else
    let virtaddr := os.virtualAlloc sizeInBytes
    { out := { out with virtaddr, sizeInBytes, pageSize := lPageSize }
      calls := [.virtualAlloc2 sizeInBytes outVirtAddr, .virtualAlloc sizeInBytes virtaddr] }

/-- Large pages have a power of two as their size, or zero where they are not supported; and no
block is empty. -/
structure SingleWindows.Documented (os : SingleWindows) : Prop where
  pageSize : os.getLargePageMinimum = 0 ∨ ∃ k < 63, os.getLargePageMinimum.toNat = 2 ^ k
  notEmpty : os.virtualAlloc2 0 = 0 ∧ os.virtualAlloc 0 = 0

variable {os : SingleWindows} {out : AllocationRequest}

theorem allocateLargePage_size (os : SingleWindows) (out : AllocationRequest) :
    (allocateLargePage os out).out.sizeInBytes =
      (out.sizeInBytes + os.getLargePageMinimum - 1) &&& ~~~(os.getLargePageMinimum - 1) := by
  simp only [allocateLargePage]
  split <;> rfl

theorem obtained_allocateLargePage (os : SingleWindows) (out : AllocationRequest) :
    Obtained (allocateLargePage os out).calls (allocateLargePage os out).out.sizeInBytes
      (allocateLargePage os out).out.virtaddr := by
  simp only [allocateLargePage]
  split
  · exact Or.inl List.mem_cons_self
  · exact Or.inr (List.mem_cons_of_mem _ List.mem_cons_self)

/-- At most one block is obtained, that of the request. -/
theorem maxEvents_allocateLargePage (os : SingleWindows) (out : AllocationRequest) :
    maxEvents (allocateLargePage os out).calls =
      if (allocateLargePage os out).out.virtaddr = 0 then []
      else [.obtained (allocateLargePage os out).out.virtaddr] := by
  simp only [allocateLargePage]
  split
  · next hne => simp [maxEvents, MaxCall.event, hne]
  · next hnull =>
    rw [not_not] at hnull
    simp only [maxEvents, List.filterMap_cons, MaxCall.event, hnull, if_true, List.filterMap_nil]
    split
    · next he => simp_all
    · next he => simp_all

theorem replay_allocateLargePage (os : SingleWindows) (out : AllocationRequest) :
    replay ∅ (maxEvents (allocateLargePage os out).calls) =
      some (block (allocateLargePage os out).out.virtaddr) := by
  rw [maxEvents_allocateLargePage]
  by_cases h : (allocateLargePage os out).out.virtaddr = 0
  · simp [h, block]
  · simp [h, block]

/-- A block is never smaller than asked for. -/
theorem sound_allocateLargePage (h : os.Documented) (hsize : out.sizeInBytes.toNat ≤ 2 ^ 63) :
    (allocateLargePage os out).Sound out.sizeInBytes where
  live := replay_allocateLargePage os out
  size := fun _ => obtained_allocateLargePage os out
  enough := by
    intro hne
    rcases h.pageSize with hzero | ⟨k, hk, hpow⟩
    · -- without large pages the size is zero
      have hempty : (allocateLargePage os out).out.sizeInBytes = 0 := by
        rw [allocateLargePage_size, hzero]
        exact UInt64.and_zero
      have hnull : (allocateLargePage os out).out.virtaddr = 0 := by
        rw [allocateLargePage_size] at hempty
        simp only [allocateLargePage, hempty]
        split
        · next hne => exact absurd h.notEmpty.1 hne
        · exact h.notEmpty.2
      exact absurd hnull hne
    · have hle : (2 : ℕ) ^ k ≤ 2 ^ 62 := Nat.pow_le_pow_right (by decide) (by omega)
      rw [allocateLargePage_size, UInt64.le_iff_toNat_le, toNat_ceil hpow (by omega)]
      exact le_ceil (hpow ▸ Nat.two_pow_pos k) _

end Tailslayer.Memory
