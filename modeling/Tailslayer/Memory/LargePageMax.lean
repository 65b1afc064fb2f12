import Tailslayer.Foundations.BinaryDouble
import Tailslayer.Memory.Allocation

/-! `allocateLargePageMax`: what becomes of its blocks, and when they are large enough. -/
namespace Tailslayer.Memory

open Blocks RoundUp

/-- The calls that obtain blocks, with the size asked for, and those that release them. -/
inductive MaxCall
  | virtualAlloc2 (size result : UInt64)
  | virtualAlloc (size result : UInt64)
  | virtualFree (address : UInt64)
  deriving DecidableEq, Repr

/-- The first reading and `VirtualAlloc2`; the later ones are made with a multiplier. -/
structure HugeWindows extends Windows where
  availableAtFirst : UInt64
  virtualAlloc2 : UInt64 → UInt64

/-- 1 GiB -/
def hugePageSize : UInt64 := 1024 * 1024 * 1024

/-- The reading times the `double` nearest to 0.8, which is this number over `2 ^ 53`. -/
def timesFourFifths (available : UInt64) : UInt64 :=
  UInt64.ofNat (BinaryDouble.round (BinaryDouble.round available.toNat * 7205759403792794) /
    2 ^ 53)

def hugeAttemptSize (os : HugeWindows) : UInt64 :=
  (timesFourFifths os.availableAtFirst + hugePageSize - 1) &&& ~~~(hugePageSize - 1)

/-- The variables of the loop over the multipliers, and the calls so far. -/
structure Shrinking where
  outVirtAddr : UInt64
  allocAttemptSize : UInt64
  calls : List MaxCall
  deriving DecidableEq, Repr

/-- The loop: the multiplier is five times the number of steps that are left. -/
def attemptShrinking (os : HugeWindows) : ℕ → Shrinking → Shrinking
  | 0, s => s
  | steps + 1, s =>
    if s.outVirtAddr = 0 then
      let memoryMultiplier := 5 * (steps + 1)
      let size := allocAttemptSize os.toWindows memoryMultiplier
      let outVirtAddr := os.virtualAlloc memoryMultiplier size
      attemptShrinking os steps ⟨outVirtAddr, size, s.calls ++ [.virtualAlloc size outVirtAddr]⟩
    else s

/-- The request, and the calls made for it. -/
structure LargePageMax where
  out : AllocationRequest
  calls : List MaxCall
  deriving DecidableEq, Repr

/-- The second strategy, from the loop on. -/
def finishShrinking (os : HugeWindows) (out : AllocationRequest) (s : Shrinking) : LargePageMax :=
  let s := attemptShrinking os 17 s
  { out := { out with
      virtaddr := s.outVirtAddr
      sizeInBytes := s.allocAttemptSize
      pageSize := os.getLargePageMinimum }
    calls := s.calls }

def allocateLargePageMax (os : HugeWindows) (out : AllocationRequest) : LargePageMax :=
  let desiredAlloc := (out.sizeInBytes + hugePageSize - 1) &&& ~~~(hugePageSize - 1)
  let size := hugeAttemptSize os
  let outVirtAddr := os.virtualAlloc2 size
  if outVirtAddr ≠ 0 ∧ desiredAlloc ≤ size then
    { out := ⟨outVirtAddr, size, hugePageSize, false⟩
      calls := [.virtualAlloc2 size outVirtAddr] }
  else
    -- what is released is the address in the request, not the block just obtained
    let freed := if outVirtAddr ≠ 0 then [.virtualFree out.virtaddr] else []
    finishShrinking os out ⟨0, size, .virtualAlloc2 size outVirtAddr :: freed⟩

/-- A null address is never obtained, and `VirtualFree` of one fails. -/
def MaxCall.event : MaxCall → Option (Event UInt64)
  | .virtualAlloc2 _ result => if result = 0 then none else some (.obtained result)
  | .virtualAlloc _ result => if result = 0 then none else some (.obtained result)
  | .virtualFree address => if address = 0 then none else some (.released address)

def maxEvents (calls : List MaxCall) : List (Event UInt64) := calls.filterMap MaxCall.event

/-- The call obtained a block of this size at this address. -/
def Obtained (calls : List MaxCall) (size virtaddr : UInt64) : Prop :=
  .virtualAlloc2 size virtaddr ∈ calls ∨ .virtualAlloc size virtaddr ∈ calls

/-- Only the block of the request is live, only blocks obtained were released, and the request has
the size of its block, which is enough. -/
structure LargePageMax.Sound (l : LargePageMax) (wanted : UInt64) : Prop where
  live : replay ∅ (maxEvents l.calls) = some (block l.out.virtaddr)
  size : l.out.virtaddr ≠ 0 → Obtained l.calls l.out.sizeInBytes l.out.virtaddr
  enough : l.out.virtaddr ≠ 0 → wanted ≤ l.out.sizeInBytes

def HugeWindows.Obtains (os : HugeWindows) (memoryMultiplier : ℕ) : Prop :=
  os.virtualAlloc memoryMultiplier (allocAttemptSize os.toWindows memoryMultiplier) ≠ 0

/-- With this many of the steps left, `VirtualAlloc` succeeds for the first time. -/
structure HugeWindows.FirstObtained (os : HugeWindows) (steps j : ℕ) : Prop where
  pos : 0 < j
  le : j ≤ steps
  obtains : os.Obtains (5 * j)
  first : ∀ i, j < i → i ≤ steps → ¬ os.Obtains (5 * i)

/-- The block that is obtained first was asked for with the size that is wanted. -/
def HugeWindows.AsksEnough (os : HugeWindows) (wanted : UInt64) : Prop :=
  if os.virtualAlloc2 (hugeAttemptSize os) ≠ 0 then wanted ≤ hugeAttemptSize os
  else ∀ j, os.FirstObtained 17 j → wanted ≤ allocAttemptSize os.toWindows (5 * j)

variable {os : HugeWindows} {out : AllocationRequest} {wanted : UInt64} {s : Shrinking}
  {calls : List MaxCall} {j steps : ℕ}

/-! Sizes of the first attempt. -/

theorem toNat_hugePageSize : hugePageSize.toNat = 2 ^ 30 := rfl

/-- Four fifths of a reading leave room to round up. -/
theorem timesFourFifths_lt (available : UInt64) :
    (timesFourFifths available).toNat < 2 ^ 64 - 2 ^ 31 := by
  have hlt := available.toNat_lt
  have h₁ := BinaryDouble.round_le available.toNat
  have h₂ := BinaryDouble.round_le (BinaryDouble.round available.toNat * 7205759403792794)
  have hx : BinaryDouble.round (BinaryDouble.round available.toNat * 7205759403792794) / 2 ^ 53 <
      2 ^ 64 - 2 ^ 31 := by
    rw [Nat.div_lt_iff_lt_mul (by decide)]
    omega
  rw [timesFourFifths, UInt64.toNat_ofNat', Nat.mod_eq_of_lt (by omega)]
  exact hx

theorem toNat_hugeAttemptSize (os : HugeWindows) : (hugeAttemptSize os).toNat =
    ceil (2 ^ 30) (timesFourFifths os.availableAtFirst).toNat := by
  have hlt := timesFourFifths_lt os.availableAtFirst
  exact toNat_ceil toNat_hugePageSize (by rw [toNat_hugePageSize]; omega)

/-- The test of the first attempt accepts what is large enough; it also accepts requests that
overflow when they are rounded up. -/
theorem desiredAlloc_le (h : wanted ≤ hugeAttemptSize os) :
    (wanted + hugePageSize - 1) &&& ~~~(hugePageSize - 1) ≤ hugeAttemptSize os := by
  have hlt := timesFourFifths_lt os.availableAtFirst
  have hceil := ceil_lt (p := 2 ^ 30) (by decide) (timesFourFifths os.availableAtFirst).toNat
  rw [UInt64.le_iff_toNat_le, toNat_hugeAttemptSize] at h ⊢
  rw [toNat_ceil toNat_hugePageSize (by rw [toNat_hugePageSize]; omega), toNat_hugePageSize]
  exact ceil_le (by decide) (dvd_ceil _ _) h

/-! The loop over the multipliers. -/

theorem maxEvents_append (calls calls' : List MaxCall) :
    maxEvents (calls ++ calls') = maxEvents calls ++ maxEvents calls' :=
  List.filterMap_append

theorem attemptShrinking_of_obtained (h : s.outVirtAddr ≠ 0) :
    attemptShrinking os steps s = s := by
  cases steps with
  | zero => rfl
  | succ steps => rw [attemptShrinking, if_neg h]

/-- What the loop leaves: no block at all, or the first that was obtained. -/
inductive Shrunk (os : HugeWindows) (steps : ℕ) (s t : Shrinking) : Prop
  | none (h : t.outVirtAddr = 0) (hall : ∀ j, ¬ os.FirstObtained steps j)
      (hcalls : maxEvents t.calls = maxEvents s.calls)
  | first (j : ℕ) (hj : os.FirstObtained steps j)
      (hsize : t.allocAttemptSize = allocAttemptSize os.toWindows (5 * j))
      (haddr : t.outVirtAddr = os.virtualAlloc (5 * j) t.allocAttemptSize)
      (hmem : .virtualAlloc t.allocAttemptSize t.outVirtAddr ∈ t.calls)
      (hcalls : maxEvents t.calls = maxEvents s.calls ++ [.obtained t.outVirtAddr])

theorem HugeWindows.FirstObtained.unique {i j : ℕ} (hi : os.FirstObtained steps i)
    (hj : os.FirstObtained steps j) : i = j := by
  rcases Nat.lt_trichotomy i j with hlt | he | hlt
  · exact absurd hj.obtains (hi.first j hlt hj.le)
  · exact he
  · exact absurd hi.obtains (hj.first i hlt hi.le)

theorem firstObtained_succ (h : os.FirstObtained steps j) (hno : ¬ os.Obtains (5 * (steps + 1))) :
    os.FirstObtained (steps + 1) j := by
  refine ⟨h.pos, Nat.le_succ_of_le h.le, h.obtains, ?_⟩
  intro i hi hle
  rcases Nat.le_succ_iff.mp hle with hle | rfl
  · exact h.first i hi hle
  · exact hno

theorem not_firstObtained_succ (h : ∀ j, ¬ os.FirstObtained steps j)
    (hno : ¬ os.Obtains (5 * (steps + 1))) : ∀ j, ¬ os.FirstObtained (steps + 1) j := by
  intro j hj
  rcases Nat.le_succ_iff.mp hj.le with hle | rfl
  · exact h j ⟨hj.pos, hle, hj.obtains, fun i hi hle => hj.first i hi (Nat.le_succ_of_le hle)⟩
  · exact hno hj.obtains

theorem attemptShrinking_shrunk (h : s.outVirtAddr = 0) :
    Shrunk os steps s (attemptShrinking os steps s) := by
  induction steps generalizing s with
  | zero => exact .none h (fun j hj => absurd hj.pos (Nat.not_lt.mpr hj.le)) rfl
  | succ steps ih =>
    rw [attemptShrinking, if_pos h]
    by_cases ha : os.Obtains (5 * (steps + 1))
    · rw [attemptShrinking_of_obtained (by exact ha)]
      refine .first (steps + 1) ⟨Nat.succ_pos _, Nat.le_refl _, ha, ?_⟩ rfl rfl (by simp) ?_
      · intro i hi hle
        omega
      · rw [maxEvents_append]
        congr 1
        simp only [maxEvents, List.filterMap_cons, MaxCall.event, if_neg ha, List.filterMap_nil]
    · have hnull : os.virtualAlloc (5 * (steps + 1))
          (allocAttemptSize os.toWindows (5 * (steps + 1))) = 0 := not_not.mp ha
      have hsame : maxEvents (s.calls ++ [.virtualAlloc
          (allocAttemptSize os.toWindows (5 * (steps + 1))) 0]) = maxEvents s.calls := by
        rw [maxEvents_append]
        exact List.append_nil _
      simp only [hnull]
      cases ih (s := ⟨0, _, _⟩) rfl with
      | none h hall hcalls =>
        exact .none h (not_firstObtained_succ hall ha) (hcalls.trans hsame)
      | first j hj hsize haddr hmem hcalls =>
        exact .first j (firstObtained_succ hj ha) hsize haddr hmem (by rw [hcalls, hsame])

/-- A block that is neither released nor handed out stays live. -/
theorem replay_leaked (a b : UInt64) :
    replay ∅ [.obtained a] ≠ some (block 0) ∧
      replay ∅ ([.obtained a] ++ [.obtained b]) ≠ some (block b) := by
  constructor
  · simp [block]
  · rw [replay_append, replay_obtained, Option.bind_some]
    intro h
    by_cases hb : b ∈ ({a} : Finset UInt64)
    · simp [replay, step, hb] at h
    · simp only [replay, step, if_neg hb, List.foldlM_cons, List.foldlM_nil, Option.bind_eq_bind,
        Option.bind_some, Option.pure_def, Option.some.injEq] at h
      have hmem : a ∈ block b := h ▸ Finset.mem_insert_of_mem (Finset.mem_singleton_self a)
      unfold block at hmem
      split at hmem
      · exact Finset.notMem_empty a hmem
      · exact hb (Finset.mem_singleton.mpr (Finset.mem_singleton.mp hmem).symm)

/-- After a block that was not released, no outcome of the loop is sound. -/
theorem not_sound_finishShrinking {a : UInt64} (h : s.outVirtAddr = 0)
    (hcalls : maxEvents s.calls = [.obtained a]) : ¬ (finishShrinking os out s).Sound wanted := by
  intro hsound
  have hlive := hsound.live
  change replay ∅ (maxEvents (attemptShrinking os 17 s).calls) =
    some (block (attemptShrinking os 17 s).outVirtAddr) at hlive
  have hshrunk : Shrunk os 17 s (attemptShrinking os 17 s) := attemptShrinking_shrunk h
  cases hshrunk with
  | none hnull _ hsame =>
    rw [hsame, hcalls, hnull] at hlive
    exact (replay_leaked a 0).1 hlive
  | first j _ _ _ _ hmore =>
    rw [hmore, hcalls] at hlive
    exact (replay_leaked a _).2 hlive

/-- Where nothing is live yet, the loop is sound if its block is large enough. -/
theorem sound_finishShrinking_iff (h : s.outVirtAddr = 0) (hcalls : maxEvents s.calls = []) :
    (finishShrinking os out s).Sound wanted ↔
      ∀ j, os.FirstObtained 17 j → wanted ≤ allocAttemptSize os.toWindows (5 * j) := by
  have hshrunk : Shrunk os 17 s (attemptShrinking os 17 s) := attemptShrinking_shrunk h
  unfold finishShrinking
  generalize attemptShrinking os 17 s = t at hshrunk
  cases hshrunk with
  | none hnull hall hsame =>
    apply iff_of_true
    · refine ⟨?_, fun hne => absurd hnull hne, fun hne => absurd hnull hne⟩
      rw [hsame, hcalls]
      exact congrArg (fun a => some (block a)) hnull.symm
    · exact fun j hj => absurd hj (hall j)
  | first j hj hsize haddr hmem hmore =>
    have hne : t.outVirtAddr ≠ 0 := by
      rw [haddr, hsize]
      exact hj.obtains
    constructor
    · intro hsound i hi
      obtain rfl : i = j := hi.unique hj
      exact hsize ▸ hsound.enough hne
    · intro henough
      have hle := henough j hj
      rw [← hsize] at hle
      refine ⟨?_, fun _ => Or.inr hmem, fun _ => hle⟩
      rw [hmore, hcalls, List.nil_append, replay_obtained]
      exact congrArg some (if_neg hne).symm

/-- The first block is kept when it is accepted, and lost otherwise. -/
theorem sound_of_virtualAlloc2 (h0 : out.virtaddr = 0)
    (ha : os.virtualAlloc2 (hugeAttemptSize os) ≠ 0) :
    (allocateLargePageMax os out).Sound out.sizeInBytes ↔
      out.sizeInBytes ≤ hugeAttemptSize os := by
  unfold allocateLargePageMax
  by_cases hd : (out.sizeInBytes + hugePageSize - 1) &&& ~~~(hugePageSize - 1) ≤
      hugeAttemptSize os
  · rw [if_pos ⟨ha, hd⟩]
    constructor
    · intro h
      exact h.enough ha
    · intro hle
      refine ⟨?_, fun _ => Or.inl List.mem_cons_self, fun _ => hle⟩
      simp [maxEvents, MaxCall.event, ha, block]
  · rw [if_neg (fun h => hd h.2), if_pos ha, h0]
    apply iff_of_false _ (fun hle => hd (desiredAlloc_le hle))
    refine not_sound_finishShrinking (a := os.virtualAlloc2 (hugeAttemptSize os)) rfl ?_
    simp [maxEvents, MaxCall.event, ha]

/-- Without a first block the loop decides; it does not look at the size that is wanted. -/
theorem sound_of_virtualAlloc (ha : os.virtualAlloc2 (hugeAttemptSize os) = 0) :
    (allocateLargePageMax os out).Sound out.sizeInBytes ↔
      ∀ j, os.FirstObtained 17 j →
        out.sizeInBytes ≤ allocAttemptSize os.toWindows (5 * j) := by
  unfold allocateLargePageMax
  rw [if_neg (fun h => h.1 ha), if_neg (not_not.mpr ha), ha]
  exact sound_finishShrinking_iff rfl rfl

/-- Nothing is lost and enough is delivered just when the first block obtained is large enough. -/
theorem allocateLargePageMax_sound_iff (os : HugeWindows) (h0 : out.virtaddr = 0) :
    (allocateLargePageMax os out).Sound out.sizeInBytes ↔ os.AsksEnough out.sizeInBytes := by
  unfold HugeWindows.AsksEnough
  split
  · next ha => exact sound_of_virtualAlloc2 h0 ha
  · next ha => exact sound_of_virtualAlloc (not_not.mp ha)

/-- A machine with 16 GiB of available memory, of which the first attempt asks for 13. -/
def sixteenGiB : HugeWindows where
  getLargePageMinimum := 0x200000
  availablePhysicalMemory := fun _ => 0x400000000
  virtualAlloc := fun _ _ => 0
  virt2Phys := fun _ _ => none
  availableAtFirst := 0x400000000
  virtualAlloc2 := fun _ => 0x10000000000

theorem allocateLargePageMax_sound_iff_sixteenGiB :
    (allocateLargePageMax sixteenGiB (.ofSize 0x300000000)).Sound 0x300000000 ↔
      sixteenGiB.AsksEnough 0x300000000 :=
  allocateLargePageMax_sound_iff sixteenGiB rfl

/-- A request for all of it leaves the first block behind. -/
theorem not_sound_sixteenGiB : ¬ ∀ (os : HugeWindows) (out : AllocationRequest),
    out.virtaddr = 0 → (allocateLargePageMax os out).Sound out.sizeInBytes := by
  intro h
  have hlive := (h sixteenGiB (.ofSize 0x400000000) rfl).live
  revert hlive
  decide

end Tailslayer.Memory
