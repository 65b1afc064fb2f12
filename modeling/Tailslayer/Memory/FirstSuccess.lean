import Tailslayer.Memory.Allocation
import Tailslayer.Memory.PhysicalRuns

/-! `allocateLargePageMin` stops at the first multiplier whose block has a long enough run. -/
namespace Tailslayer.Memory

open Blocks

variable {os : Windows} {fuel memMul : ℕ} {wanted : UInt64} {out : AllocationRequest}
  {l : LargePage} {a a₀ : Attempt} {calls : List HeapCall}

/-- Translated addresses are physical ones, and an attempt without a block translates none. -/
structure Windows.TranslatesBlocks (os : Windows) : Prop where
  fit : ∀ memMul, AddressesFit (os.virt2Phys memMul)
  null : ∀ memMul, os.virtualAlloc memMul (allocAttemptSize os memMul) = 0 →
    ∀ v, os.virt2Phys memMul v = none

/-- The attempt obtains a block with a contiguous run of the size that is wanted. -/
def Windows.Succeeds (os : Windows) (wanted : UInt64) (memMul : ℕ) : Prop :=
  os.virtualAlloc memMul (allocAttemptSize os memMul) ≠ 0 ∧ ∃ i m p,
    (i + m) * os.getLargePageMinimum.toNat ≤ (allocAttemptSize os memMul).toNat ∧
    PageRun (os.virt2Phys memMul) (os.virtualAlloc memMul (allocAttemptSize os memMul))
      os.getLargePageMinimum i m p ∧
    wanted.toNat ≤ m * os.getLargePageMinimum.toNat

/-- The block of an attempt and the region in it are what the request is given. -/
structure LargePage.From (l : LargePage) (os : Windows) (wanted : UInt64) (memMul : ℕ) :
    Prop where
  size : l.out.sizeInBytes = allocAttemptSize os memMul
  address : l.out.virtaddr = os.virtualAlloc memMul (allocAttemptSize os memMul)
  inside : l.memBegin.Inside l.out.virtaddr l.out.sizeInBytes
  contiguous : ∃ i m, l.memBegin.Covers (os.virt2Phys memMul) l.out.virtaddr
    os.getLargePageMinimum i m
  enough : wanted ≤ l.memBegin.size

/-- The first attempt that succeeds decides, and only its block is left. -/
structure LargePage.FirstSuccess (l : LargePage) (os : Windows) (wanted : UInt64) : Prop where
  none : l.out.virtaddr = 0 ↔ ∀ memMul, memoryMultiplierBegin ≤ memMul →
    memMul < memoryMultiplierEnd → ¬ os.Succeeds wanted memMul
  first : l.out.virtaddr ≠ 0 → ∃ memMul, memoryMultiplierBegin ≤ memMul ∧
    memMul < memoryMultiplierEnd ∧ os.Succeeds wanted memMul ∧
    (∀ earlier, memoryMultiplierBegin ≤ earlier → earlier < memMul →
      ¬ os.Succeeds wanted earlier) ∧ l.From os wanted memMul
  live : replay ∅ (events l.calls) = some (block l.out.virtaddr)

theorem Windows.LargePages.size_eq (h : os.LargePages) (memMul : ℕ) :
    ∃ N, (allocAttemptSize os memMul).toNat = N * os.getLargePageMinimum.toNat := by
  obtain ⟨k, hk⟩ := h
  exact ⟨_, RoundUp.toNat_and_not_pred hk _⟩

/-- What the scan of an attempt's block finds. -/
theorem Attempted.largest (h : Attempted os fuel wanted memMul a) (hpage : os.LargePages)
    (htrans : os.TranslatesBlocks) {N : ℕ}
    (hN : (allocAttemptSize os memMul).toNat = N * os.getLargePageMinimum.toNat) :
    a.physMem.Largest (os.virt2Phys memMul) a.outVirtAddr os.getLargePageMinimum N := by
  have hscan := h.scan
  rw [h.size] at hscan
  rw [eq_best_of_scan hN hpage.pos hscan]
  exact largest_best (htrans.fit memMul) hN hpage.pos

/-- The test of the loop decides whether the attempt succeeds. -/
theorem Attempted.failure_iff (h : Attempted os fuel wanted memMul a) (hpage : os.LargePages)
    (htrans : os.TranslatesBlocks) (hw : 0 < wanted) :
    a.failure = true ↔ ¬ os.Succeeds wanted memMul := by
  obtain ⟨N, hN⟩ := hpage.size_eq memMul
  have hlargest := h.largest hpage htrans hN
  have haddr := h.address
  rw [h.failure, decide_eq_true_iff]
  constructor
  · rintro hsmall ⟨-, i, m, p, him, hrun, hlong⟩
    rw [hN] at him
    rw [← haddr] at hrun
    have hle := hlargest.longest i m p (Nat.le_of_mul_le_mul_right him hpage.pos) hrun
    exact absurd (UInt64.lt_iff_toNat_lt.mp hsmall) (Nat.not_lt.mpr (hlong.trans hle))
  · intro hnone
    by_contra hlarge
    have hle := UInt64.not_lt.mp hlarge
    have hne : a.physMem.size ≠ 0 := by
      intro h0
      rw [h0] at hle
      exact absurd (UInt64.lt_of_lt_of_le hw hle) (by decide)
    obtain ⟨i, m, him, hcovers, -⟩ := hlargest.first hne
    apply hnone
    refine ⟨?_, i, m, _, ?_, haddr ▸ hcovers.pages, ?_⟩
    · intro hnull
      exact hne (hlargest.empty.mpr (fun j _ => htrans.null memMul hnull _))
    · rw [hN]
      exact Nat.mul_le_mul_right _ him
    · rw [← hcovers.size]
      exact UInt64.le_iff_toNat_le.mp hle

/-- The loop ends with the first attempt that succeeds, or after all of them. -/
theorem attemptEach_find {muls : List ℕ} {P : ℕ → Bool} (hpage : os.LargePages)
    (htrans : os.TranslatesBlocks) (hw : 0 < wanted)
    (hP : ∀ memMul, P memMul = true ↔ os.Succeeds wanted memMul)
    (h : attemptEach os fuel wanted muls a₀ = some a) (hf : a₀.failure = true) :
    a.failure = true ∧ muls.find? P = none ∨
      a.failure = false ∧ ∃ memMul, Attempted os fuel wanted memMul a ∧
        muls.find? P = some memMul := by
  induction muls generalizing a₀ with
  | nil =>
    obtain rfl : a₀ = a := Option.some.inj h
    exact Or.inl ⟨hf, rfl⟩
  | cons memMul muls ih =>
    obtain ⟨a₁, hstep, hrest⟩ := Option.bind_eq_some_iff.mp h
    have hattempt := (attempt_spec hstep).1
    have hiff := hattempt.failure_iff hpage htrans hw
    rw [← hP] at hiff
    cases hfail : a₁.failure with
    | true =>
      rw [hfail] at hrest hiff
      rw [List.find?_cons_of_neg (hiff.mp rfl)]
      exact ih hrest hfail
    | false =>
      rw [hfail] at hrest hiff
      obtain rfl : a₁ = a := Option.some.inj hrest
      have hgood : P memMul = true := by
        by_contra hn
        exact Bool.false_ne_true (hiff.mpr hn)
      exact Or.inr ⟨hfail, memMul, hattempt, List.find?_cons_of_pos hgood⟩

/-- A request with an address was given what its attempt found. -/
theorem LargePage.Allocated.from (h : l.Allocated os fuel wanted) (hpage : os.LargePages)
    (hfit : os.BlocksFit) (htrans : os.TranslatesBlocks) (hw : 0 < wanted)
    (ha : Attempted os fuel wanted memMul a) (hne : l.out.virtaddr ≠ 0)
    (haddr : l.out.virtaddr = a.outVirtAddr) (hsize : l.out.sizeInBytes = a.allocAttemptSize)
    (hmem : l.memBegin = a.physMem) : l.From os wanted memMul := by
  obtain ⟨hlarge, hinside, -, -⟩ := h.region_spec (Or.inr hpage) hfit hw hne
  obtain ⟨N, hN⟩ := hpage.size_eq memMul
  have hpos : a.physMem.size ≠ 0 := by
    intro h0
    rw [hmem, h0] at hlarge
    exact absurd (UInt64.lt_of_lt_of_le hw hlarge) (by decide)
  obtain ⟨i, m, -, hcovers, -⟩ := (ha.largest hpage htrans hN).first hpos
  refine ⟨hsize.trans ha.size, haddr.trans ha.address, hinside, ⟨i, m, ?_⟩, hlarge⟩
  rw [hmem, haddr]
  exact hcovers

theorem allocateLargePageMin_firstSuccess (hpage : os.LargePages) (hfit : os.BlocksFit)
    (htrans : os.TranslatesBlocks) (hw : 0 < out.sizeInBytes) (hf : 2 ^ 64 < fuel) :
    ∃ l, allocateLargePageMin os fuel out = some l ∧ l.FirstSuccess os out.sizeInBytes := by
  classical
  obtain ⟨l, hl⟩ := allocateLargePageMin_returns hpage hf out
  have hall := allocated_allocateLargePageMin hl
  refine ⟨l, hl, ?_⟩
  obtain ⟨a, hloop, he⟩ := Option.bind_eq_some_iff.mp hl
  have hfind := attemptEach_find (P := fun memMul => decide (os.Succeeds out.sizeInBytes memMul))
    hpage htrans hw (fun memMul => decide_eq_true_iff) hloop rfl
  rcases hfind with ⟨hfail, hnone⟩ | ⟨hgood, memMul, ha, hfirst⟩
  · have hnull : l.out.virtaddr = 0 := by
      cases he
      exact if_pos hfail
    refine ⟨iff_of_true hnull ?_, fun hne => absurd hnull hne, hall.live⟩
    intro memMul hlo hhi
    simpa using List.find?_range'_eq_none.mp hnone memMul hlo hhi
  · obtain ⟨hsucc, hmem, hearlier⟩ := List.find?_range'_eq_some.mp hfirst
    have hsucc := of_decide_eq_true hsucc
    obtain ⟨hlo, hhi⟩ := List.mem_range'_1.mp hmem
    have haddr : l.out.virtaddr = a.outVirtAddr := by
      cases he
      exact if_neg (Bool.eq_false_iff.mp hgood)
    have hne : l.out.virtaddr ≠ 0 := by
      rw [haddr, ha.address]
      exact hsucc.1
    have hfrom : l.From os out.sizeInBytes memMul := by
      apply hall.from hpage hfit htrans hw ha hne haddr
      · cases he
        rfl
      · cases he
        rfl
    refine ⟨iff_of_false hne (fun hnone => hnone memMul hlo hhi hsucc), ?_, hall.live⟩
    intro _
    refine ⟨memMul, hlo, hhi, hsucc, ?_, hfrom⟩
    intro earlier hle hlt
    simpa using hearlier earlier hle hlt

/-- Only the block of the first attempt is mapped. -/
def fortyGiBMapped : Windows :=
  { fortyGiB onePiece with virt2Phys := fun memMul v => if memMul = 5 then onePiece v else none }

theorem addressesFit_onePiece : AddressesFit onePiece := by
  intro v p hv
  unfold onePiece at hv
  split at hv
  · cases hv
  · next hlo =>
    split at hv
    · next hhi =>
      obtain rfl := Option.some.inj hv
      have hlo := UInt64.le_iff_toNat_le.mp (UInt64.not_lt.mp hlo)
      have hhi := UInt64.lt_iff_toNat_lt.mp hhi
      rw [UInt64.toNat_sub_of_le v _ (UInt64.le_iff_toNat_le.mpr (Nat.le_trans (by decide) hlo))]
      exact (Nat.sub_le _ _).trans_lt (hhi.trans (by decide))
    · cases hv

theorem translatesBlocks_fortyGiBMapped : fortyGiBMapped.TranslatesBlocks where
  fit := by
    intro memMul v p hv
    have hv : (if memMul = 5 then onePiece v else none) = some p := hv
    split at hv
    · exact addressesFit_onePiece v p hv
    · cases hv
  null := by
    intro memMul hnull v
    change (if memMul = 5 then onePiece v else none) = none
    split
    · next he =>
      subst he
      exact absurd hnull (by decide)
    · rfl

theorem allocateLargePageMin_firstSuccess_fortyGiB :
    ∃ l, allocateLargePageMin fortyGiBMapped (2 ^ 64 + 1) (.ofSize 0x40000000) = some l ∧
      l.FirstSuccess fortyGiBMapped 0x40000000 :=
  allocateLargePageMin_firstSuccess ⟨21, rfl⟩ (blocksFit_fortyGiB onePiece)
    translatesBlocks_fortyGiBMapped (by decide) (Nat.lt_succ_self _)

end Tailslayer.Memory
