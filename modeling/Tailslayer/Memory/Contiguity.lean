import Tailslayer.Foundations.RoundUp
import Tailslayer.Memory.PhysicalRuns

/-! `verifyHugePageIsContiguous` accepts the ranges that `FindLargestPhysicalRegion` finds whole. -/
namespace Tailslayer.Memory

open RoundUp

variable {virt2Phys : Virt2Phys} {vaddr size page p q : UInt64} {N i j m fuel : ℕ}

/-- The loop over the remaining pages. Addresses are kept by the parity of their page, `true` for
the odd ones. -/
def verifyPages (virt2Phys : Virt2Phys) (vaddrBegin kMinimumBigPageSize : UInt64) :
    ℕ → ℕ → (Bool → UInt64) → Bool → Bool
  | 0, _, _, isContiguous => isContiguous
  | remaining + 1, lpageOffset, paddr, isContiguous =>
    let slot := lpageOffset % 2 == 1
    let translation := virt2Phys (vaddrBegin + kMinimumBigPageSize * UInt64.ofNat lpageOffset)
    let paddr := Function.update paddr slot (translation.getD UINT64_MAX)
    let isContiguous := isContiguous && paddr (!slot) + kMinimumBigPageSize == paddr slot
    if translation = none ∨ isContiguous = false then isContiguous
    else verifyPages virt2Phys vaddrBegin kMinimumBigPageSize remaining (lpageOffset + 1) paddr
      isContiguous

def verifyHugePageIsContiguous (initVMM : Bool) (virt2Phys : Virt2Phys)
    (kMinimumBigPageSize vaddrBegin sizeBytes : UInt64) : Bool :=
  if initVMM = false then false
  else
    let sizeBytes :=
      if sizeBytes % kMinimumBigPageSize ≠ 0 then
        (sizeBytes + kMinimumBigPageSize - 1) &&& ~~~(kMinimumBigPageSize - 1)
      else sizeBytes
    let pages := sizeBytes / kMinimumBigPageSize
    let translation := virt2Phys vaddrBegin
    verifyPages virt2Phys vaddrBegin kMinimumBigPageSize (pages.toNat - 1) 1
      (Function.update (fun _ => 0) false (translation.getD 0)) translation.isSome

theorem pageRun_succ {a : ℕ} : PageRun virt2Phys vaddr page i (m + 1) a ↔
    (virt2Phys (vaddr + UInt64.ofNat i * page)).map UInt64.toNat = some a ∧
      PageRun virt2Phys vaddr page (i + 1) m (a + page.toNat) := by
  constructor
  · intro h
    refine ⟨by simpa using h 0 m.succ_pos, ?_⟩
    intro k hk
    rw [Nat.add_assoc, Nat.add_comm 1 k, h (k + 1) (Nat.succ_lt_succ hk), Nat.succ_mul,
      Nat.add_assoc, Nat.add_comm page.toNat]
  · rintro ⟨hfirst, hrest⟩ k hk
    cases k with
    | zero => simpa using hfirst
    | succ k =>
      have hk := hrest k (Nat.lt_of_succ_lt_succ hk)
      rwa [Nat.add_assoc, Nat.add_comm 1 k, Nat.add_assoc, Nat.add_comm page.toNat,
        ← Nat.succ_mul] at hk

/-- A failure stays one: the first page failed, or the loop has left at a gap. -/
theorem verifyPages_false (paddr : Bool → UInt64) :
    verifyPages virt2Phys vaddr page m j paddr false = false := by
  cases m with
  | zero => rfl
  | succ m => simp [verifyPages]

theorem slot_succ (j : ℕ) : ((j + 1) % 2 == 1) = !(j % 2 == 1) := by
  rcases Nat.mod_two_eq_zero_or_one j with h | h
  · simp [h, Nat.add_mod]
  · simp [h, Nat.add_mod]

/-- The other slot holds the address of the page in front, so the loop looks for its successors. -/
theorem verifyPages_iff (h : AddressesFit virt2Phys) (hpage : page.toNat ≤ 2 ^ 63)
    {paddr : Bool → UInt64} (hq : paddr (!(j % 2 == 1)) = q) (hlt : q.toNat < 2 ^ 52) :
    verifyPages virt2Phys vaddr page m j paddr true = true ↔
      PageRun virt2Phys vaddr page j m (q.toNat + page.toNat) := by
  induction m generalizing j q paddr with
  | zero => exact iff_of_true rfl (fun k hk => absurd hk (Nat.not_lt_zero k))
  | succ m ih =>
    have hadd : (q + page).toNat = q.toNat + page.toNat := by
      rw [UInt64.toNat_add]
      omega
    have hkept : ∀ x, Function.update paddr (j % 2 == 1) x (!(j % 2 == 1)) = q := by
      intro x
      rw [Function.update_of_ne (Bool.not_ne_self _), hq]
    rw [pageRun_succ, verifyPages]
    simp only [hkept, Function.update_self, Bool.true_and, UInt64.mul_comm page]
    cases hv : virt2Phys (vaddr + UInt64.ofNat j * page) with
    | none =>
      -- no page in front of a gap lies one page below the sentinel
      have hne : ¬ q + page = UINT64_MAX := by
        intro he
        have hmax := congrArg UInt64.toNat he
        rw [hadd] at hmax
        change _ = 2 ^ 64 - 1 at hmax
        omega
      simp [hne]
    | some p =>
      have hfit := h _ _ hv
      have he : p.toNat = q.toNat + page.toNat ↔ q + page = p := by
        rw [← hadd, ← UInt64.toNat_inj]
        exact eq_comm
      by_cases hnext : q + page = p
      · have hslot : Function.update paddr (j % 2 == 1) p (!((j + 1) % 2 == 1)) = p := by
          rw [slot_succ, Bool.not_not, Function.update_self]
        have hrest := ih hslot hfit
        simp [hnext, hrest, ← hadd]
      · simp [hnext, he]

/-- Both ways to the number of pages round up. -/
theorem toNat_rounded {k : ℕ} (hp : page.toNat = 2 ^ k)
    (hfit : size.toNat + page.toNat ≤ 2 ^ 64) :
    (if size % page ≠ 0 then (size + page - 1) &&& ~~~(page - 1) else size).toNat =
      ceil page.toNat size.toNat := by
  split
  · exact toNat_ceil hp hfit
  · next hmod =>
    have hdvd : page.toNat ∣ size.toNat := by
      apply Nat.dvd_of_mod_eq_zero
      rw [← UInt64.toNat_mod, not_not.mp hmod]
      rfl
    exact (ceil_of_dvd (hp ▸ Nat.two_pow_pos k) hdvd).symm

/-- The check succeeds when the pages are one run. -/
theorem verifyHugePageIsContiguous_iff (h : AddressesFit virt2Phys) {k : ℕ}
    (hp : page.toNat = 2 ^ k) (hs : 0 < size) (hfit : size.toNat + page.toNat ≤ 2 ^ 64) :
    verifyHugePageIsContiguous true virt2Phys page vaddr size = true ↔
      ∃ a, PageRun virt2Phys vaddr page 0 (ceil page.toNat size.toNat / page.toNat) a := by
  have hpos : 0 < page.toNat := hp ▸ Nat.two_pow_pos k
  have hpage : page.toNat ≤ 2 ^ 63 := by
    have hk : k < 64 := (Nat.pow_lt_pow_iff_right (Nat.lt_succ_self 1)).mp (hp ▸ page.toNat_lt)
    rw [hp]
    exact Nat.pow_le_pow_right (by decide) (by omega)
  obtain ⟨m, hm⟩ : ∃ m, ceil page.toNat size.toNat / page.toNat = m + 1 := by
    have hle := (UInt64.lt_iff_toNat_lt.mp hs).trans_le (le_ceil hpos size.toNat)
    refine ⟨_, (Nat.succ_pred_eq_of_pos (Nat.div_pos ?_ hpos)).symm⟩
    exact Nat.le_of_dvd hle ⟨_, Nat.mul_comm _ _⟩
  simp only [verifyHugePageIsContiguous, Bool.true_eq_false, if_false, UInt64.toNat_div,
    toNat_rounded hp hfit, hm, Nat.add_sub_cancel]
  cases hv : virt2Phys vaddr with
  | none =>
    rw [Option.isSome_none, verifyPages_false]
    apply iff_of_false Bool.false_ne_true
    rintro ⟨a, hrun⟩
    have hfirst := hrun 0 m.succ_pos
    simp [hv] at hfirst
  | some q =>
    have hkept : Function.update (fun _ => (0 : UInt64)) false q (!((1 : ℕ) % 2 == 1)) = q := rfl
    rw [Option.isSome_some, Option.getD_some, verifyPages_iff h hpage hkept (h _ _ hv)]
    constructor
    · intro hrun
      exact ⟨q.toNat, pageRun_succ.mpr ⟨by simp [hv], hrun⟩⟩
    · rintro ⟨a, hrun⟩
      obtain ⟨hfirst, hrest⟩ := pageRun_succ.mp hrun
      have ha : q.toNat = a := by simpa [hv] using hfirst
      exact ha ▸ hrest

/-- The largest region is all of the block when its pages are one run. -/
theorem PhysicalMemRegion.Largest.size_eq_iff {r : PhysicalMemRegion}
    (h : r.Largest virt2Phys vaddr page N) (hsize : size.toNat = N * page.toNat)
    (hp : 0 < page.toNat) (hN : 0 < N) :
    r.size = size ↔ ∃ a, PageRun virt2Phys vaddr page 0 N a := by
  have hne : 0 < size.toNat := hsize ▸ Nat.mul_pos hN hp
  rw [← UInt64.toNat_inj]
  constructor
  · intro he
    have hr : r.size ≠ 0 := by
      intro h0
      rw [← he, h0] at hne
      cases hne
    obtain ⟨i, m, him, hcovers, -⟩ := h.first hr
    have hm : m = N := Nat.eq_of_mul_eq_mul_right hp (by rw [← hcovers.size, he, hsize])
    obtain rfl : i = 0 := by omega
    exact ⟨_, hm ▸ hcovers.pages⟩
  · rintro ⟨a, hrun⟩
    have hlong := h.longest 0 N a (Nat.zero_add N).le hrun
    have hr : r.size ≠ 0 := by
      intro h0
      rw [h0, ← hsize] at hlong
      exact absurd hlong (Nat.not_le.mpr hne)
    obtain ⟨i, m, him, hcovers, -⟩ := h.first hr
    have hshort : m * page.toNat ≤ N * page.toNat := Nat.mul_le_mul_right _ (by omega)
    rw [hsize]
    exact Nat.le_antisymm (hcovers.size ▸ hshort) hlong

/-- Whatever the start address, the check and the scan agree on the rounded range `whole`. -/
theorem contiguity_checks_agree (h : AddressesFit virt2Phys) {k : ℕ} (hp : page.toNat = 2 ^ k)
    (hs : 0 < size) (hfit : size.toNat + page.toNat ≤ 2 ^ 64) {whole : UInt64}
    (hwhole : whole.toNat = ceil page.toNat size.toNat)
    (hf : whole.toNat / page.toNat < fuel) :
    ∃ r, findLargestPhysicalRegion virt2Phys fuel vaddr whole page 0 = some r ∧
      (verifyHugePageIsContiguous true virt2Phys page vaddr size = true ↔ r.size = whole) ∧
      (r.size = whole ↔ ∃ a, PageRun virt2Phys vaddr page 0 (whole.toNat / page.toNat) a) := by
  have hpos : 0 < page.toNat := hp ▸ Nat.two_pow_pos k
  have hdvd : page.toNat ∣ whole.toNat := hwhole ▸ ⟨_, Nat.mul_comm _ _⟩
  have hpages : whole.toNat = whole.toNat / page.toNat * page.toNat :=
    (Nat.div_mul_cancel hdvd).symm
  have hle : 0 < whole.toNat := by
    rw [hwhole]
    exact (UInt64.lt_iff_toNat_lt.mp hs).trans_le (le_ceil hpos _)
  have hone : 0 < whole.toNat / page.toNat := Nat.div_pos (Nat.le_of_dvd hle hdvd) hpos
  have hlargest : (region vaddr page (pageScan virt2Phys vaddr page
      (whole.toNat / page.toNat)).best).Largest virt2Phys vaddr page _ :=
    largest_best h hpages hpos
  have hiff := hlargest.size_eq_iff hpages hpos hone
  refine ⟨_, findLargestPhysicalRegion_eq virt2Phys vaddr hpages hpos hf, ?_, hiff⟩
  rw [hiff, verifyHugePageIsContiguous_iff h hp hs hfit, hwhole]

/-- Two pages behind the gap, the second one cut short. -/
theorem contiguity_checks_agree_oneGap :
    ∃ r, findLargestPhysicalRegion oneGap 3 0x600000 0x400000 0x200000 0 = some r ∧
      (verifyHugePageIsContiguous true oneGap 0x200000 0x600000 0x3ff000 = true ↔
        r.size = 0x400000) ∧
      (r.size = 0x400000 ↔ ∃ a, PageRun oneGap 0x600000 0x200000 0 2 a) :=
  contiguity_checks_agree addressesFit_oneGap (k := 21) (by decide) (by decide) (by decide)
    (by decide) (by decide)

end Tailslayer.Memory
