import Tailslayer.Memory.Allocation

/-! Large pages that are moved as a whole: where every byte of a region is in physical memory. -/
namespace Tailslayer.Memory

open LongestRun

variable {os : Windows} {virt2Phys : Virt2Phys} {l : LargePage} {r : PhysicalMemRegion}
  {vaddr size page wanted : UInt64} {fuel d memMul N : ℕ} {muls : List ℕ} {a a₀ : Attempt}
  {out : AllocationRequest}

/-- Frames start at multiples of the page size, and what follows in a page follows in its frame. -/
structure PagesWhole (virt2Phys : Virt2Phys) (page : UInt64) : Prop where
  frame : ∀ v p, page.toNat ∣ v.toNat → virt2Phys v = some p → page.toNat ∣ p.toNat
  offset : ∀ v p, page.toNat ∣ v.toNat → virt2Phys v = some p →
    ∀ d < page, virt2Phys (v + d) = some (p + d)

/-- Blocks start on a page. -/
def Windows.BlocksAligned (os : Windows) : Prop :=
  ∀ memMul size, os.getLargePageMinimum.toNat ∣ (os.virtualAlloc memMul size).toNat

/-- The attempt with which the loop ends: the first one that does not fail. -/
structure Windows.StopsAt (os : Windows) (fuel : ℕ) (wanted : UInt64) (memMul : ℕ) : Prop where
  lower : memoryMultiplierBegin ≤ memMul
  upper : memMul < memoryMultiplierEnd
  good : ∃ a, Attempted os fuel wanted memMul a ∧ a.failure = false
  earlier : ∀ m, memoryMultiplierBegin ≤ m → m < memMul →
    ∃ a, Attempted os fuel wanted m a ∧ a.failure = true

/-- The region is one piece of physical memory, byte by byte, from the beginning of a page on. -/
structure PhysicalMemRegion.OnePiece (r : PhysicalMemRegion) (virt2Phys : Virt2Phys)
    (page : UInt64) : Prop where
  bytes : ∀ d : ℕ, d < r.size.toNat →
    virt2Phys (r.vaddr + UInt64.ofNat d) = some (r.paddr + UInt64.ofNat d)
  frame : page.toNat ∣ r.paddr.toNat

/-- A place by its page and its offset in the page. -/
theorem ofNat_page_offset (page : UInt64) (d : ℕ) :
    UInt64.ofNat d = UInt64.ofNat (d / page.toNat) * page + UInt64.ofNat (d % page.toNat) := by
  calc UInt64.ofNat d
      = UInt64.ofNat (d / page.toNat * page.toNat + d % page.toNat) := by rw [Nat.div_add_mod']
    _ = UInt64.ofNat (d / page.toNat) * UInt64.ofNat page.toNat +
          UInt64.ofNat (d % page.toNat) := by rw [UInt64.ofNat_add, UInt64.ofNat_mul]
    _ = _ := by rw [UInt64.ofNat_toNat]

/-- Places at whole pages from an aligned address are aligned. -/
theorem dvd_add_pages (hpow : page.toNat ∣ 2 ^ 64) (hv : page.toNat ∣ vaddr.toNat) (k : ℕ) :
    page.toNat ∣ (vaddr + UInt64.ofNat k * page).toNat := by
  rw [UInt64.toNat_add, UInt64.toNat_mul]
  have hmul := (Nat.dvd_mod_iff hpow).mpr
    (Nat.dvd_mul_left page.toNat (UInt64.ofNat k).toNat)
  exact (Nat.dvd_mod_iff hpow).mpr (Nat.dvd_add hv hmul)

theorem onePiece_of_contiguous (hwhole : PagesWhole virt2Phys page)
    (hr : r.Contiguous virt2Phys page) (hp : 0 < page.toNat) (hpow : page.toNat ∣ 2 ^ 64)
    (hv : page.toNat ∣ r.vaddr.toNat) (hpos : 0 < r.size) : r.OnePiece virt2Phys page := by
  have hframe : ∀ k : ℕ, k * page.toNat < r.size.toNat →
      virt2Phys (r.vaddr + UInt64.ofNat k * page) = some (r.paddr + UInt64.ofNat k * page) :=
    fun k hk => (Option.filter_eq_some_iff.mp (hr k hk)).1
  constructor
  · intro d hd
    have hk := (Nat.div_mul_le_self d page.toNat).trans_lt hd
    have hoffset : UInt64.ofNat (d % page.toNat) < page := by
      have hmod := Nat.mod_lt d hp
      have hlt := page.toNat_lt
      rw [UInt64.lt_iff_toNat_lt, UInt64.toNat_ofNat', Nat.mod_eq_of_lt (by omega)]
      exact hmod
    rw [ofNat_page_offset page d, ← UInt64.add_assoc, ← UInt64.add_assoc]
    exact hwhole.offset _ _ (dvd_add_pages hpow hv _) (hframe _ hk) _ hoffset
  · have hfirst := hframe 0 (by rw [Nat.zero_mul]; exact UInt64.lt_iff_toNat_lt.mp hpos)
    have hzero : UInt64.ofNat 0 * page = 0 := UInt64.zero_mul
    rw [hzero, UInt64.add_zero, UInt64.add_zero] at hfirst
    exact hwhole.frame _ _ hv hfirst

/-- The region that the scan of an aligned block finds. -/
theorem onePiece_of_scan (hwhole : PagesWhole virt2Phys page) (hp : 0 < page.toNat)
    (hpow : page.toNat ∣ 2 ^ 64) (hv : page.toNat ∣ vaddr.toNat)
    (hsize : size.toNat = N * page.toNat)
    (h : findLargestPhysicalRegion virt2Phys fuel vaddr size page 0 = some r)
    (hpos : 0 < r.size) : r.OnePiece virt2Phys page := by
  have hbest := eq_best_of_scan hsize hp h
  have haligned : page.toNat ∣ r.vaddr.toNat := by
    rw [hbest] at hpos ⊢
    unfold region at hpos ⊢
    split at hpos
    · cases hpos
    · next hne =>
      rw [if_neg hne]
      exact dvd_add_pages hpow hv _
  have hcontiguous : r.Contiguous virt2Phys page := by
    rw [hbest]
    exact contiguous_best hsize hp
  exact onePiece_of_contiguous hwhole hcontiguous hp hpow haligned hpos

theorem attemptEach_stops (h : attemptEach os fuel wanted muls a₀ = some a)
    (hf : a₀.failure = true) (hgood : a.failure = false) :
    ∃ before memMul after, muls = before ++ memMul :: after ∧ Attempted os fuel wanted memMul a ∧
      ∀ m ∈ before, ∃ b, Attempted os fuel wanted m b ∧ b.failure = true := by
  induction muls generalizing a₀ with
  | nil =>
    obtain rfl : a₀ = a := Option.some.inj h
    rw [hf] at hgood
    cases hgood
  | cons memMul muls ih =>
    obtain ⟨a₁, hstep, hrest⟩ := Option.bind_eq_some_iff.mp h
    have hattempt := (attempt_spec hstep).1
    cases hfail : a₁.failure with
    | false =>
      rw [hfail] at hrest
      obtain rfl : a₁ = a := Option.some.inj hrest
      exact ⟨[], memMul, muls, rfl, hattempt, by simp⟩
    | true =>
      rw [hfail] at hrest
      obtain ⟨before, m, after, rfl, hm, hbefore⟩ := ih hrest hfail
      refine ⟨memMul :: before, m, after, rfl, hm, ?_⟩
      rintro k hk
      rcases List.mem_cons.mp hk with rfl | hk
      · exact ⟨a₁, hattempt, hfail⟩
      · exact hbefore k hk

/-- The region that is handed out was found by the attempt at which the loop stopped. -/
theorem stopsAt_allocateLargePageMin (h : allocateLargePageMin os fuel out = some l)
    (hne : l.out.virtaddr ≠ 0) : ∃ memMul, os.StopsAt fuel out.sizeInBytes memMul ∧
      findLargestPhysicalRegion (os.virt2Phys memMul) fuel l.out.virtaddr l.out.sizeInBytes
        os.getLargePageMinimum 0 = some l.memBegin ∧
      out.sizeInBytes ≤ l.memBegin.size := by
  obtain ⟨a, hloop, he⟩ := Option.bind_eq_some_iff.mp h
  cases he
  cases hf : a.failure with
  | true => exact absurd (if_pos hf) hne
  | false =>
    obtain ⟨before, memMul, after, hmuls, ha, hbefore⟩ := attemptEach_stops hloop rfl hf
    have hsorted : (before ++ memMul :: after).Pairwise (· < ·) :=
      hmuls ▸ List.pairwise_lt_range'
    have hmem : ∀ m, m ∈ before ++ memMul :: after ↔
        memoryMultiplierBegin ≤ m ∧ m < memoryMultiplierEnd := by
      intro m
      rw [← hmuls, List.mem_range'_1]
      rfl
    obtain ⟨hlo, hhi⟩ := (hmem memMul).mp (by simp)
    refine ⟨memMul, ⟨hlo, hhi, ⟨a, ha, hf⟩, ?_⟩, ?_, ?_⟩
    · intro m hm hlt
      refine hbefore m ?_
      rcases List.mem_append.mp ((hmem m).mpr ⟨hm, hlt.trans hhi⟩) with hin | hin
      · exact hin
      · obtain ⟨-, hafter, -⟩ := List.pairwise_append.mp hsorted
        rcases List.mem_cons.mp hin with rfl | hin
        · exact absurd hlt (lt_irrefl _)
        · exact absurd (hlt.trans ((List.pairwise_cons.mp hafter).1 m hin)) (lt_irrefl _)
    · exact ha.scan
    · have hsmall := ha.failure
      rw [hf] at hsmall
      exact UInt64.not_lt.mp (of_decide_eq_false hsmall.symm)

/-- The block of a successful allocation is made of pages. -/
theorem LargePage.Allocated.pages (h : l.Allocated os fuel wanted) (hpage : os.PageSizeDocumented)
    (hblocks : os.BlocksAligned) (hw : 0 < wanted) (hne : l.out.virtaddr ≠ 0) :
    0 < os.getLargePageMinimum.toNat ∧ os.getLargePageMinimum.toNat ∣ 2 ^ 64 ∧
      os.getLargePageMinimum.toNat ∣ l.out.virtaddr.toNat ∧
      ∃ N, l.out.sizeInBytes.toNat = N * os.getLargePageMinimum.toNat := by
  obtain ⟨memMul, hsize, haddr, hscan, hlarge⟩ := h.good hne
  rcases allocAttemptSize_cases hpage memMul with hzero | ⟨hp, N, hN⟩
  · rw [hsize, hzero] at hscan
    rw [eq_empty_of_scan hscan] at hlarge
    exact absurd (UInt64.lt_of_lt_of_le hw hlarge) (by decide)
  · have hpow : os.getLargePageMinimum.toNat ∣ 2 ^ 64 := by
      rcases hpage with hzero | ⟨k, hk⟩
      · rw [hzero] at hp
        cases hp
      · have hlt := os.getLargePageMinimum.toNat_lt
        rw [hk] at hlt ⊢
        exact pow_dvd_pow 2 ((Nat.pow_lt_pow_iff_right (by decide)).mp hlt).le
    exact ⟨hp, hpow, haddr ▸ hblocks memMul _, N, hsize ▸ hN⟩

end Tailslayer.Memory
