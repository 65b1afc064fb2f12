import Tailslayer.Memory.LargestRegion

/-! Runs of pages in physical memory: the full scan finds the first longest one, and the early stop
the first one that is long enough. -/
namespace Tailslayer.Memory

open LongestRun

variable {virt2Phys : Virt2Phys} {vaddr size page p desired : UInt64} {N i j m fuel : ℕ}

/-- Physical addresses have at most 52 bits. -/
def AddressesFit (virt2Phys : Virt2Phys) : Prop :=
  ∀ v p, virt2Phys v = some p → p.toNat < 2 ^ 52

/-- The `m` pages from page `i` on translate to the addresses `a`, `a + page`, and so on. -/
def PageRun (virt2Phys : Virt2Phys) (vaddr page : UInt64) (i m a : ℕ) : Prop :=
  ∀ k, k < m → (virt2Phys (vaddr + UInt64.ofNat (i + k) * page)).map UInt64.toNat =
    some (a + k * page.toNat)

/-- The region consists of the `m` pages from page `i` on, and these are a run. -/
structure PhysicalMemRegion.Covers (r : PhysicalMemRegion) (virt2Phys : Virt2Phys)
    (vaddr page : UInt64) (i m : ℕ) : Prop where
  start : r.vaddr = vaddr + UInt64.ofNat i * page
  size : r.size.toNat = m * page.toNat
  pages : PageRun virt2Phys vaddr page i m r.paddr.toNat

/-- The region is the first longest run of the `N` pages at `vaddr`; it is empty if there are no
runs. -/
structure PhysicalMemRegion.Largest (r : PhysicalMemRegion) (virt2Phys : Virt2Phys)
    (vaddr page : UInt64) (N : ℕ) : Prop where
  aligned : page.toNat ∣ r.size.toNat
  first : r.size ≠ 0 → ∃ i m, i + m ≤ N ∧ r.Covers virt2Phys vaddr page i m ∧
    ∀ i' a, i' + m ≤ N → PageRun virt2Phys vaddr page i' m a → i ≤ i'
  longest : ∀ i m a, i + m ≤ N → PageRun virt2Phys vaddr page i m a →
    m * page.toNat ≤ r.size.toNat
  empty : r.size = 0 ↔ ∀ j, j < N → virt2Phys (vaddr + UInt64.ofNat j * page) = none

/-- `m` pages are the fewest that have `desired` bytes. -/
def Fewest (page desired : UInt64) (m : ℕ) : Prop :=
  desired.toNat ≤ m * page.toNat ∧ ∀ m', desired.toNat ≤ m' * page.toNat → m ≤ m'

/-- The region is the beginning of the first run of `desired` bytes or more. -/
def PhysicalMemRegion.Reaches (r : PhysicalMemRegion) (virt2Phys : Virt2Phys)
    (vaddr page : UInt64) (N : ℕ) (desired : UInt64) : Prop :=
  ∃ i m, i + m ≤ N ∧ r.Covers virt2Phys vaddr page i m ∧ Fewest page desired m ∧
    ∀ i' m' a, m ≤ m' → i' + m' ≤ N → PageRun virt2Phys vaddr page i' m' a → i ≤ i'

theorem AddressesFit.translated_eq (h : AddressesFit virt2Phys) (v : UInt64) :
    translated virt2Phys v = virt2Phys v := by
  unfold translated
  cases hv : virt2Phys v with
  | none => rfl
  | some p =>
    have hp : p ≠ UINT64_MAX := by
      rintro rfl
      have hlt := h v _ hv
      change 2 ^ 64 - 1 < 2 ^ 52 at hlt
      omega
    rw [Option.filter_some, if_pos (decide_eq_true hp)]

/-- Successive frames are successive addresses: below 2^52 the addition does not wrap. -/
theorem holds_iff_pageRun (h : AddressesFit virt2Phys) (hN : N * page.toNat < 2 ^ 64)
    (hp : 0 < page.toNat) (him : i + m ≤ N) :
    (⟨i, p, m⟩ : Segment UInt64).Holds (· + page) (frame virt2Phys vaddr page) ↔
      PageRun virt2Phys vaddr page i m p.toNat := by
  have hmul : ∀ k, k < m → (UInt64.ofNat k * page).toNat = k * page.toNat :=
    fun k hk => toNat_ofNat_mul (N := N) (by omega) hN hp
  constructor
  · intro hholds k hk
    induction k with
    | zero =>
      have h0 := hholds 0 hk
      rw [frame, h.translated_eq] at h0
      rw [h0]
      simp
    | succ k ih =>
      have hprev := ih (Nat.lt_of_succ_lt hk)
      have hk0 := hholds k (Nat.lt_of_succ_lt hk)
      have hk1 := hholds (k + 1) hk
      rw [frame, h.translated_eq] at hk0 hk1
      rw [hk0, Option.map_some, Option.some.injEq] at hprev
      have hlt := h _ _ hk0
      rw [hprev] at hlt
      have hpage : 2 * page.toNat ≤ N * page.toNat := Nat.mul_le_mul_right _ (by omega)
      rw [hk1, Option.map_some, Function.iterate_succ_apply', UInt64.toNat_add, hprev,
        Nat.mod_eq_of_lt (by omega), Nat.succ_mul, Nat.add_assoc]
  · intro hrun k hk
    obtain ⟨q, hq, he⟩ := Option.map_eq_some_iff.mp (hrun k hk)
    have hlt := h _ _ hq
    have hval : q = p + UInt64.ofNat k * page := by
      apply UInt64.toNat_inj.mp
      rw [UInt64.toNat_add, hmul k hk, ← he]
      exact (Nat.mod_eq_of_lt (by omega)).symm
    rw [iterate_add, ← hval, frame, h.translated_eq]
    exact hq

/-- A run starts at the address of its first page. -/
theorem PageRun.exists_first {a : ℕ} (h : PageRun virt2Phys vaddr page i m a) (hm : 0 < m) :
    ∃ p : UInt64, p.toNat = a := by
  obtain ⟨p, _, hp⟩ := Option.map_eq_some_iff.mp (h 0 hm)
  exact ⟨p, by simpa using hp⟩

theorem pageRun_single (hv : virt2Phys (vaddr + UInt64.ofNat j * page) = some p) :
    PageRun virt2Phys vaddr page j 1 p.toNat := by
  intro k hk
  obtain rfl : k = 0 := Nat.lt_one_iff.mp hk
  simp [hv]

/-- The best run as a region. -/
theorem covers_best (h : AddressesFit virt2Phys) (hsize : size.toNat = N * page.toNat)
    (hp : 0 < page.toNat) (hj : j ≤ N)
    (hpos : 0 < (pageScan virt2Phys vaddr page j).best.length) :
    (region vaddr page (pageScan virt2Phys vaddr page j).best).Covers virt2Phys vaddr page
      (pageScan virt2Phys vaddr page j).best.start
      (pageScan virt2Phys vaddr page j).best.length := by
  have hN : N * page.toNat < 2 ^ 64 := hsize ▸ size.toNat_lt
  have hstop := stop_best_le virt2Phys vaddr page j
  have hlen := toNat_size_best virt2Phys vaddr hsize hp hj
  have hholds := (scanned_scan (· + page) (frame virt2Phys vaddr page) j).holds
  change (pageScan virt2Phys vaddr page j).best.Holds _ _ at hholds
  generalize (pageScan virt2Phys vaddr page j).best = g at hpos hstop hlen hholds
  refine ⟨?_, hlen, ?_⟩
  · rw [region, if_neg (Nat.ne_of_gt hpos)]
  · rw [region, if_neg (Nat.ne_of_gt hpos)]
    exact (holds_iff_pageRun h hN hp (by omega)).mp hholds

/-- The region of a scan has the desired size as soon as its run has enough pages. -/
theorem desired_le_best_iff (virt2Phys : Virt2Phys) (vaddr : UInt64)
    (hsize : size.toNat = N * page.toNat) (hp : 0 < page.toNat) (hj : j ≤ N)
    (hm : Fewest page desired m) :
    desired ≤ (region vaddr page (pageScan virt2Phys vaddr page j).best).size ↔
      m ≤ (pageScan virt2Phys vaddr page j).best.length := by
  rw [UInt64.le_iff_toNat_le, toNat_size_best virt2Phys vaddr hsize hp hj]
  constructor
  · exact hm.2 _
  · intro hle
    exact hm.1.trans (Nat.mul_le_mul_right _ hle)

theorem largest_best (h : AddressesFit virt2Phys) (hsize : size.toNat = N * page.toNat)
    (hp : 0 < page.toNat) :
    (region vaddr page (pageScan virt2Phys vaddr page N).best).Largest virt2Phys vaddr page N := by
  have hN : N * page.toNat < 2 ^ 64 := hsize ▸ size.toNat_lt
  have hscan := scanned_scan (· + page) (frame virt2Phys vaddr page) N
  have hstop := stop_best_le virt2Phys vaddr page N
  have hlen := toNat_size_best virt2Phys vaddr hsize hp (Nat.le_refl N)
  have hlongest : ∀ i m a, i + m ≤ N → PageRun virt2Phys vaddr page i m a →
      m ≤ (pageScan virt2Phys vaddr page N).best.length := by
    intro i m a him hrun
    rcases Nat.eq_zero_or_pos m with rfl | hm
    · exact Nat.zero_le _
    · obtain ⟨p, rfl⟩ := hrun.exists_first hm
      exact hscan.longest _ ((holds_iff_pageRun h hN hp him).mpr hrun) him
  have hcovers : (region vaddr page (pageScan virt2Phys vaddr page N).best).size ≠ 0 →
      0 < (pageScan virt2Phys vaddr page N).best.length := by
    intro hne
    by_contra h0
    apply hne
    apply UInt64.toNat_inj.mp
    rw [hlen, Nat.eq_zero_of_not_pos h0, Nat.zero_mul]
    rfl
  refine ⟨⟨_, hlen.trans (Nat.mul_comm _ _)⟩, ?_, ?_, ?_⟩
  · intro hne
    have hpos := hcovers hne
    refine ⟨_, _, hstop, covers_best h hsize hp (Nat.le_refl N) hpos, ?_⟩
    intro i' a hi' hrun
    obtain ⟨p, rfl⟩ := hrun.exists_first hpos
    exact hscan.first _ ((holds_iff_pageRun h hN hp hi').mpr hrun) hi' rfl hpos
  · intro i m a him hrun
    rw [hlen]
    exact Nat.mul_le_mul_right _ (hlongest i m a him hrun)
  · constructor
    · intro hzero j hj
      cases hv : virt2Phys (vaddr + UInt64.ofNat j * page) with
      | none => rfl
      | some p =>
        have hone := hlongest j 1 p.toNat hj (pageRun_single hv)
        have hpos := Nat.mul_pos hone hp
        rw [← hlen, hzero] at hpos
        cases hpos
    · intro hnone
      by_contra hne
      have hpos := hcovers hne
      have hpage := (covers_best h hsize hp (Nat.le_refl N) hpos).pages 0 hpos
      rw [Nat.add_zero, hnone _ (by omega)] at hpage
      cases hpage

theorem exists_fewest (page desired : UInt64) (hp : 0 < page.toNat) :
    ∃ m, Fewest page desired m := by
  classical
  have hex : ∃ m, desired.toNat ≤ m * page.toNat :=
    ⟨desired.toNat, Nat.le_mul_of_pos_right _ hp⟩
  exact ⟨Nat.find hex, Nat.find_spec hex, fun m' hm' => Nat.find_min' hex hm'⟩

/-- Whatever pages fail to translate, the result is the first longest run, inside the block. -/
theorem findLargestPhysicalRegion_largest (h : AddressesFit virt2Phys)
    (hsize : size.toNat = N * page.toNat) (hp : 0 < page.toNat)
    (hfit : vaddr.toNat + size.toNat ≤ 2 ^ 64) (hf : N < fuel) :
    ∃ r, findLargestPhysicalRegion virt2Phys fuel vaddr size page 0 = some r ∧
      r.Largest virt2Phys vaddr page N ∧ (r.size ≠ 0 → r.Inside vaddr size) :=
  ⟨_, findLargestPhysicalRegion_eq virt2Phys vaddr hsize hp hf, largest_best h hsize hp,
    inside_best hsize hp hfit⟩

/-- The page at 4 MiB is not present. -/
def oneGap (vaddr : UInt64) : Option UInt64 :=
  if vaddr = 0x400000 then none else some (vaddr &&& 0xffffffff)

theorem addressesFit_oneGap : AddressesFit oneGap := by
  intro v p hv
  unfold oneGap at hv
  split at hv
  · cases hv
  · obtain rfl := Option.some.inj hv
    rw [UInt64.toNat_and]
    exact Nat.lt_of_le_of_lt Nat.and_le_right (by decide)

/-- Five pages with two runs of two. -/
theorem findLargestPhysicalRegion_largest_oneGap :
    ∃ r, findLargestPhysicalRegion oneGap 6 0 0xa00000 0x200000 0 = some r ∧
      r.Largest oneGap 0 0x200000 5 ∧ (r.size ≠ 0 → r.Inside 0 0xa00000) :=
  findLargestPhysicalRegion_largest addressesFit_oneGap (by decide) (by decide) (by decide)
    (by decide)

/-- The early stop finds a region of the desired size whenever the full scan does, cut off at that
size; where there is none, both return the same region. -/
theorem early_stop_agrees (h : AddressesFit virt2Phys) (hsize : size.toNat = N * page.toNat)
    (hp : 0 < page.toNat) (hd : page ≤ desired) (hf : N < fuel) :
    ∃ r r₀, findLargestPhysicalRegion virt2Phys fuel vaddr size page desired = some r ∧
      findLargestPhysicalRegion virt2Phys fuel vaddr size page 0 = some r₀ ∧
      (desired ≤ r.size ↔ desired ≤ r₀.size) ∧
      (desired ≤ r₀.size → r.Reaches virt2Phys vaddr page N desired) ∧
      (¬ desired ≤ r₀.size → r = r₀) := by
  have hN : N * page.toNat < 2 ^ 64 := hsize ▸ size.toNat_lt
  obtain ⟨m, hm⟩ := exists_fewest page desired hp
  have hpos : 0 < m := by
    by_contra h0
    have hle := hm.1
    rw [Nat.eq_zero_of_not_pos h0, Nat.zero_mul] at hle
    have hd := UInt64.le_iff_toNat_le.mp hd
    omega
  obtain ⟨j, hj, he, hend, hall⟩ :=
    findLargestPhysicalRegion_stop virt2Phys vaddr hsize hp hf hd
  have hiff : ∀ {j}, j ≤ N → _ := fun {j} hj =>
    desired_le_best_iff (j := j) virt2Phys vaddr hsize hp hj hm
  have hmono : (pageScan virt2Phys vaddr page j).best.length ≤
      (pageScan virt2Phys vaddr page N).best.length := length_best_mono _ _ hj
  refine ⟨_, _, he, findLargestPhysicalRegion_eq virt2Phys vaddr hsize hp hf, ?_, ?_, ?_⟩
  · rw [hiff hj, hiff (Nat.le_refl N)]
    rcases hend with rfl | hend
    · rfl
    · have hle := (hiff hj).mp hend
      exact iff_of_true hle (hle.trans hmono)
  · intro hlarge
    have hle : m ≤ (pageScan virt2Phys vaddr page j).best.length := by
      rcases hend with rfl | hend
      · exact (hiff hj).mp hlarge
      · exact (hiff hj).mp hend
    obtain ⟨hlen, hfirst⟩ := best_of_first hpos hle (fun i hi =>
      Nat.not_le.mp (fun hle => UInt64.not_le.mpr (hall i hi) ((hiff (by omega)).mpr hle)))
    have hcovers := covers_best h hsize hp hj (Nat.lt_of_lt_of_le hpos hle)
    have hstop := stop_best_le virt2Phys vaddr page j
    change (pageScan virt2Phys vaddr page j).best.length = m at hlen
    rw [hlen] at hcovers hstop
    refine ⟨_, m, by omega, hcovers, hm, ?_⟩
    intro i' m' a hlong hi' hrun
    obtain ⟨p, rfl⟩ := hrun.exists_first (by omega)
    exact hfirst ⟨i', p, m'⟩ ((holds_iff_pageRun h hN hp hi').mpr hrun) hlong
  · intro hsmall
    rcases hend with rfl | hend
    · rfl
    · exact absurd ((hiff (Nat.le_refl N)).mpr (((hiff hj).mp hend).trans hmono)) hsmall

theorem early_stop_agrees_oneGap :
    ∃ r r₀, findLargestPhysicalRegion oneGap 6 0 0xa00000 0x200000 0x300000 = some r ∧
      findLargestPhysicalRegion oneGap 6 0 0xa00000 0x200000 0 = some r₀ ∧
      (0x300000 ≤ r.size ↔ 0x300000 ≤ r₀.size) ∧
      (0x300000 ≤ r₀.size → r.Reaches oneGap 0 0x200000 5 0x300000) ∧
      (¬ 0x300000 ≤ r₀.size → r = r₀) :=
  early_stop_agrees addressesFit_oneGap (by decide) (by decide) (by decide) (by decide)

end Tailslayer.Memory
