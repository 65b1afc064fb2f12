import Tailslayer.Foundations.LongestRun
import Tailslayer.Memory.Specification

/-! `FindLargestPhysicalRegion` finds the longest run of pages with successive frames. -/
namespace Tailslayer.Memory

open LongestRun

variable {virt2Phys : Virt2Phys} {vaddr size page p : UInt64} {N j k fuel : ℕ}

/-- The region whose pages all follow each other physically. -/
def PhysicalMemRegion.Contiguous (r : PhysicalMemRegion) (virt2Phys : Virt2Phys)
    (page : UInt64) : Prop :=
  ∀ k : ℕ, k * page.toNat < r.size.toNat →
    translated virt2Phys (r.vaddr + UInt64.ofNat k * page) = some (r.paddr + UInt64.ofNat k * page)

/-- The region lies inside the block of `size` bytes at `vaddr`. -/
def PhysicalMemRegion.Inside (r : PhysicalMemRegion) (vaddr size : UInt64) : Prop :=
  vaddr.toNat ≤ r.vaddr.toNat ∧ r.vaddr.toNat + r.size.toNat ≤ vaddr.toNat + size.toNat

/-- The whole block follows itself physically, from its first page on. -/
def BlockContiguous (virt2Phys : Virt2Phys) (vaddr size page : UInt64) : Prop :=
  ∃ paddr, (⟨vaddr, paddr, size⟩ : PhysicalMemRegion).Contiguous virt2Phys page

/-- Page `j` of the block translates to this frame. -/
def frame (virt2Phys : Virt2Phys) (vaddr page : UInt64) (j : ℕ) : Option UInt64 :=
  translated virt2Phys (vaddr + UInt64.ofNat j * page)

/-- The scan of the first `j` pages. -/
def pageScan (virt2Phys : Virt2Phys) (vaddr page : UInt64) (j : ℕ) : LongestRun.Scan UInt64 :=
  scan (· + page) (frame virt2Phys vaddr page) j

/-- A run of pages as a region. -/
def region (vaddr page : UInt64) (g : Segment UInt64) : PhysicalMemRegion :=
  if g.length = 0 then .empty
  else ⟨vaddr + UInt64.ofNat g.start * page, g.first, UInt64.ofNat g.length * page⟩

def regionScan (vaddr page : UInt64) (s : LongestRun.Scan UInt64) : RegionScan where
  maxRegion := region vaddr page s.best
  currentRegion := region vaddr page s.current

theorem ofNat_succ_mul (k : ℕ) (page : UInt64) :
    UInt64.ofNat (k + 1) * page = UInt64.ofNat k * page + page := by
  rw [UInt64.ofNat_add, UInt64.add_mul]
  change UInt64.ofNat k * page + 1 * page = _
  rw [UInt64.one_mul]

theorem iterate_add (page p : UInt64) (k : ℕ) :
    (· + page)^[k] p = p + UInt64.ofNat k * page := by
  induction k with
  | zero => simp
  | succ k ih =>
    rw [Function.iterate_succ_apply', ih, ofNat_succ_mul]
    exact UInt64.add_assoc _ _ _

theorem toNat_ofNat_mul (h : k ≤ N) (hN : N * page.toNat < 2 ^ 64) (hp : 0 < page.toNat) :
    (UInt64.ofNat k * page).toNat = k * page.toNat := by
  have hk : k * page.toNat ≤ N * page.toNat := Nat.mul_le_mul_right _ h
  have hkk : k ≤ k * page.toNat := Nat.le_mul_of_pos_right k hp
  have hk64 : (UInt64.ofNat k).toNat = k := by
    rw [UInt64.toNat_ofNat']
    exact Nat.mod_eq_of_lt (by omega)
  rw [UInt64.toNat_mul, hk64]
  exact Nat.mod_eq_of_lt (by omega)

theorem size_region (vaddr page : UInt64) (g : Segment UInt64) :
    (region vaddr page g).size = UInt64.ofNat g.length * page := by
  unfold region
  split
  · next h =>
    rw [h]
    simp [PhysicalMemRegion.empty]
  · rfl

theorem toNat_size_region {g : Segment UInt64} (h : g.length ≤ N)
    (hN : N * page.toNat < 2 ^ 64) (hp : 0 < page.toNat) :
    (region vaddr page g).size.toNat = g.length * page.toNat := by
  rw [size_region]
  exact toNat_ofNat_mul h hN hp

/-- Extending the region is growing the run. -/
theorem extend_region {g : Segment UInt64} (hj : j < N) (hg : g.length ≤ j)
    (hN : N * page.toNat < 2 ^ 64) (hp : 0 < page.toNat) :
    (region vaddr page g).extend page (vaddr + UInt64.ofNat j * page) p =
      region vaddr page (g.grow (· + page) j p) := by
  have hsize : (region vaddr page g).size.toNat = g.length * page.toNat :=
    toNat_size_region (by omega) hN hp
  have hpos : 0 < (region vaddr page g).size ↔ 0 < g.length := by
    rw [UInt64.lt_iff_toNat_lt, hsize]
    exact Nat.mul_pos_iff_of_pos_right hp
  by_cases h0 : 0 < g.length
  · have hr : region vaddr page g =
        ⟨vaddr + UInt64.ofNat g.start * page, g.first, UInt64.ofNat g.length * page⟩ :=
      if_neg (by omega)
    have hnext : (· + page)^[g.length] g.first =
        (region vaddr page g).paddr + (region vaddr page g).size := by
      rw [iterate_add, hr]
    unfold PhysicalMemRegion.extend Segment.grow
    rw [hnext]
    by_cases he : p = (region vaddr page g).paddr + (region vaddr page g).size
    · rw [if_pos ⟨hpos.mpr h0, he⟩, if_pos ⟨h0, he⟩, hr]
      simp only [region, Nat.add_eq_zero_iff, Nat.one_ne_zero, and_false, if_false,
        ofNat_succ_mul]
    · rw [if_neg (fun h => he h.2), if_neg (fun h => he h.2)]
      simp [region]
  · unfold PhysicalMemRegion.extend Segment.grow
    rw [if_neg (fun h => h0 (hpos.mp h.1)), if_neg (fun h => h0 h.1)]
    simp [region]

theorem visit_regionScan {s : LongestRun.Scan UInt64} (hj : j < N) (hs : s.current.length ≤ j)
    (hb : s.best.length ≤ j) (hN : N * page.toNat < 2 ^ 64) (hp : 0 < page.toNat) :
    (regionScan vaddr page s).visit page (vaddr + UInt64.ofNat j * page) p =
      regionScan vaddr page (s.step (· + page) j (some p)) := by
  have hext : (region vaddr page s.current).extend page (vaddr + UInt64.ofNat j * page) p =
      region vaddr page (s.current.grow (· + page) j p) := extend_region hj hs hN hp
  have hlen : (s.current.grow (· + page) j p).length ≤ N := by
    unfold Segment.grow
    split
    · change s.current.length + 1 ≤ N
      omega
    · change 1 ≤ N
      omega
  have hcmp : (region vaddr page s.best).size <
      (region vaddr page (s.current.grow (· + page) j p)).size ↔
        s.best.length < (s.current.grow (· + page) j p).length := by
    rw [UInt64.lt_iff_toNat_lt, toNat_size_region (by omega) hN hp, toNat_size_region hlen hN hp]
    exact Nat.mul_lt_mul_right hp
  unfold RegionScan.visit
  change (⟨if (region vaddr page s.best).size < ((region vaddr page s.current).extend page _ p).size
      then (region vaddr page s.current).extend page _ p else region vaddr page s.best,
    (region vaddr page s.current).extend page _ p⟩ : RegionScan) = _
  rw [hext]
  unfold Scan.step regionScan
  by_cases hlt : s.best.length < (s.current.grow (· + page) j p).length
  · rw [if_pos (hcmp.mpr hlt)]
    simp only [if_pos hlt]
  · rw [if_neg (fun h => hlt (hcmp.mp h))]
    simp only [if_neg hlt]

theorem length_current_le (virt2Phys : Virt2Phys) (vaddr page : UInt64) (j : ℕ) :
    (pageScan virt2Phys vaddr page j).current.length ≤ j := by
  have h := (scanned_scan (· + page) (frame virt2Phys vaddr page) j).current.stop
  unfold Segment.stop at h
  change (scan _ _ j).current.length ≤ j
  omega

theorem stop_best_le (virt2Phys : Virt2Phys) (vaddr page : UInt64) (j : ℕ) :
    (pageScan virt2Phys vaddr page j).best.start + (pageScan virt2Phys vaddr page j).best.length ≤
      j :=
  (scanned_scan (· + page) (frame virt2Phys vaddr page) j).stop

/-- The best region is as large as the pages of its run. -/
theorem toNat_size_best (virt2Phys : Virt2Phys) (vaddr : UInt64)
    (hsize : size.toNat = N * page.toNat) (hp : 0 < page.toNat) (hj : j ≤ N) :
    (region vaddr page (pageScan virt2Phys vaddr page j).best).size.toNat =
      (pageScan virt2Phys vaddr page j).best.length * page.toNat := by
  have hstop := stop_best_le virt2Phys vaddr page j
  exact toNat_size_region (by omega) (hsize ▸ size.toNat_lt) hp

/-- A page without a frame ends the current region. -/
theorem regionScan_untranslated (ht : frame virt2Phys vaddr page j = none) :
    regionScan vaddr page (pageScan virt2Phys vaddr page (j + 1)) =
      { regionScan vaddr page (pageScan virt2Phys vaddr page j) with currentRegion := .empty } := by
  simp only [pageScan, scan, ht]
  rfl

theorem regionScan_translated (hj : j < N) (hN : N * page.toNat < 2 ^ 64) (hp : 0 < page.toNat)
    (ht : frame virt2Phys vaddr page j = some p) :
    (regionScan vaddr page (pageScan virt2Phys vaddr page j)).visit page
        (vaddr + UInt64.ofNat j * page) p =
      regionScan vaddr page (pageScan virt2Phys vaddr page (j + 1)) := by
  have hbest := stop_best_le virt2Phys vaddr page j
  rw [visit_regionScan hj (length_current_le _ _ _ j) (by omega) hN hp]
  simp only [pageScan, scan, ht]

/-- The loop scans the pages up to the last one, or up to the first that completes a region of the
desired size. -/
theorem scanRegion_eq (virt2Phys : Virt2Phys) (vaddr : UInt64) {desired : UInt64}
    (hsize : size.toNat = N * page.toNat) (hp : 0 < page.toNat) (hd : 0 < desired) (hj : j ≤ N)
    (hf : N - j < fuel)
    (hsmall : (region vaddr page (pageScan virt2Phys vaddr page j).best).size < desired) :
    ∃ j', j' ≤ N ∧
      scanRegion virt2Phys vaddr size page desired fuel (UInt64.ofNat j * page)
        (regionScan vaddr page (pageScan virt2Phys vaddr page j)) =
        some (regionScan vaddr page (pageScan virt2Phys vaddr page j')) ∧
      (j' = N ∨ desired ≤ (region vaddr page (pageScan virt2Phys vaddr page j').best).size) ∧
      ∀ i, j ≤ i → i < j' →
        (region vaddr page (pageScan virt2Phys vaddr page i).best).size < desired := by
  have hN : N * page.toNat < 2 ^ 64 := hsize ▸ size.toNat_lt
  induction fuel generalizing j with
  | zero => omega
  | succ fuel ih =>
    have hoffset := toNat_ofNat_mul hj hN hp
    have hlt : UInt64.ofNat j * page < size ↔ j < N := by
      rw [UInt64.lt_iff_toNat_lt, hoffset, hsize]
      exact Nat.mul_lt_mul_right hp
    rcases Nat.lt_or_eq_of_le hj with hjN | rfl
    · have hnext : (region vaddr page (pageScan virt2Phys vaddr page (j + 1)).best).size <
          desired → _ := fun h => ih (j := j + 1) hjN (by omega) h
      have hfrom : ∀ {j'}, (∀ i, j + 1 ≤ i → i < j' →
          (region vaddr page (pageScan virt2Phys vaddr page i).best).size < desired) →
          ∀ i, j ≤ i → i < j' →
            (region vaddr page (pageScan virt2Phys vaddr page i).best).size < desired := by
        intro j' hall i hi hi'
        rcases Nat.eq_or_lt_of_le hi with rfl | hi
        · exact hsmall
        · exact hall i hi hi'
      rw [ofNat_succ_mul] at hnext
      rw [scanRegion, if_pos (hlt.mpr hjN)]
      cases ht : translated virt2Phys (vaddr + UInt64.ofNat j * page) with
      | none =>
        have hframe : frame virt2Phys vaddr page j = none := ht
        have hgap := regionScan_untranslated hframe
        obtain ⟨j', hj', he, hend, hall⟩ := hnext (by
          change (regionScan _ _ _).maxRegion.size < desired
          rw [hgap]
          exact hsmall)
        rw [hgap] at he
        exact ⟨j', hj', he, hend, hfrom hall⟩
      | some p =>
        have hframe : frame virt2Phys vaddr page j = some p := ht
        simp only [regionScan_translated hjN hN hp hframe]
        split
        · next hstop =>
          refine ⟨j + 1, hjN, rfl, Or.inr hstop.2, ?_⟩
          intro i hi hi'
          obtain rfl : i = j := by omega
          exact hsmall
        · next hgo =>
          obtain ⟨j', hj', he, hend, hall⟩ := hnext (UInt64.not_le.mp (fun h => hgo ⟨hd, h⟩))
          exact ⟨j', hj', he, hend, hfrom hall⟩
    · rw [scanRegion, if_neg (fun h => Nat.lt_irrefl _ (hlt.mp h))]
      exact ⟨j, Nat.le_refl j, rfl, Or.inl rfl, fun i hi hi' => by omega⟩

/-- A scan that ended ends in the same way with more fuel. -/
theorem scanRegion_add {offset : UInt64} {desired : UInt64} {s r : RegionScan} (m : ℕ)
    (h : scanRegion virt2Phys vaddr size page desired fuel offset s = some r) :
    scanRegion virt2Phys vaddr size page desired (fuel + m) offset s = some r := by
  induction fuel generalizing offset s with
  | zero => cases h
  | succ fuel ih =>
    rw [Nat.succ_add]
    rw [scanRegion] at h ⊢
    by_cases hlt : offset < size
    · rw [if_pos hlt] at h ⊢
      cases ht : translated virt2Phys (vaddr + offset) with
      | none =>
        simp only [ht] at h ⊢
        exact ih h
      | some p =>
        simp only [ht] at h ⊢
        split at h
        · next hd => rwa [if_pos hd]
        · next hd =>
          rw [if_neg hd]
          exact ih h
    · rwa [if_neg hlt] at h ⊢

theorem findLargestPhysicalRegion_add {desired : UInt64} {r : PhysicalMemRegion} (m : ℕ)
    (h : findLargestPhysicalRegion virt2Phys fuel vaddr size page desired = some r) :
    findLargestPhysicalRegion virt2Phys (fuel + m) vaddr size page desired = some r := by
  unfold findLargestPhysicalRegion at h ⊢
  generalize (if desired = 0 then UINT64_MAX else desired) = limit at h ⊢
  by_cases hlt : limit < page
  · simpa only [hlt, if_true] using h
  · simp only [hlt, if_false] at h ⊢
    obtain ⟨s, hs, rfl⟩ := Option.map_eq_some_iff.mp h
    rw [scanRegion_add m hs]
    rfl

/-- The region returned is the best one in front of the page at which the scan stops. -/
theorem findLargestPhysicalRegion_stop (virt2Phys : Virt2Phys) (vaddr : UInt64) {desired : UInt64}
    (hsize : size.toNat = N * page.toNat) (hp : 0 < page.toNat) (hf : N < fuel)
    (hd : page ≤ desired) : ∃ j, j ≤ N ∧
      findLargestPhysicalRegion virt2Phys fuel vaddr size page desired =
        some (region vaddr page (pageScan virt2Phys vaddr page j).best) ∧
      (j = N ∨ desired ≤ (region vaddr page (pageScan virt2Phys vaddr page j).best).size) ∧
      ∀ i, i < j → (region vaddr page (pageScan virt2Phys vaddr page i).best).size < desired := by
  have hpos : 0 < desired := UInt64.lt_of_lt_of_le (UInt64.lt_iff_toNat_lt.mpr hp) hd
  have hne : desired ≠ 0 := by
    rintro rfl
    exact absurd hpos (by decide)
  obtain ⟨j, hj, he, hend, hall⟩ := scanRegion_eq virt2Phys vaddr hsize hp hpos (Nat.zero_le N)
    hf hpos
  have hzero : UInt64.ofNat 0 * page = 0 := UInt64.zero_mul
  have hstart : regionScan vaddr page (pageScan virt2Phys vaddr page 0) =
      ⟨.empty, .empty⟩ := rfl
  rw [hzero, hstart] at he
  refine ⟨j, hj, ?_, hend, fun i hi => hall i (Nat.zero_le i) hi⟩
  simp only [findLargestPhysicalRegion, if_neg hne, if_neg (UInt64.not_lt.mpr hd), he]
  rfl

/-- Without a desired size, all pages are scanned. -/
theorem findLargestPhysicalRegion_eq (virt2Phys : Virt2Phys) (vaddr : UInt64)
    (hsize : size.toNat = N * page.toNat) (hp : 0 < page.toNat) (hf : N < fuel) :
    findLargestPhysicalRegion virt2Phys fuel vaddr size page 0 =
      some (region vaddr page (pageScan virt2Phys vaddr page N).best) := by
  have hmax : page ≤ UINT64_MAX := by
    rw [UInt64.le_iff_toNat_le]
    have hlt := page.toNat_lt
    change page.toNat ≤ 2 ^ 64 - 1
    omega
  obtain ⟨j, hj, he, hend, _⟩ := findLargestPhysicalRegion_stop virt2Phys vaddr hsize hp hf hmax
  have hlast : j = N := by
    rcases hend with rfl | hd
    · rfl
    · -- only the whole address space would be large enough
      have hbest := stop_best_le virt2Phys vaddr page j
      have hlt := size.toNat_lt
      rw [UInt64.le_iff_toNat_le, toNat_size_best virt2Phys vaddr hsize hp hj] at hd
      change 2 ^ 64 - 1 ≤ _ at hd
      by_contra hne
      have hmul : ((pageScan virt2Phys vaddr page j).best.length + 1) * page.toNat ≤
          N * page.toNat := Nat.mul_le_mul_right _ (by omega)
      rw [Nat.succ_mul] at hmul
      omega
  rw [← hlast, ← he]
  rfl

/-- Whatever fuel a scan came to its end with, it found the best region. -/
theorem eq_best_of_scan {r : PhysicalMemRegion} (hsize : size.toNat = N * page.toNat)
    (hp : 0 < page.toNat)
    (h : findLargestPhysicalRegion virt2Phys fuel vaddr size page 0 = some r) :
    r = region vaddr page (pageScan virt2Phys vaddr page N).best := by
  have hall := findLargestPhysicalRegion_add (N + 1) h
  rw [findLargestPhysicalRegion_eq virt2Phys vaddr hsize hp (by omega)] at hall
  exact (Option.some.inj hall).symm

/-! What the scan of a whole block finds. -/

theorem contiguous_best (hsize : size.toNat = N * page.toNat) (hp : 0 < page.toNat) :
    (region vaddr page (pageScan virt2Phys vaddr page N).best).Contiguous virt2Phys page := by
  have hlen := toNat_size_best virt2Phys vaddr hsize hp (Nat.le_refl N)
  have hholds := (scanned_scan (· + page) (frame virt2Phys vaddr page) N).holds
  change (pageScan virt2Phys vaddr page N).best.Holds _ _ at hholds
  generalize (pageScan virt2Phys vaddr page N).best = g at hlen hholds
  intro k hk
  rw [hlen] at hk
  have hk : k < g.length := Nat.lt_of_mul_lt_mul_right hk
  have hpage := hholds k hk
  rw [iterate_add, frame, UInt64.ofNat_add, UInt64.add_mul, ← UInt64.add_assoc] at hpage
  rw [region, if_neg (by omega)]
  exact hpage

theorem inside_best (hsize : size.toNat = N * page.toNat) (hp : 0 < page.toNat)
    (hfit : vaddr.toNat + size.toNat ≤ 2 ^ 64)
    (hne : (region vaddr page (pageScan virt2Phys vaddr page N).best).size ≠ 0) :
    (region vaddr page (pageScan virt2Phys vaddr page N).best).Inside vaddr size := by
  have hN : N * page.toNat < 2 ^ 64 := hsize ▸ size.toNat_lt
  have hstop := stop_best_le virt2Phys vaddr page N
  have htotal := toNat_size_best virt2Phys vaddr hsize hp (Nat.le_refl N)
  generalize (pageScan virt2Phys vaddr page N).best = g at hstop hne htotal
  have hlen : g.length ≠ 0 := by
    intro h
    rw [size_region, h] at hne
    exact hne UInt64.zero_mul
  have hend : (g.start + g.length) * page.toNat ≤ N * page.toNat :=
    Nat.mul_le_mul_right _ hstop
  have hpos : 0 < g.length * page.toNat := Nat.mul_pos (Nat.pos_of_ne_zero hlen) hp
  rw [Nat.add_mul] at hend
  have hstart : (vaddr + UInt64.ofNat g.start * page).toNat =
      vaddr.toNat + g.start * page.toNat := by
    rw [UInt64.toNat_add, toNat_ofNat_mul (N := N) (by omega) hN hp]
    exact Nat.mod_eq_of_lt (by omega)
  unfold PhysicalMemRegion.Inside
  rw [htotal, region, if_neg hlen, hstart]
  omega

/-- The region is as large as the block exactly when the whole block is contiguous. -/
theorem size_le_best_iff (hsize : size.toNat = N * page.toNat) (hp : 0 < page.toNat) :
    size ≤ (region vaddr page (pageScan virt2Phys vaddr page N).best).size ↔
      BlockContiguous virt2Phys vaddr size page := by
  have hstop := stop_best_le virt2Phys vaddr page N
  have hall : (pageScan virt2Phys vaddr page N).best.length = N ↔ _ :=
    length_best_eq_iff (· + page) (frame virt2Phys vaddr page) N
  rw [UInt64.le_iff_toNat_le, toNat_size_best virt2Phys vaddr hsize hp (Nat.le_refl N), hsize]
  have hwhole : N * page.toNat ≤ (pageScan virt2Phys vaddr page N).best.length * page.toNat ↔
      (pageScan virt2Phys vaddr page N).best.length = N := by
    rw [Nat.mul_le_mul_right_iff hp]
    omega
  rw [hwhole, hall]
  apply exists_congr
  intro paddr
  apply forall_congr'
  intro k
  rw [iterate_add, hsize, Nat.mul_lt_mul_right hp]
  rfl

/-- A block of no bytes has no region. -/
theorem findLargestPhysicalRegion_of_empty (virt2Phys : Virt2Phys) (vaddr page : UInt64)
    (hf : 0 < fuel) :
    findLargestPhysicalRegion virt2Phys fuel vaddr 0 page 0 = some .empty := by
  obtain ⟨n, rfl⟩ : ∃ n, fuel = n + 1 := ⟨fuel - 1, by omega⟩
  simp only [findLargestPhysicalRegion, scanRegion, if_true]
  have hno : ¬ (0 : UInt64) < 0 := by decide
  simp [hno]

theorem eq_empty_of_scan {r : PhysicalMemRegion} {page : UInt64}
    (h : findLargestPhysicalRegion virt2Phys fuel vaddr 0 page 0 = some r) : r = .empty := by
  have hempty := findLargestPhysicalRegion_of_empty virt2Phys vaddr page (Nat.succ_pos fuel)
  rw [findLargestPhysicalRegion_add 1 h] at hempty
  exact Option.some.inj hempty

end Tailslayer.Memory
