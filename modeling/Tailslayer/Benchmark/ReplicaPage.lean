import Tailslayer.Benchmark.ArmsServed
import Tailslayer.HedgedReader.Layout

/-! Whether the copies of the replicas stay inside their page, apart from each other. -/
namespace Tailslayer.Benchmark

open DynamicThreadManager Memory

variable {Mask : Type} {config : AppConfig Mask} {page : UInt64} {channelOffset : Int32}
  {i : ℕ} {a : UInt64}

/-- The 64 bytes of each replica lie within the first `SUPERPAGE_SIZE` bytes of the region, and
share none with another replica. -/
def ReplicasInPage (config : AppConfig Mask) (region : PhysicalMemRegion) : Prop :=
  ∀ i : ℕ, (i : ℤ) < config.nChannels.toInt →
    ∃ a, replicaAddress config.channelOffset region.vaddr i = .ok a ∧
      region.vaddr.toNat ≤ a.toNat ∧
      a.toNat + 64 ≤ region.vaddr.toNat + SUPERPAGE_SIZE.toNat ∧
      ∀ j : ℕ, (j : ℤ) < config.nChannels.toInt → j ≠ i →
        ∀ b, replicaAddress config.channelOffset region.vaddr j = .ok b →
          ByteMemory.Apart 64 a.toNat b.toNat

/-- A negative offset wraps around the address space. -/
theorem toNat_toSizeT_int (x : Int32) :
    ((toSizeT x).toNat : ℤ) = if 0 ≤ x.toInt then x.toInt else x.toInt + 2 ^ 64 := by
  have hx : x.toInt64.toBitVec.toInt = x.toInt := x.toInt_toInt64
  have hlo := x.le_toInt
  have hhi := x.toInt_lt
  rw [BitVec.toInt_eq_toNat_cond] at hx
  change (x.toInt64.toBitVec.toNat : ℤ) = _
  have hlt := x.toInt64.toBitVec.isLt
  split at hx <;> split <;> omega

theorem replicaAddress_eq_ok_iff : replicaAddress channelOffset page i = .ok a ↔
    -2 ^ 31 ≤ i * channelOffset.toInt ∧ i * channelOffset.toInt < 2 ^ 31 ∧
      a = page + toSizeT (Int32.ofInt (i * channelOffset.toInt)) := by
  unfold replicaAddress intMul
  by_cases h : -2 ^ 31 ≤ i * channelOffset.toInt ∧ i * channelOffset.toInt < 2 ^ 31
  · rw [if_pos h]
    constructor
    · intro he
      cases he
      exact ⟨h.1, h.2, rfl⟩
    · rintro ⟨-, -, rfl⟩
      rfl
  · rw [if_neg h]
    constructor
    · intro he
      cases he
    · rintro ⟨h₁, h₂, -⟩
      exact (h ⟨h₁, h₂⟩).elim

/-- An address inside the page lies at the product: neither was wrapped. -/
theorem toNat_replicaAddress (hfit : page.toNat + 2 ^ 30 ≤ 2 ^ 64)
    (ha : replicaAddress channelOffset page i = .ok a)
    (hin : page.toNat ≤ a.toNat ∧ a.toNat + 64 ≤ page.toNat + 2 ^ 30 ∨
      0 ≤ i * channelOffset.toInt ∧ i * channelOffset.toInt + 64 ≤ 2 ^ 30) :
    (a.toNat : ℤ) = page.toNat + i * channelOffset.toInt := by
  obtain ⟨h₁, h₂, rfl⟩ := replicaAddress_eq_ok_iff.mp ha
  have hd := toNat_toSizeT_int (Int32.ofInt (i * channelOffset.toInt))
  rw [Int32.toInt_ofInt_of_le h₁ h₂] at hd
  rw [UInt64.toNat_add] at hin ⊢
  split at hd <;> omega

section Geometry

variable {region : PhysicalMemRegion} {n offset : ℤ}

/-- The offsets of `n` channels leave room for each of them. -/
def Fits (n offset : ℤ) : Prop := n ≤ 1 ∨ 64 ≤ offset ∧ (n - 1) * offset + 64 ≤ 2 ^ 30

theorem Fits.product_bounds (h : Fits n offset) {k : ℕ} (hk : (k : ℤ) < n) :
    0 ≤ k * offset ∧ k * offset + 64 ≤ 2 ^ 30 := by
  rcases h with h | ⟨h64, hle⟩
  · have hk0 : (k : ℤ) = 0 := by omega
    rw [hk0]
    omega
  · have hmul : (k : ℤ) * offset ≤ (n - 1) * offset :=
      Int.mul_le_mul_of_nonneg_right (by omega) (by omega)
    have hpos : 0 ≤ (k : ℤ) * offset := Int.mul_nonneg (by omega) (by omega)
    omega

theorem add_le_mul_of_lt (h64 : 64 ≤ offset) {i j : ℕ} (hlt : i < j) :
    i * offset + 64 ≤ j * offset := by
  have hmul : ((i : ℤ) + 1) * offset ≤ j * offset :=
    Int.mul_le_mul_of_nonneg_right (by omega) (by omega)
  rw [Int.add_mul] at hmul
  omega

theorem fits_of_replicasInPage (hfit : region.vaddr.toNat + 2 ^ 30 ≤ 2 ^ 64)
    (h : ReplicasInPage config region) :
    Fits config.nChannels.toInt config.channelOffset.toInt := by
  by_contra hnot
  unfold Fits at hnot
  unfold ReplicasInPage at h
  have hsuper : SUPERPAGE_SIZE.toNat = 2 ^ 30 := rfl
  rw [hsuper] at h
  -- replica 1 is apart from replica 0, and the last replica is inside the page
  obtain ⟨a, ha, hlo, hhi, hapart⟩ := h 1 (by omega)
  have hoff := toNat_replicaAddress hfit ha (Or.inl ⟨hlo, hhi⟩)
  have hzero := hapart 0 (by omega) (by decide) _ (replicaAddress_zero _ _)
  obtain ⟨z, hz, hzlo, hzhi, -⟩ := h (config.nChannels.toInt - 1).toNat (by omega)
  have hlast := toNat_replicaAddress hfit hz (Or.inl ⟨hzlo, hzhi⟩)
  rw [Int.toNat_of_nonneg (by omega)] at hlast
  unfold ByteMemory.Apart at hzero
  omega

theorem replicasInPage_of_fits (hfit : region.vaddr.toNat + 2 ^ 30 ≤ 2 ^ 64)
    (h : Fits config.nChannels.toInt config.channelOffset.toInt) :
    ReplicasInPage config region := by
  have hsuper : SUPERPAGE_SIZE.toNat = 2 ^ 30 := rfl
  have hplace : ∀ k : ℕ, (k : ℤ) < config.nChannels.toInt → ∀ b,
      replicaAddress config.channelOffset region.vaddr k = .ok b →
        (b.toNat : ℤ) = region.vaddr.toNat + k * config.channelOffset.toInt :=
    fun k hk b hb => toNat_replicaAddress hfit hb (Or.inr (h.product_bounds hk))
  intro i hi
  obtain ⟨hi0, hi30⟩ := h.product_bounds hi
  have ha : replicaAddress config.channelOffset region.vaddr i =
      .ok (region.vaddr + toSizeT (Int32.ofInt (i * config.channelOffset.toInt))) :=
    replicaAddress_eq_ok_iff.mpr ⟨by omega, by omega, rfl⟩
  have haddr := hplace i hi _ ha
  refine ⟨_, ha, by omega, by omega, ?_⟩
  intro j hj hne b hb
  have hbddr := hplace j hj b hb
  have h64 : 64 ≤ config.channelOffset.toInt := by
    rcases h with h | ⟨h64, -⟩ <;> omega
  unfold ByteMemory.Apart
  rcases Nat.lt_or_gt_of_ne hne with hlt | hlt
  · have hapart := add_le_mul_of_lt h64 hlt
    omega
  · have hapart := add_le_mul_of_lt h64 hlt
    omega

theorem replicasInPage_iff_geometry (hfit : region.vaddr.toNat + 2 ^ 30 ≤ 2 ^ 64) :
    ReplicasInPage config region ↔
      config.nChannels.toInt ≤ 1 ∨ 64 ≤ config.channelOffset.toInt ∧
        (config.nChannels.toInt - 1) * config.channelOffset.toInt + 64 ≤ 2 ^ 30 :=
  ⟨fits_of_replicasInPage hfit, replicasInPage_of_fits hfit⟩

end Geometry

variable {os : Windows} {fuel : ℕ} {l : LargePage}

/-- The region has room for the pages of the configuration. -/
theorem superpage_le_request (config : AppConfig Mask) :
    SUPERPAGE_SIZE ≤ (request config).sizeInBytes := by
  unfold request AllocationRequest.ofSize
  cases config.withload <;> decide

/-- For every configuration and every successful allocation: the replicas stay inside their page
exactly when the offsets of the channels leave room for them. -/
theorem replicasInPage_iff (hpage : os.PageSizeDocumented) (hfit : os.BlocksFit)
    (hl : allocateLargePageMin os fuel (request config) = some l) (hne : l.out.virtaddr ≠ 0) :
    ReplicasInPage config l.memBegin ↔
      config.nChannels.toInt ≤ 1 ∨ 64 ≤ config.channelOffset.toInt ∧
        (config.nChannels.toInt - 1) * config.channelOffset.toInt + 64 ≤ 2 ^ 30 := by
  have hle := superpage_le_request config
  have hpos : 0 < (request config).sizeInBytes := UInt64.lt_of_lt_of_le (by decide) hle
  obtain ⟨hlarge, ⟨-, hinside⟩, hblock, -⟩ :=
    (allocated_allocateLargePageMin hl).region_spec hpage hfit hpos hne
  apply replicasInPage_iff_geometry
  have hroom := UInt64.le_iff_toNat_le.mp (UInt64.le_trans hle hlarge)
  change 2 ^ 30 ≤ _ at hroom
  omega

/-- Two channels under load that are told apart by address bit 30. -/
def bitThirty : Options :=
  ⟨false, false, some "multi_ch_stress", none, none, some 30, none, some 2, none⟩

def bitThirtyConfig : AppConfig GroupAffinity := { allArmsConfig with
  toArms := ⟨false, false, false, false, true⟩
  channelBit := 30
  channelOffset := 1073741824 }

theorem parseCli_bitThirty : parseCli (some bitThirty) (true, fourCoresConfiguration)
    Begin.largest = .ok bitThirtyConfig := by
  rfl

theorem allocateLargePageMin_bitThirty :
    allocateLargePageMin (fortyGiB onePiece) 1025 (request bitThirtyConfig) =
      some onePieceBlock := by
  have hrequest : request bitThirtyConfig = .ofSize 0x80000000 := by decide
  rw [hrequest, allocateLargePageMin_onePiece]

theorem replicasInPage_iff_bitThirty : ReplicasInPage bitThirtyConfig onePieceBlock.memBegin ↔
    bitThirtyConfig.nChannels.toInt ≤ 1 ∨ 64 ≤ bitThirtyConfig.channelOffset.toInt ∧
      (bitThirtyConfig.nChannels.toInt - 1) * bitThirtyConfig.channelOffset.toInt + 64 ≤
        2 ^ 30 :=
  replicasInPage_iff (pageSizeDocumented_fortyGiB _) (blocksFit_fortyGiB _)
    allocateLargePageMin_bitThirty (by decide)

/-- The second replica is the first line of the stress page. -/
theorem not_replicasInPage : ¬ ∀ (result : Option Options)
    (detected : Bool × ProcessorConfigurationVector GroupAffinity) (main : Begin)
    (config : AppConfig GroupAffinity) (os : Windows) (fuel : ℕ) (l : LargePage),
    parseCli result detected main = .ok config → os.PageSizeDocumented → os.BlocksFit →
    allocateLargePageMin os fuel (request config) = some l → l.out.virtaddr ≠ 0 →
    ReplicasInPage config l.memBegin := by
  intro h
  have hin := h _ _ _ _ _ _ _ parseCli_bitThirty (pageSizeDocumented_fortyGiB _)
    (blocksFit_fortyGiB _) allocateLargePageMin_bitThirty (by decide)
  rw [replicasInPage_iff_geometry (by decide)] at hin
  exact absurd hin (by decide)

end Tailslayer.Benchmark
