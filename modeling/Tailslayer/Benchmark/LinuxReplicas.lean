import Tailslayer.Benchmark.ReplicaPage
import Tailslayer.HedgedReader.Placement
import Tailslayer.Memory.Pagemap

/-! The replicas of a run on Linux: which of them are found in the physical memory, and on which
channels. -/
namespace Tailslayer.Benchmark

open Linux Memory
open HedgedReader (channelOf toInt_computeChannel)

variable {Mask : Type} {config : AppConfig Mask} {mem mem' : MemorySetup} {status visible : Bool}
  {file : Pagemap} {frames : ℕ → Option ℕ} {page : UInt64} {first bit d : ℕ}

/-- A page of 1 GiB, as it comes from `mmap` with `MAP_HUGETLB`: aligned, and in one piece from a
frame that is aligned as well. -/
structure HugePage (frames : ℕ → Option ℕ) (page : UInt64) (first : ℕ) : Prop where
  aligned : 2 ^ 30 ∣ page.toNat
  fits : page.toNat + 2 ^ 30 ≤ 2 ^ 64
  frames : ∀ i < 2 ^ 18, frames (page.toNat / 4096 + i) = some (first + i)
  firstAligned : 2 ^ 18 ∣ first

/-- The addresses in the page, as they are seen with and without privileges. -/
theorem virtToPhys_page (hs : Serves file frames visible) (hp : HugePage frames page first)
    {replica : UInt64} (ha : replica.toNat = page.toNat + d) (hd : d < 2 ^ 30) :
    virtToPhys file replica =
      UInt64.ofNat (shown visible (first + d / 4096) * 4096 + d % 4096) := by
  obtain ⟨q, hq⟩ := hp.aligned
  have hpage : replica.toNat / 4096 = page.toNat / 4096 + d / 4096 := by omega
  have hoffset : replica.toNat % 4096 = d % 4096 := by omega
  rw [virtToPhys_eq hs, hpage, hp.frames (d / 4096) (by omega), hoffset]

/-- With privileges, the page is at `first * 4096`. -/
theorem virtToPhys_visible (hs : Serves file frames true) (hp : HugePage frames page first)
    {replica : UInt64} (ha : replica.toNat = page.toNat + d) (hd : d < 2 ^ 30) :
    virtToPhys file replica = UInt64.ofNat (first * 4096 + d) := by
  have hframe : shown true (first + d / 4096) = first + d / 4096 := if_pos rfl
  have hsum : (first + d / 4096) * 4096 + d % 4096 = first * 4096 + d := by omega
  rw [virtToPhys_page hs hp ha hd, hframe, hsum]

/-- The frames of the page are those of an address space of 64 bits. -/
theorem first_lt (hs : Serves file frames visible) (hp : HugePage frames page first) :
    first + 2 ^ 18 ≤ 2 ^ 52 := by
  have hlast := hs.fits _ _ (hp.frames (2 ^ 18 - 1) (by omega))
  omega

/-- `VirtToPhys` in the place of the translation. -/
def translation (file : Pagemap) : Virt2Phys := fun vaddr => some (virtToPhys file vaddr)

theorem unresolved_iff (file : Pagemap) (replica : UInt64) :
    Unresolved (translation file) replica ↔
      virtToPhys file replica = Memory.UINT64_MAX ∨ virtToPhys file replica = 0 := Iff.rfl

/-- A physical address of the page is no error value, if the page is not at the start. -/
theorem resolved_of_visible (hs : Serves file frames true) (hp : HugePage frames page first)
    (hfirst : first ≠ 0) {replica : UInt64} (ha : replica.toNat = page.toNat + d)
    (hd : d + 64 ≤ 2 ^ 30) : ¬ Unresolved (translation file) replica := by
  have hlt := first_lt hs hp
  rw [unresolved_iff, virtToPhys_visible hs hp ha (by omega), ← UInt64.toNat_inj,
    ← UInt64.toNat_inj, UInt64.toNat_ofNat', Nat.mod_eq_of_lt (by omega)]
  have hmax : Memory.UINT64_MAX.toNat = 2 ^ 64 - 1 := rfl
  have hzero : (0 : UInt64).toNat = 0 := rfl
  omega

/-- The first replica is at the start of the page, where hidden frames show as address zero. -/
theorem unresolved_first (hs : Serves file frames visible) (hp : HugePage frames page first)
    (h : visible = false ∨ first = 0) : Unresolved (translation file) page := by
  right
  have hpage := virtToPhys_page hs hp (d := 0) (Nat.add_zero page.toNat).symm (by decide)
  rw [Nat.zero_div, Nat.zero_mod, Nat.add_zero, Nat.add_zero] at hpage
  have hshown : shown visible first = 0 := by
    rcases h with rfl | rfl
    · rfl
    · cases visible <;> rfl
  change virtToPhys file page = 0
  rw [hpage, hshown]
  rfl

theorem length_replicas_pos {virt2Phys : Virt2Phys}
    (h : setupReplicaPage virt2Phys config mem = .ok (status, mem')) :
    0 < mem'.replicas.length := by
  have hlen := (replicasSet_setupReplicaPage h).length
  have hne : config.nChannels.toInt ≠ 0 := by
    intro hzero
    have hn : config.nChannels = 0 := Int32.toInt_inj.mp hzero
    rw [setupReplicaPage, hn] at h
    cases h
  omega

/-- On a page that starts at a multiple of its size, the bit tells even replicas from odd ones. -/
theorem channelOf_replica_page (hfirst : 2 ^ 18 ∣ first) (hbit : bit < 30) (i : ℕ) :
    channelOf 2 bit (first * 4096 + i * 2 ^ bit) = i % 2 := by
  obtain ⟨q, rfl⟩ := hfirst
  have hpow : (2 : ℕ) ^ 30 = 2 ^ (29 - bit) * 2 * 2 ^ bit := by
    rw [Nat.mul_assoc, Nat.mul_comm 2, ← pow_succ, ← pow_add]
    congr 1
    omega
  have hstart : 2 ^ 18 * q * 4096 + i * 2 ^ bit = (i + q * 2 ^ (29 - bit) * 2) * 2 ^ bit := by
    calc 2 ^ 18 * q * 4096 + i * 2 ^ bit = q * 2 ^ 30 + i * 2 ^ bit := by ring
      _ = (i + q * 2 ^ (29 - bit) * 2) * 2 ^ bit := by rw [hpow]; ring
  rw [channelOf, hstart, Nat.shiftRight_eq_div_pow, Nat.mul_div_cancel _ (Nat.two_pow_pos bit),
    Nat.add_mul_mod_self_right]

/-- Over every page table with the page in it, and every number and distance of replicas that fits
the page: `setup_replica_page` succeeds exactly for a process that is shown the frames, unless they
are the first ones; and then, with the distance of one bit, the replicas are on both channels in
turn. -/
theorem linux_replicas (hs : Serves file frames visible)
    (hp : HugePage frames mem.replicaPage first)
    (hfits : Fits config.nChannels.toInt config.channelOffset.toInt)
    (h : setupReplicaPage (translation file) config mem = .ok (status, mem')) :
    (status = true ↔ visible = true ∧ first ≠ 0) ∧
    (status = true → ∀ bit : ℕ, config.channelBit.toInt = bit → bit < 30 →
      config.channelOffset.toInt = 2 ^ bit → ∀ i (hi : i < mem'.replicas.length),
        (computeChannel (virtToPhys file mem'.replicas[i]) config.channelBit).toInt =
          (i % 2 : ℕ)) := by
  have hset := replicasSet_setupReplicaPage h
  have hpos := length_replicas_pos h
  have hplace : ∀ i (hi : i < mem'.replicas.length), ∃ d : ℕ,
      (d : ℤ) = i * config.channelOffset.toInt ∧ d + 64 ≤ 2 ^ 30 ∧
        mem'.replicas[i].toNat = mem.replicaPage.toNat + d := by
    intro i hi
    have hlen := hset.length
    obtain ⟨hpos, hle⟩ := hfits.product_bounds (k := i) (by omega)
    have hat := toNat_replicaAddress hp.fits (hset.address i hi) (Or.inr ⟨hpos, hle⟩)
    exact ⟨(i * config.channelOffset.toInt).toNat, by omega, by omega, by omega⟩
  have hfirst : mem.replicaPage ∈ mem'.replicas := by
    have h0 := (replicaAddress_zero _ _).symm.trans (hset.address 0 hpos)
    exact Except.ok.inj h0 ▸ List.getElem_mem hpos
  have hstatus : status = true ↔ visible = true ∧ first ≠ 0 := by
    constructor
    · intro hok
      by_contra hnot
      have hbad : visible = false ∨ first = 0 := by
        cases visible with
        | false => exact Or.inl rfl
        | true => exact Or.inr (by simpa using hnot)
      have hfalse := hset.resolved.mpr ⟨_, hfirst, unresolved_first hs hp hbad⟩
      rw [hok] at hfalse
      cases hfalse
    · rintro ⟨rfl, hne⟩
      cases hok : status with
      | true => rfl
      | false =>
        obtain ⟨a, ha, hun⟩ := hset.resolved.mp hok
        obtain ⟨i, hi, rfl⟩ := List.mem_iff_getElem.mp ha
        obtain ⟨d, -, hle, hat⟩ := hplace i hi
        exact absurd hun (resolved_of_visible hs hp hne hat hle)
  refine ⟨hstatus, ?_⟩
  intro hok bit hbit hlt hoffset i hi
  obtain ⟨rfl, -⟩ := hstatus.mp hok
  obtain ⟨d, hd, hle, ha⟩ := hplace i hi
  obtain rfl : d = i * 2 ^ bit := by
    rw [hoffset] at hd
    exact_mod_cast hd
  rw [virtToPhys_visible hs hp ha (by omega),
    toInt_computeChannel hbit (by omega), channelOf_replica_page hp.firstAligned hlt]

/-- Pages are in the frames of the same number. -/
def identityFrames (page : ℕ) : Option ℕ := if page < 2 ^ 52 then some page else none

def identityPagemap : Pagemap where
  opens := true
  pread := fun offset => (Nat.digitsAppend 256 8 (2 ^ 63 + offset.toNat / 8)).map UInt8.ofNat

theorem serves_identity : Serves identityPagemap identityFrames true where
  opens := rfl
  entry := by
    intro page hpage
    have hoffset : (UInt64.ofNat (8 * page)).toNat / 8 = page := by
      rw [UInt64.toNat_ofNat', Nat.mod_eq_of_lt (by omega),
        Nat.mul_div_cancel_left page (by decide)]
    refine Or.inl ⟨2 ^ 63 + page, by omega, ?_, by rw [identityPagemap]; simp only [hoffset]⟩
    rw [identityFrames, if_pos hpage]
    refine ⟨?_, ?_⟩
    · rw [Nat.testBit_two_pow_add_eq, Nat.testBit_lt_two_pow (by omega)]
      rfl
    · rw [shown, if_pos rfl]
      omega
  fits := by
    intro page frame h
    rw [identityFrames] at h
    split at h
    · cases h
      assumption
    · cases h

theorem hugePage_identity : HugePage identityFrames 0x40000000 (2 ^ 18) where
  aligned := ⟨1, rfl⟩
  fits := by decide
  frames := by
    intro i hi
    change identityFrames (2 ^ 18 + i) = _
    rw [identityFrames, if_pos (by omega)]
  firstAligned := ⟨1, rfl⟩

def pageSet : MemorySetup := { MemorySetup.fresh with replicaPage := 0x40000000 }

theorem setupReplicaPage_identity : setupReplicaPage (translation identityPagemap) allArmsConfig
    pageSet = .ok (true, { pageSet with replicas := [0x40000000, 0x40000100] }) := by
  rfl

theorem linux_replicas_identity :
    (computeChannel (virtToPhys identityPagemap 0x40000100) 8).toInt = 1 :=
  (linux_replicas serves_identity hugePage_identity (Or.inr (by decide))
    setupReplicaPage_identity).2 rfl 8 rfl (by decide) rfl 1 (by decide)

end Tailslayer.Benchmark
