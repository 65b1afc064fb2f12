import Tailslayer.Benchmark.Program
import Tailslayer.Benchmark.ReplicaPage
import Tailslayer.HedgedReader.Placement
import Tailslayer.Memory.WholePages

/-! The replicas of a run on Windows: where the lines that the arms measure are in physical memory,
and on which channels. -/
namespace Tailslayer.Benchmark

open DynamicThreadManager Memory
open HedgedReader (Build channelOf toInt_computeChannel)

variable {Mask : Type} {config : AppConfig Mask} {os : Windows} {virt2Phys : Virt2Phys}
  {mem outMem : MemorySetup} {l : LargePage} {calls : List HeapCall} {fuel bit b i : ℕ}
  {wanted : UInt64}

/-- The scan found successive frames, so all bytes of the region follow each other, as long as the
frames stay. -/
theorem onePiece_memBegin {out : AllocationRequest}
    (hl : allocateLargePageMin os fuel out = some l) (hpage : os.PageSizeDocumented)
    (hblocks : os.BlocksAligned)
    (hsame : ∀ memMul, os.StopsAt fuel out.sizeInBytes memMul → os.virt2Phys memMul = virt2Phys)
    (hwhole : PagesWhole virt2Phys os.getLargePageMinimum) (hw : 0 < out.sizeInBytes)
    (hne : l.out.virtaddr ≠ 0) : l.memBegin.OnePiece virt2Phys os.getLargePageMinimum := by
  obtain ⟨hp, hpow, hv, N, hN⟩ :=
    (allocated_allocateLargePageMin hl).pages hpage hblocks hw hne
  obtain ⟨memMul, hstops, hscan, hlarge⟩ := stopsAt_allocateLargePageMin hl hne
  rw [hsame memMul hstops] at hscan
  exact onePiece_of_scan hwhole hp hpow hv hN hscan (UInt64.lt_of_lt_of_le hw hlarge)

/-- Each arm measures the replicas from the first one on. -/
theorem prefix_channelAddrs {name : ArmName} {addrs : List UInt64}
    (h : name.channelAddrs mem = .ok addrs) : addrs <+: mem.replicas := by
  unfold ArmName.channelAddrs at h
  split at h
  · split at h
    · cases h
    · next replica rest hreplicas =>
      cases h
      rw [hreplicas]
      exact ⟨rest, rfl⟩
  · cases h
    exact List.prefix_rfl

/-- A line of 64 bytes is on one channel. -/
theorem channelOf_line {p : ℕ} (hp : 64 ∣ p) (hb : b < 64) (hbit : 6 ≤ bit) (i : ℕ) :
    channelOf 2 bit (p + (i * 2 ^ bit + b)) = (p >>> bit + i) % 2 := by
  have hpow : (2 : ℕ) ^ bit = 64 * 2 ^ (bit - 6) := by
    rw [show (64 : ℕ) = 2 ^ 6 from rfl, ← pow_add]
    congr 1
    omega
  have hline : (p + b) / 2 ^ bit = p / 2 ^ bit := by
    rw [hpow, ← Nat.div_div_eq_div_mul, ← Nat.div_div_eq_div_mul]
    congr 1
    omega
  have hsum : p + (i * 2 ^ bit + b) = p + b + i * 2 ^ bit := by ring
  rw [channelOf, Nat.shiftRight_eq_div_pow, hsum,
    Nat.add_mul_div_right _ _ (Nat.two_pow_pos bit), hline, Nat.shiftRight_eq_div_pow]

/-- The replicas of a successful set-up start at its page. -/
theorem replicas_setupMemory
    (h : setupMemory os virt2Phys fuel config outMem = some (.ok (true, mem, calls))) :
    (mem.replicas.length : ℤ) = config.nChannels.toInt ∧
      ∀ i (hi : i < mem.replicas.length),
        replicaAddress config.channelOffset mem.replicaPage i = .ok mem.replicas[i] := by
  obtain ⟨l, -, h⟩ := Option.map_eq_some_iff.mp h
  unfold setupPages at h
  split at h
  · cases h
  · obtain ⟨⟨status, mem'⟩, hset, h⟩ := Except.bind_eq_ok_iff.mp h
    cases h
    have hreplicas := replicasSet_setupReplicaPage hset
    refine ⟨hreplicas.length, ?_⟩
    rw [(pages_setupReplicaPage hset).2.1]
    exact hreplicas.address

/-- The lines of the replicas are in the region, at the distances of the replicas. -/
structure LinesPlaced (config : AppConfig Mask) (virt2Phys : Virt2Phys) (mem : MemorySetup) :
    Prop where
  line : 64 ∣ mem.physContigMem.paddr.toNat
  replica : ∀ i (hi : i < mem.replicas.length), ∃ d : ℕ, (d : ℤ) = i * config.channelOffset.toInt ∧
    ∀ b : ℕ, b < 64 → virtToPhys virt2Phys (mem.replicas[i] + UInt64.ofNat b) =
      mem.physContigMem.paddr + UInt64.ofNat (d + b)

theorem linesPlaced_setupMemory (hpage : os.PageSizeDocumented) (hfit : os.BlocksFit)
    (hblocks : os.BlocksAligned) (hlines : 64 ∣ os.getLargePageMinimum.toNat)
    (hsame : ∀ memMul, os.StopsAt fuel (request config).sizeInBytes memMul →
      os.virt2Phys memMul = virt2Phys)
    (hwhole : PagesWhole virt2Phys os.getLargePageMinimum)
    (hfits : Fits config.nChannels.toInt config.channelOffset.toInt)
    (h : setupMemory os virt2Phys fuel config outMem = some (.ok (true, mem, calls))) :
    LinesPlaced config virt2Phys mem := by
  obtain ⟨l, hl, hne, -, hcontig, hreplica, -⟩ := setupMemory_success h
  obtain ⟨hlen, haddress⟩ := replicas_setupMemory h
  have hall := allocated_allocateLargePageMin hl
  have hle := superpage_le_request config
  have hwanted : 0 < (request config).sizeInBytes := UInt64.lt_of_lt_of_le (by decide) hle
  have hpiece := onePiece_memBegin hl hpage hblocks hsame hwhole hwanted hne
  obtain ⟨hlarge, ⟨-, hinside⟩, hblock, -⟩ := hall.region_spec hpage hfit hwanted hne
  have hsize := UInt64.le_iff_toNat_le.mp (UInt64.le_trans hle hlarge)
  change 2 ^ 30 ≤ _ at hsize
  rw [← hcontig] at hpiece hsize hinside
  rw [hreplica, ← hcontig] at haddress
  refine ⟨hlines.trans hpiece.frame, ?_⟩
  intro i hi
  obtain ⟨hpos, hroom⟩ := hfits.product_bounds (k := i) (by omega)
  have hat := toNat_replicaAddress (by omega) (haddress i hi) (Or.inr ⟨hpos, hroom⟩)
  obtain ⟨d, hd⟩ := Int.eq_ofNat_of_zero_le hpos
  refine ⟨d, hd.symm, ?_⟩
  intro b hb
  have hplace : mem.replicas[i] + UInt64.ofNat b =
      mem.physContigMem.vaddr + UInt64.ofNat (d + b) := by
    have hd64 : mem.replicas[i] = mem.physContigMem.vaddr + UInt64.ofNat d := by
      rw [← UInt64.toNat_inj, UInt64.toNat_add, UInt64.toNat_ofNat']
      omega
    rw [hd64, UInt64.ofNat_add, UInt64.add_assoc]
  rw [hplace, virtToPhys, hpiece.bytes (d + b) (by omega)]
  rfl

/-- At the distance of one bit, the lines are on both channels in turn. -/
theorem LinesPlaced.channel (h : LinesPlaced config virt2Phys mem)
    (hbit : config.channelBit.toInt = bit) (hline : 6 ≤ bit) (hlt : bit < 31)
    (hoffset : config.channelOffset.toInt = 2 ^ bit) (hi : i < mem.replicas.length) (hb : b < 64) :
    (computeChannel (virtToPhys virt2Phys (mem.replicas[i] + UInt64.ofNat b))
      config.channelBit).toInt = ((mem.physContigMem.paddr.toNat >>> bit + i) % 2 : ℕ) := by
  obtain ⟨d, hd, hbytes⟩ := h.replica i hi
  obtain rfl : d = i * 2 ^ bit := by
    rw [hoffset] at hd
    exact_mod_cast hd
  have hsum : mem.physContigMem.paddr + UInt64.ofNat (i * 2 ^ bit + b) =
      UInt64.ofNat (mem.physContigMem.paddr.toNat + (i * 2 ^ bit + b)) := by
    rw [UInt64.ofNat_add mem.physContigMem.paddr.toNat, UInt64.ofNat_toNat]
  rw [hbytes b hb, hsum, toInt_computeChannel hbit hlt, channelOf_line h.line hb hline]

variable [Inhabited Mask] {options : Options}
  {detected : Bool × ProcessorConfigurationVector Mask} {main : Begin} {build : Build}
  {orders : Orders} {e : Execution Mask}

theorem toInt_shiftOne {channelBit channelOffset : Int32}
    (h : shiftOne channelBit = .ok channelOffset) (hbit : channelBit.toInt = bit)
    (hlt : bit < 31) : channelOffset.toInt = 2 ^ bit := by
  have hpow : ∀ k : Fin 31, ((1 : Int32) <<< Int32.ofInt k).toInt = 2 ^ (k : ℕ) := by decide
  have heq : channelBit = Int32.ofInt bit := by rw [← hbit, Int32.ofInt_toInt]
  unfold shiftOne at h
  split at h
  · cases h
    rw [heq]
    exact hpow ⟨bit, hlt⟩
  · cases h

theorem channelBit_of_parseCli (h : parseCli (some options) detected main = .ok config) :
    config.channelBit = options.channelBit.getD DEFAULT_CHANNEL_BIT := by
  unfold parseCli at h
  simp only at h
  split at h
  · cases h
  · obtain ⟨arms, -, h⟩ := Except.bind_eq_ok_iff.mp h
    obtain ⟨channelOffset, -, h⟩ := Except.bind_eq_ok_iff.mp h
    split at h
    · cases h
    · split at h
      · cases h
      · split at h
        · cases h
        · cases h
          rfl

/-- Without an offset on the command line, the distance is that of the bit. -/
theorem offset_of_parseCli (h : parseCli (some options) detected main = .ok config)
    (hnone : options.channelOffset = none) (hbit : config.channelBit.toInt = bit)
    (hlt : bit < 31) : config.channelOffset.toInt = 2 ^ bit := by
  obtain ⟨_, hsome, hparsed⟩ := parsed_of_parseCli h
  cases hsome
  have hoffset := hparsed.offset
  unfold Options.offset at hoffset
  rw [hnone] at hoffset
  rw [channelBit_of_parseCli h] at hbit
  cases hchosen : options.channelBit with
  | some channelBit =>
    rw [hchosen] at hoffset hbit
    exact toInt_shiftOne hoffset hbit hlt
  | none =>
    rw [hchosen] at hoffset hbit
    change (8 : ℤ) = bit at hbit
    obtain rfl : bit = 8 := by omega
    rw [← Except.ok.inj hoffset]
    rfl

/-- Over every command line with a bit from 6 to 30 and without an offset, and every machine on
which memory and processors are obtained: if the replicas fit the page, and the frames stay as the
last scan found them, each byte of their lines is in the region at the distance of its replica, and
the lines that an arm is given are on both channels in turn, whatever size the pages have. -/
theorem windows_replicas (hparse : parseCli (some options) detected main = .ok config)
    (hnone : options.channelOffset = none) (hline : 6 ≤ config.channelBit)
    (hlt : config.channelBit < 31) (hpage : os.PageSizeDocumented) (hfit : os.BlocksFit)
    (hblocks : os.BlocksAligned) (hlines : 64 ∣ os.getLargePageMinimum.toNat)
    (hsame : ∀ memMul, os.StopsAt fuel (request config).sizeInBytes memMul →
      os.virt2Phys memMul = virt2Phys)
    (hwhole : PagesWhole virt2Phys os.getLargePageMinimum)
    (hfits : Fits config.nChannels.toInt config.channelOffset.toInt)
    (hmem : setupMemory os virt2Phys fuel config outMem = some (.ok (true, mem, calls)))
    (hex : executeBenchmarks build orders config mem = .ok e) (hsuccess : e.success = true) :
    LinesPlaced config virt2Phys mem ∧
    ∀ c ∈ e.calls, ∀ i (hi : i < c.channelAddrs.length), ∀ b : ℕ, b < 64 →
      (computeChannel (virtToPhys virt2Phys (c.channelAddrs[i] + UInt64.ofNat b))
        config.channelBit).toInt =
          ((mem.physContigMem.paddr.toNat >>> config.channelBit.toInt.toNat + i) % 2 : ℕ) := by
  have hplaced := linesPlaced_setupMemory hpage hfit hblocks hlines hsame hwhole hfits hmem
  refine ⟨hplaced, ?_⟩
  intro c hc i hi b hb
  obtain ⟨channelCores, stressThreads, -, -, -, hasked⟩ := calls_executeBenchmarks hex hsuccess
  obtain ⟨name, -, hcall⟩ := hasked c hc
  obtain ⟨addrs, haddrs, hmade⟩ := Except.bind_eq_ok_iff.mp hcall
  cases hmade
  have hprefix := prefix_channelAddrs haddrs
  have hlo := Int32.le_iff_toInt_le.mp hline
  have hhi := Int32.lt_iff_toInt_lt.mp hlt
  change 6 ≤ config.channelBit.toInt at hlo
  change config.channelBit.toInt < 31 at hhi
  have hbit : config.channelBit.toInt = config.channelBit.toInt.toNat := by omega
  have hoffset := offset_of_parseCli hparse hnone hbit (by omega)
  have haddr := hprefix.getElem hi
  rw [haddr]
  exact hplaced.channel hbit (by omega) (by omega) hoffset (hi.trans_le hprefix.length_le) hb

theorem onePiece_eq_some_iff {v p : UInt64} : onePiece v = some p ↔
    2 ^ 40 ≤ v.toNat ∧ v.toNat < 2 ^ 40 + 2 ^ 31 ∧ v.toNat = p.toNat + 0xff00000000 := by
  have hbegin : v < 0x10000000000 ↔ v.toNat < 2 ^ 40 := UInt64.lt_iff_toNat_lt
  have hend : v < 0x10080000000 ↔ v.toNat < 2 ^ 40 + 2 ^ 31 := UInt64.lt_iff_toNat_lt
  unfold onePiece
  simp only [hbegin, hend]
  split
  · simp only [reduceCtorEq, false_iff]
    omega
  · split
    · have hsub : (v - 0xff00000000).toNat = v.toNat - 0xff00000000 :=
        UInt64.toNat_sub_of_le _ _ (UInt64.le_iff_toNat_le.mpr (by
          change 0xff00000000 ≤ v.toNat
          omega))
      rw [Option.some.injEq, ← UInt64.toNat_inj, hsub]
      omega
    · simp only [reduceCtorEq, false_iff]
      omega

theorem blocksAligned_fortyGiB : (fortyGiB onePiece).BlocksAligned := by
  intro memMul size
  simp only [fortyGiB]
  split <;> decide

theorem pagesWhole_onePiece : PagesWhole onePiece 0x200000 where
  frame := by
    intro v p hv hp
    obtain ⟨-, -, he⟩ := onePiece_eq_some_iff.mp hp
    change 2 ^ 21 ∣ v.toNat at hv
    change 2 ^ 21 ∣ p.toNat
    omega
  offset := by
    intro v p hv hp d hd
    obtain ⟨hlo, hhi, he⟩ := onePiece_eq_some_iff.mp hp
    have hlt := UInt64.lt_iff_toNat_lt.mp hd
    change 2 ^ 21 ∣ v.toNat at hv
    change d.toNat < 2 ^ 21 at hlt
    rw [onePiece_eq_some_iff, UInt64.toNat_add, UInt64.toNat_add]
    omega

/-- Both channels have a core. -/
theorem windows_replicas_hedgedStress :
    (∀ c ∈ hedgedStressExecution.calls, c.channelAddrs.length = c.channelCores.length) ∧
    (computeChannel (virtToPhys onePiece 0x10000000000) 8).toInt = 0 ∧
    (computeChannel (virtToPhys onePiece 0x10000000100) 8).toInt = 1 := by
  obtain ⟨-, hchannels⟩ := windows_replicas parseCli_hedgedStress rfl (by decide) (by decide)
    (pageSizeDocumented_fortyGiB _) (blocksFit_fortyGiB _) blocksAligned_fortyGiB (by decide)
    (fun _ _ => rfl) pagesWhole_onePiece (Or.inr (by decide)) setupMemory_hedgedStress
    executeBenchmarks_hedgedStress rfl
  have hcall := hchannels _ List.mem_cons_self
  exact ⟨by decide, hcall 0 (by decide) 0 (by decide), hcall 1 (by decide) 0 (by decide)⟩

end Tailslayer.Benchmark
