import Tailslayer.HedgedReader.Lifetimes
import Tailslayer.Memory.PhysicalRuns
import Tailslayer.Memory.WholePages

/-! Readers next to each other: the channels on which the copies of their elements are. -/
namespace Tailslayer.HedgedReader

open Memory

variable {mem : ByteMemory} {name bit n P₀ : ℕ} {answers : Answers} {o : Object}
  {virt2Phys : Virt2Phys} {region : PhysicalMemRegion} {page : UInt64}

/-- Physical addresses have at most 52 bits, and large pages are moved as a whole. -/
structure Answers.Physical (answers : Answers) : Prop where
  addressesFit : AddressesFit answers.rescan
  blocks : answers.windows.BlocksAligned
  pages : PagesWhole answers.rescan answers.windows.getLargePageMinimum

def Operation.Physical : Operation → Prop
  | .construct _ _ answers => answers.Physical
  | _ => True

/-- Where a byte of the process is in physical memory. -/
def physAddr (virt2Phys : Virt2Phys) (vaddr : ℕ) : ℕ :=
  (virtToPhys virt2Phys (UInt64.ofNat vaddr)).toNat

/-- The page of the reader is one piece of physical memory, from the beginning of a page on. -/
structure Object.BuiltOn (o : Object) (answers : Answers) (P₀ : ℕ) : Prop where
  setUp : o.reader.SetUp o.alloc.virtaddr.toNat
  contiguous : Contiguous (physAddr answers.rescan) o.alloc.virtaddr.toNat P₀
  aligned : answers.windows.getLargePageMinimum.toNat ∣ P₀

/-- Every byte of every copy is on the channel of its replica, and on no other replica's. -/
structure Object.OnChannels (o : Object) (virt2Phys : Virt2Phys) (bit P₀ : ℕ) : Prop where
  channel : ∀ i l b, l < o.reader.capacity → b < o.cfg.elementSize →
    channelOf o.cfg.numChannels.toNat bit (physAddr virt2Phys (o.reader.address i l + b)) =
      ((P₀ >>> bit) + i) % o.cfg.numChannels.toNat
  apart : ∀ i i' l l' b b', i ≠ i' → l < o.reader.capacity → l' < o.reader.capacity →
    b < o.cfg.elementSize → b' < o.cfg.elementSize →
    channelOf o.cfg.numChannels.toNat bit (physAddr virt2Phys (o.reader.address i l + b)) ≠
      channelOf o.cfg.numChannels.toNat bit (physAddr virt2Phys (o.reader.address i' l' + b'))
  computed : o.cfg.numChannels = 2 → ∀ i l b, l < o.reader.capacity → b < o.cfg.elementSize →
    (computeChannel (virtToPhys virt2Phys (UInt64.ofNat (o.reader.address i l + b)))
      o.cfg.channelBit).toInt = (((P₀ >>> bit) + i) % 2 : ℕ)

/-! The constructor, and what the other calls keep. -/

theorem contiguous_of_onePiece (hfit : AddressesFit virt2Phys)
    (h : region.OnePiece virt2Phys page) (hsize : 2 ^ 30 ≤ region.size.toNat) :
    Contiguous (physAddr virt2Phys) region.vaddr.toNat region.paddr.toNat := by
  intro d hd
  have hfirst := hfit _ _ (h.bytes 0 (by omega))
  have hpaddr : region.paddr + UInt64.ofNat 0 = region.paddr := UInt64.add_zero _
  rw [hpaddr] at hfirst
  have hplace : UInt64.ofNat (region.vaddr.toNat + d) = region.vaddr + UInt64.ofNat d := by
    rw [UInt64.ofNat_add, UInt64.ofNat_toNat]
  rw [physAddr, hplace, virtToPhys, h.bytes d (by omega), Option.getD_some, UInt64.toNat_add,
    UInt64.toNat_ofNat']
  omega

theorem builtOn_of_region {s : Process} (hd : answers.Documented s) (hp : answers.Physical)
    {acquired : Acquired} (hacq : acquireMemory answers.windows answers.fuel true answers.rescan =
      some acquired) (hregion : acquired.region = some region) {cfg : Config} {g : Geometry}
    (hg : cfg.geometry = .ok g) (cores : Vector Int32 cfg.N.toNat) :
    ∃ P₀, (⟨cfg, setUpReader g cores region.vaddr.toNat, acquired.alloc⟩ : Object).BuiltOn
      answers P₀ := by
  obtain ⟨hvaddr, hlarge, -⟩ := block_of_region (Or.inr hd.pageSize) hd.blocksFit hacq hregion
  obtain ⟨-, l, hl, hne, hscan, hwhole, rfl⟩ := acquired_of_region hacq hregion
  have hall := allocated_allocateLargePageMin hl
  obtain ⟨hpos, hpow, hv, N, hN⟩ := hall.pages (Or.inr hd.pageSize) hp.blocks (by decide) hne
  have hsize : 2 ^ 30 ≤ region.size.toNat :=
    hlarge.trans (UInt64.le_iff_toNat_le.mp hwhole)
  rw [hall.pageSize] at hscan
  have hpiece := onePiece_of_scan hp.pages hpos hpow hv hN hscan
    (UInt64.lt_iff_toNat_lt.mpr (Nat.lt_of_lt_of_le (by decide) hsize))
  refine ⟨region.paddr.toNat, ?_, ?_, hpiece.frame⟩
  · change (setUpReader g cores region.vaddr.toNat).SetUp l.out.virtaddr.toNat
    rw [hvaddr]
    exact setUp_setUpReader hg cores _
  · change Contiguous _ l.out.virtaddr.toNat _
    have hcontiguous := contiguous_of_onePiece hp.addressesFit hpiece hsize
    rwa [hvaddr] at hcontiguous

theorem Object.BuiltOn.insert (h : o.BuiltOn answers P₀) {locked : Bool} {m m' : ByteMemory}
    {val : Bytes o.cfg.sizeofT.toNat} {reader : HedgedReader o.cfg}
    (hins : o.reader.insert .debug locked m val = .ok (reader, m')) :
    Object.BuiltOn { o with reader := reader } answers P₀ := by
  obtain ⟨-, rfl, -⟩ := insert_ok hins
  exact ⟨⟨h.setUp.geometry, h.setUp.page_eq, h.setUp.replicas⟩, h.contiguous, h.aligned⟩

/-- A reader that is there after an operation was made by it, or was there before with the same
page. -/
theorem object_step {s t : Process} {op : Operation} (hd : op.Documented s) (hp : op.Physical)
    (h : s.Step op t) (ho : t.object name = some o) :
    (s.object name = none ∧ ∃ answers P₀, op = .construct name o.cfg answers ∧
      o.BuiltOn answers P₀) ∨
    ∃ o', s.object name = some o' ∧ o.cfg = o'.cfg ∧ o.alloc = o'.alloc ∧
      ∀ answers P₀, o'.BuiltOn answers P₀ → o.BuiltOn answers P₀ := by
  cases op with
  | construct name' cfg answers =>
    obtain ⟨hfree, acquired, region, g, cores, hacq, hregion, -, hg, -, rfl⟩ := construct_step h
    rcases object_setObject ho with ⟨rfl, he⟩ | ⟨-, ho⟩
    · cases he
      obtain ⟨P₀, hbuilt⟩ := builtOn_of_region hd hp hacq hregion hg cores
      exact Or.inl ⟨hfree, answers, P₀, rfl, hbuilt⟩
    · exact Or.inr ⟨o, ho, rfl, rfl, fun _ _ => id⟩
  | insert name' val =>
    obtain ⟨o', reader, mem', ho', hins, rfl⟩ := insert_step h
    rcases object_setObject ho with ⟨rfl, he⟩ | ⟨-, ho⟩
    · cases he
      exact Or.inr ⟨o', ho', rfl, rfl, fun _ _ hbuilt => hbuilt.insert hins⟩
    · exact Or.inr ⟨o, ho, rfl, rfl, fun _ _ => id⟩
  | destroy name' token =>
    obtain ⟨o', -, rfl⟩ := destroy_step h
    rcases object_setObject ho with ⟨rfl, he⟩ | ⟨-, ho⟩
    · cases he
    · exact Or.inr ⟨o, ho, rfl, rfl, fun _ _ => id⟩

variable {E : Run Process.Step (Process.initial mem)}

/-- Operation `k` is the constructor of the reader that has this name after `n` operations, and the
reader has been there ever since, with the same allocation. -/
structure Constructed (E : Run Process.Step (Process.initial mem)) (name k n : ℕ) (o : Object)
    (answers : Answers) : Prop where
  before : k < n
  event : E.event k = .construct name o.cfg answers
  unused : (E.state k).object name = none
  alive : ∀ l, k < l → l ≤ n → ∃ o', (E.state l).object name = some o' ∧ o'.cfg = o.cfg ∧
    o'.alloc = o.alloc

theorem constructed_succ (he : E.event n = .construct name o.cfg answers)
    (hfree : (E.state n).object name = none) (ho : (E.state (n + 1)).object name = some o) :
    Constructed E name n (n + 1) o answers where
  before := Nat.lt_succ_self n
  event := he
  unused := hfree
  alive := by
    intro l hnl hl
    obtain rfl : l = n + 1 := by omega
    exact ⟨o, ho, rfl, rfl⟩

theorem Constructed.succ {k : ℕ} {o' : Object} (h : Constructed E name k n o answers)
    (ho : (E.state (n + 1)).object name = some o') (hcfg : o'.cfg = o.cfg)
    (halloc : o'.alloc = o.alloc) : Constructed E name k (n + 1) o' answers where
  before := Nat.lt_succ_of_lt h.before
  event := hcfg ▸ h.event
  unused := h.unused
  alive := by
    intro l hkl hl
    rcases Nat.lt_or_eq_of_le hl with hlt | rfl
    · obtain ⟨o₁, ho₁, hc₁, ha₁⟩ := h.alive l hkl (Nat.le_of_lt_succ hlt)
      exact ⟨o₁, ho₁, hc₁.trans hcfg.symm, ha₁.trans halloc.symm⟩
    · exact ⟨o', ho, rfl, rfl⟩

/-- Every reader that is alive has kept the page of its constructor. -/
theorem builtOn_run (hd : ∀ n, n < E.length → (E.event n).Documented (E.state n))
    (hp : ∀ n, n < E.length → (E.event n).Physical) : ∀ n, n ≤ E.length → ∀ name o,
      (E.state n).object name = some o → ∃ k answers P₀,
        Constructed E name k n o answers ∧ o.BuiltOn answers P₀ := by
  intro n
  induction n with
  | zero =>
    intro _ name o ho
    rw [E.initial] at ho
    cases ho
  | succ n ih =>
    intro hn name o ho
    rcases object_step (hd n hn) (hp n hn) (E.step n hn) ho with
      ⟨hfree, answers, P₀, he, hbuilt⟩ | ⟨o', ho', hcfg, halloc, hkeeps⟩
    · exact ⟨n, answers, P₀, constructed_succ he hfree ho, hbuilt⟩
    · obtain ⟨k, answers, P₀, hmade, hbuilt⟩ := ih (by omega) name o' ho'
      exact ⟨k, answers, P₀, hmade.succ ho hcfg halloc, hkeeps _ _ hbuilt⟩

/-- On a page in one piece, whose chunks do not straddle channels. -/
theorem Object.BuiltOn.onChannels (h : o.BuiltOn answers P₀) (ha : ChannelAligned o.cfg bit)
    (hchunk : 2 ^ bit ∣ answers.windows.getLargePageMinimum.toNat) :
    o.OnChannels answers.rescan bit P₀ := by
  have hchannel := fun i l b (hl : l < o.reader.capacity) (hb : b < o.cfg.elementSize) =>
    channelOf_replica ha h.setUp h.contiguous (hchunk.trans h.aligned) i hl hb
  refine ⟨hchannel, ?_, ?_⟩
  · intro i i' l l' b b' hne hl hl' hb hb'
    rw [hchannel i l b hl hb, hchannel i' l' b' hl' hb']
    exact replica_channel_ne ha.checks _ hne
  · intro htwo i l b hl hb
    have hC : o.cfg.numChannels.toNat = 2 := congrArg UInt64.toNat htwo
    have hbyte := hchannel i l b hl hb
    rw [hC, physAddr] at hbyte
    rw [← UInt64.ofNat_toNat (x := virtToPhys answers.rescan _),
      toInt_computeChannel ha.channelBit ha.bit_lt, hbyte]

/-- Over every run of constructors, inserts and destructors: each reader alive has the page of its
own constructor, and its copies are on the channels of their replicas, byte by byte, if its chunks
are those of one bit within the size of a large page. -/
theorem readers_onChannels (hd : ∀ n, n < E.length → (E.event n).Documented (E.state n))
    (hp : ∀ n, n < E.length → (E.event n).Physical) (hn : n ≤ E.length)
    (ho : (E.state n).object name = some o) : ∃ k answers P₀,
      Constructed E name k n o answers ∧ o.BuiltOn answers P₀ ∧
        ∀ bit, ChannelAligned o.cfg bit → 2 ^ bit ∣ answers.windows.getLargePageMinimum.toNat →
          o.OnChannels answers.rescan bit P₀ := by
  obtain ⟨k, answers, P₀, hmade, hbuilt⟩ := builtOn_run hd hp n hn name o ho
  exact ⟨k, answers, P₀, hmade, hbuilt, fun bit ha hchunk => hbuilt.onChannels ha hchunk⟩

/-- Physical memory is where it is in the address space. -/
def lowGigabytes : Answers :=
  { gigabytesAt 0x10000000000 with
    rescan := fun vaddr => if vaddr < 0x10000000000000 then some vaddr else none }

theorem rescan_lowGigabytes {v p : UInt64} :
    lowGigabytes.rescan v = some p ↔ v.toNat < 2 ^ 52 ∧ v = p := by
  have hlt : v < 0x10000000000000 ↔ v.toNat < 2 ^ 52 := UInt64.lt_iff_toNat_lt
  simp [lowGigabytes, hlt]

theorem physical_lowGigabytes : lowGigabytes.Physical where
  addressesFit := by
    intro v p hp
    obtain ⟨hlt, rfl⟩ := rescan_lowGigabytes.mp hp
    exact hlt
  blocks := by
    intro memMul size
    simp only [lowGigabytes, gigabytesAt]
    split <;> decide
  pages := by
    refine ⟨?_, ?_⟩
    · intro v p hv hp
      obtain ⟨-, rfl⟩ := rescan_lowGigabytes.mp hp
      exact hv
    · intro v p hv hp d hd
      obtain ⟨hlt, rfl⟩ := rescan_lowGigabytes.mp hp
      have hd := UInt64.lt_iff_toNat_lt.mp hd
      change 2 ^ 30 ∣ v.toNat at hv
      change d.toNat < 2 ^ 30 at hd
      refine rescan_lowGigabytes.mpr ⟨?_, rfl⟩
      rw [UInt64.toNat_add]
      omega

theorem documented_lowGigabytes : lowGigabytes.Documented (.initial mem) := by
  have h : (gigabytesAt 0x10000000000).Documented (.initial mem) :=
    documented_gigabytesAt (by decide) rfl nofun
  exact ⟨h.pageSize, h.blocksFit, h.fresh, h.privilege⟩

theorem acquireMemory_lowGigabytes :
    acquireMemory lowGigabytes.windows 3 true lowGigabytes.rescan =
      some (acquiredAt 0x10000000000) := by
  decide +kernel

theorem channelAligned_byteReplicas : ChannelAligned byteReplicas 8 :=
  ⟨by decide, by decide, checksHold_byteReplicas, by decide, by decide⟩

theorem readers_onChannels_lowGigabytes :
    ∃ (E : Run Process.Step (Process.initial fun _ => 0)) (o : Object) (P₀ : ℕ),
      E.length = 1 ∧ (E.state 1).object 0 = some o ∧ o.BuiltOn lowGigabytes P₀ ∧
        o.OnChannels lowGigabytes.rescan 8 P₀ := by
  obtain ⟨g, hg⟩ : ∃ g, byteReplicas.geometry = .ok g := geometry_of_pos (by decide)
    checksHold_byteReplicas sound_byteReplicas.noOverflow (by decide)
  obtain ⟨cores, hcores⟩ : ∃ cores, byteReplicas.setupReplicaCores = .ok cores :=
    setupReplicaCores_ok (by decide)
  obtain ⟨t, ht, -, hobject⟩ := construct_returns (.initial fun _ => 0) 0 lowGigabytes rfl rfl
    acquireMemory_lowGigabytes rfl checksHold_byteReplicas hg hcores
  let E : Run Process.Step (Process.initial fun _ => 0) :=
    ⟨1, fun n => if n = 0 then .initial fun _ => 0 else t,
      fun _ => .construct 0 byteReplicas lowGigabytes, rfl, by
        intro n hn
        obtain rfl := Nat.lt_one_iff.mp hn
        exact ht⟩
  have ho : (E.state 1).object 0 = some ⟨byteReplicas, setUpReader g cores 0x10000000000,
      (acquiredAt 0x10000000000).alloc⟩ := by
    change t.object 0 = _
    rw [hobject]
    rfl
  have hd : ∀ n, n < E.length → (E.event n).Documented (E.state n) := by
    intro n hn
    obtain rfl := Nat.lt_one_iff.mp hn
    exact documented_lowGigabytes
  obtain ⟨k, answers, P₀, hmade, hbuilt, hon⟩ := readers_onChannels hd
    (fun _ _ => physical_lowGigabytes) (le_refl 1) ho
  cases hmade.event
  exact ⟨E, _, P₀, rfl, ho, hbuilt, hon 8 channelAligned_byteReplicas (by decide)⟩

end Tailslayer.HedgedReader
