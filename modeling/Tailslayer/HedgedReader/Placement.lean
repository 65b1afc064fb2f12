import Mathlib.Data.Nat.Prime.Basic
import Tailslayer.HedgedReader.Replication

/-! Channel placement: on a contiguous page each replica keeps to a channel of its own. -/
namespace Tailslayer.HedgedReader

open MaskedIndex

variable {cfg : Config} {r : HedgedReader cfg} {page bit : ℕ} {i i' : Fin cfg.N.toNat}
  {l l' : UInt64}

/-- The memory channel of a physical address, among `C` channels selected from `bit` upwards. -/
def channelOf (C bit physAddr : ℕ) : ℕ := (physAddr >>> bit) % C

/-- The page is physically contiguous from `P₀`. -/
def Contiguous (phys : ℕ → ℕ) (page P₀ : ℕ) : Prop := ∀ d, d < 2 ^ 30 → phys (page + d) = P₀ + d

/-- The hypotheses on the arguments: chunks of `2 ^ bit` bytes that fill the page at least once. -/
structure ChannelAligned (cfg : Config) (bit : ℕ) : Prop where
  channelBit : cfg.channelBit.toInt = bit
  channelOffset : cfg.channelOffset.toInt = 2 ^ bit
  checks : cfg.ChecksHold
  replicas : 1 ≤ cfg.N
  fits : cfg.numChannels.toNat * cfg.offset ≤ 2 ^ 30

namespace ChannelAligned

theorem pos (h : ChannelAligned cfg bit) : 0 < cfg.channelOffset := by
  rw [Int32.lt_iff_toInt_lt, h.channelOffset]
  exact Int.pow_pos (by decide)

theorem offset_eq (h : ChannelAligned cfg bit) : cfg.offset = 2 ^ bit := by
  rw [Config.offset, toNat_toSizeT (Int32.le_of_lt h.pos), h.channelOffset]
  norm_cast

theorem noOverflow (h : ChannelAligned cfg bit) : cfg.NoOverflow :=
  h.fits.trans_lt (by decide)

theorem bit_lt (h : ChannelAligned cfg bit) : bit < 31 := by
  have hlt := toNat_toSizeT_lt (Int32.le_of_lt h.pos)
  have ho : (toSizeT cfg.channelOffset).toNat = 2 ^ bit := h.offset_eq
  rw [ho] at hlt
  exact (Nat.pow_lt_pow_iff_right (by decide)).mp hlt

/-- A chunk holds a power of two of elements, and the shift is its exponent. -/
theorem elements_eq (h : ChannelAligned cfg bit) {s : ℕ} (hs : TrailingZeros cfg.elements s) :
    cfg.elements = 2 ^ s := by
  have hdvd : cfg.elements ∣ 2 ^ bit := by
    rw [← h.offset_eq, h.checks.offset_eq]
    exact Nat.dvd_mul_right _ _
  obtain ⟨e, _, he⟩ := (Nat.dvd_prime_pow Nat.prime_two).mp hdvd
  rw [he] at hs
  rw [he, hs.eq_of_two_pow]

theorem geometry_ok (h : ChannelAligned cfg bit) : ∃ g, cfg.geometry = .ok g :=
  geometry_of_pos h.pos h.checks h.noOverflow h.replicas

/-- Chunk, slot and offset of a byte of an element within the page. -/
theorem address_byte (h : ChannelAligned cfg bit) (hr : r.SetUp page) (i : Fin cfg.N.toNat)
    (hl : l < r.capacity) {b : ℕ} (hb : b < cfg.elementSize) :
    ∃ c rest, c < cfg.rows ∧ rest < 2 ^ bit ∧
      r.address i l + b = page + ((c * cfg.numChannels.toNat + i) * 2 ^ bit + rest) := by
  have h0 := Int32.le_of_lt h.pos
  have hd := describes_of_geometry h0 hr.geometry
  have hE := h.elements_eq hd.shift
  have hoff : 2 ^ bit = cfg.elements * cfg.elementSize := by
    rw [← h.offset_eq, h.checks.offset_eq]
  have hlt : l.toNat < cfg.rows * cfg.elements := by
    rw [← hd.capacity]
    exact UInt64.lt_iff_toNat_lt.mp hl
  have hmask := and_pred_lt hd.elements_pos l.toNat
  refine ⟨l.toNat / 2 ^ r.chunkShift.toNat,
    (l.toNat &&& (cfg.elements - 1)) * cfg.elementSize + b, ?_, ?_, ?_⟩
  · rw [← hE]
    exact (Nat.div_lt_iff_lt_mul hd.elements_pos).mpr hlt
  · calc (l.toNat &&& (cfg.elements - 1)) * cfg.elementSize + b
        < (l.toNat &&& (cfg.elements - 1)) * cfg.elementSize + cfg.elementSize := by omega
      _ = ((l.toNat &&& (cfg.elements - 1)) + 1) * cfg.elementSize := (Nat.succ_mul _ _).symm
      _ ≤ 2 ^ bit := by
        rw [hoff]
        exact Nat.mul_le_mul_right _ hmask
  · rw [address_eq_element h0 h.checks h.noOverflow hr i hl, element, interleave, hoff]
    ring

/-- The byte offset of chunk `c` of replica `i` stays within the page. -/
theorem byte_lt (h : ChannelAligned cfg bit) (i : Fin cfg.N.toNat) {c rest : ℕ}
    (hc : c < cfg.rows) (hrest : rest < 2 ^ bit) :
    (c * cfg.numChannels.toNat + i) * 2 ^ bit + rest < 2 ^ 30 := by
  have hi := i.isLt.trans_le h.checks.replicas_le
  have hstride : cfg.stride = cfg.numChannels.toNat * 2 ^ bit := by
    rw [Config.stride, Nat.mod_eq_of_lt h.noOverflow, h.offset_eq]
  calc (c * cfg.numChannels.toNat + i) * 2 ^ bit + rest
      < (c * cfg.numChannels.toNat + i) * 2 ^ bit + 2 ^ bit := by omega
    _ = (c * cfg.numChannels.toNat + i + 1) * 2 ^ bit := (Nat.succ_mul _ _).symm
    _ ≤ ((c + 1) * cfg.numChannels.toNat) * 2 ^ bit := by
      apply Nat.mul_le_mul_right
      rw [Nat.succ_mul]
      omega
    _ = (c + 1) * cfg.stride := by rw [hstride, Nat.mul_assoc]
    _ ≤ cfg.rows * cfg.stride := Nat.mul_le_mul_right _ hc
    _ ≤ 2 ^ 30 := cfg.rows_mul_stride_le

end ChannelAligned

theorem channelOf_chunk {C P₀ i c rest : ℕ} (hP : 2 ^ bit ∣ P₀) (hrest : rest < 2 ^ bit) :
    channelOf C bit (P₀ + ((c * C + i) * 2 ^ bit + rest)) = ((P₀ >>> bit) + i) % C := by
  obtain ⟨p, rfl⟩ := hP
  have hpos := Nat.two_pow_pos bit
  have hdiv : (2 ^ bit * p + ((c * C + i) * 2 ^ bit + rest)) / 2 ^ bit = p + (c * C + i) := by
    rw [Nat.mul_add_div hpos, Nat.mul_comm _ (2 ^ bit), Nat.mul_add_div hpos,
      Nat.div_eq_of_lt hrest, Nat.add_zero]
  rw [channelOf, Nat.shiftRight_eq_div_pow, hdiv, Nat.shiftRight_eq_div_pow,
    Nat.mul_div_cancel_left p hpos]
  have hc : p + (c * C + i) = p + i + C * c := by ring
  rw [hc, Nat.add_mul_mod_self_left]

theorem toInt_of_bit {w : UInt64} {n : ℕ} (hw : w.toNat = n % 2) :
    w.toInt64.toInt32.toInt = (n % 2 : ℕ) := by
  rcases Nat.mod_two_eq_zero_or_one n with hn | hn
  · have h0 : w = 0 := UInt64.toNat_inj.mp (hw.trans hn)
    rw [h0, hn]
    rfl
  · have h1 : w = 1 := UInt64.toNat_inj.mp (hw.trans hn)
    rw [h1, hn]
    rfl

/-- With two channels, `compute_channel` is the channel. -/
theorem toInt_computeChannel {channelBit : Int32} (hbit : channelBit.toInt = bit) (hlt : bit < 31)
    (x : ℕ) : (computeChannel (UInt64.ofNat x) channelBit).toInt = channelOf 2 bit x := by
  have h0 : 0 ≤ channelBit := by
    rw [Int32.le_iff_toInt_le, hbit]
    exact Int.natCast_nonneg bit
  have hshift : (toSizeT channelBit).toNat % 64 = bit := by
    rw [toNat_toSizeT h0, hbit, Int.toNat_natCast]
    exact Nat.mod_eq_of_lt (by omega)
  -- the word holds only the low 64 bits of the address, which is enough to see this bit
  have hword : x % 2 ^ 64 / 2 ^ bit % 2 = x / 2 ^ bit % 2 := by
    have ht := Nat.testBit_mod_two_pow x 64 bit
    have hb : bit < 64 := by omega
    rw [Nat.testBit_eq_decide_div_mod_eq, Nat.testBit_eq_decide_div_mod_eq] at ht
    simp only [hb, decide_true, Bool.true_and, decide_eq_decide] at ht
    omega
  apply toInt_of_bit
  rw [UInt64.toNat_and, UInt64.toNat_shiftRight, hshift, UInt64.toNat_ofNat',
    Nat.shiftRight_eq_div_pow, Nat.shiftRight_eq_div_pow, ← hword]
  exact Nat.and_one_is_mod _

/-- Where the copies of the elements lie, byte by byte. -/
structure PlacedOnChannels (r : HedgedReader cfg) (page bit P₀ : ℕ) (phys : ℕ → ℕ) : Prop where
  inPage : ∀ i l b, l < r.capacity → b < cfg.elementSize →
    page ≤ r.address i l + b ∧ r.address i l + b < page + 2 ^ 30
  channel : ∀ i l b, l < r.capacity → b < cfg.elementSize →
    channelOf cfg.numChannels.toNat bit (phys (r.address i l + b)) =
      ((P₀ >>> bit) + i) % cfg.numChannels.toNat
  sameReplica : ∀ i l l' b b', l < r.capacity → l' < r.capacity → b < cfg.elementSize →
    b' < cfg.elementSize →
    channelOf cfg.numChannels.toNat bit (phys (r.address i l + b)) =
      channelOf cfg.numChannels.toNat bit (phys (r.address i l' + b'))
  otherReplica : ∀ i i' l b b', i ≠ i' → l < r.capacity → b < cfg.elementSize →
    b' < cfg.elementSize →
    channelOf cfg.numChannels.toNat bit (phys (r.address i l + b)) ≠
      channelOf cfg.numChannels.toNat bit (phys (r.address i' l + b'))
  twoChannels : cfg.numChannels = 2 → ∀ i i' l b b', i ≠ i' → l < r.capacity →
    b < cfg.elementSize → b' < cfg.elementSize →
    computeChannel (UInt64.ofNat (phys (r.address i l + b))) cfg.channelBit ≠
      computeChannel (UInt64.ofNat (phys (r.address i' l + b'))) cfg.channelBit

theorem channelOf_replica (h : ChannelAligned cfg bit) (hr : r.SetUp page) {phys : ℕ → ℕ}
    {P₀ : ℕ} (hphys : Contiguous phys page P₀) (hP : 2 ^ bit ∣ P₀) (i : Fin cfg.N.toNat)
    (hl : l < r.capacity) {b : ℕ} (hb : b < cfg.elementSize) :
    channelOf cfg.numChannels.toNat bit (phys (r.address i l + b)) =
      ((P₀ >>> bit) + i) % cfg.numChannels.toNat := by
  obtain ⟨c, rest, hc, hrest, he⟩ := h.address_byte hr i hl hb
  rw [he, hphys _ (h.byte_lt i hc hrest), channelOf_chunk hP hrest]

/-- Replicas below the number of channels get different channels. -/
theorem replica_channel_ne (hc : cfg.ChecksHold) (p : ℕ) (hne : i ≠ i') :
    (p + i) % cfg.numChannels.toNat ≠ (p + i') % cfg.numChannels.toNat := by
  intro he
  have hi := i.isLt.trans_le hc.replicas_le
  have hi' := i'.isLt.trans_le hc.replicas_le
  have hmod : (i : ℕ) ≡ i' [MOD cfg.numChannels.toNat] := Nat.ModEq.add_left_cancel' p he
  exact hne (Fin.ext (hmod.eq_of_lt_of_lt hi hi'))

/-- Every copy of every element lies on the channel of its replica, whatever the index. -/
theorem placed_on_channels (h : ChannelAligned cfg bit) {page P₀ : ℕ} {phys : ℕ → ℕ}
    (hphys : Contiguous phys page P₀) (hP : 2 ^ bit ∣ P₀) (mem : ByteMemory) :
    ∃ r m, construct .debug cfg (some page) mem = .ok (r, m) ∧
      PlacedOnChannels r page bit P₀ phys := by
  obtain ⟨g, hg⟩ := h.geometry_ok
  obtain ⟨cores, hcores⟩ := setupReplicaCores_ok h.replicas
  have hr := setUp_setUpReader hg cores page
  refine ⟨_, _, construct_eq_ok_iff.mpr ⟨h.checks, g, cores, page, hg, hcores, rfl, rfl⟩, ?_⟩
  have hchannel := fun i l b hl hb =>
    channelOf_replica (l := l) (b := b) h hr hphys hP i hl hb
  refine ⟨?_, hchannel, ?_, ?_, ?_⟩
  · intro i l b hl hb
    obtain ⟨c, rest, hc, hrest, he⟩ := h.address_byte hr i hl hb
    have hlt := h.byte_lt i hc hrest
    omega
  · intro i l l' b b' hl hl' hb hb'
    rw [hchannel i l b hl hb, hchannel i l' b' hl' hb']
  · intro i i' l b b' hne hl hb hb'
    rw [hchannel i l b hl hb, hchannel i' l b' hl hb']
    exact replica_channel_ne h.checks _ hne
  · intro hC i i' l b b' hne hl hb hb' he
    have hi := hchannel i l b hl hb
    have hi' := hchannel i' l b' hl hb'
    have hch := congrArg Int32.toInt he
    rw [toInt_computeChannel h.channelBit h.bit_lt, toInt_computeChannel h.channelBit h.bit_lt]
      at hch
    have hC' : cfg.numChannels.toNat = 2 := congrArg UInt64.toNat hC
    rw [← hC', hi, hi'] at hch
    exact replica_channel_ne h.checks _ hne (Int.ofNat.inj hch)

/-- The default configuration, with one-byte elements. -/
def defaultConfig : Config where
  sizeofT := 1
  sizeofT_pos := byte_pos
  N := 2
  channelOffset := 256
  channelBit := 8
  numChannels := 2

theorem placed_on_channels_defaultConfig :
    ∃ r m, construct .debug defaultConfig (some 4096) (fun _ => 0) = .ok (r, m) ∧
      PlacedOnChannels r 4096 8 (2 ^ 33) (fun v => v + 2 ^ 33 - 4096) :=
  placed_on_channels ⟨by decide, by decide, ⟨by decide, by decide⟩, by decide, by decide⟩
    (by
      intro d _
      change 4096 + d + 2 ^ 33 - 4096 = 2 ^ 33 + d
      omega)
    (by decide) (fun _ => 0)

end Tailslayer.HedgedReader
