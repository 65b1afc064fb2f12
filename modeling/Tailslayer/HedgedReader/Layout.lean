import Mathlib.Data.List.Induction
import Tailslayer.Foundations.MaskedIndex
import Tailslayer.Foundations.Outcome
import Tailslayer.HedgedReader.Specification

/-! The reader's arithmetic over the natural numbers: where each copy of an element lies. -/
namespace Tailslayer

open MaskedIndex

theorem toNat_toSizeT {x : Int32} (h : 0 ≤ x) : (toSizeT x).toNat = x.toInt.toNat := by
  have hx : 0 ≤ x.toInt64 := by
    rw [Int64.le_iff_toInt_le, Int32.toInt_toInt64]
    exact Int32.le_iff_toInt_le.mp h
  rw [toSizeT, Int64.toNat_toUInt64_of_le hx, Int32.toNatClampNeg_toInt64]
  rfl

theorem toNat_toSizeT_lt {x : Int32} (h : 0 ≤ x) : (toSizeT x).toNat < 2 ^ 31 := by
  rw [toNat_toSizeT h]
  exact x.toNatClampNeg_lt

namespace HedgedReader

variable {cfg : Config} {g : Geometry}

namespace Config

/-- The two assertions of the constructor about its arguments. -/
structure ChecksHold (cfg : Config) : Prop where
  multiple : toSizeT cfg.channelOffset % cfg.sizeofT = 0
  replicas : cfg.N ≤ cfg.numChannels

def elementSize (cfg : Config) : ℕ := cfg.sizeofT.toNat

def offset (cfg : Config) : ℕ := (toSizeT cfg.channelOffset).toNat

/-- `elements_per_chunk` -/
def elements (cfg : Config) : ℕ := cfg.offset / cfg.elementSize

/-- `stride_bytes`, a product that may wrap. -/
def stride (cfg : Config) : ℕ := cfg.numChannels.toNat * cfg.offset % 2 ^ 64

/-- `max_strides` -/
def rows (cfg : Config) : ℕ := 2 ^ 30 / cfg.stride

/-- `m_stride_in_elements` -/
def strideElements (cfg : Config) : ℕ := cfg.stride / cfg.elementSize

theorem elementSize_pos (cfg : Config) : 0 < cfg.elementSize :=
  UInt64.lt_iff_toNat_lt.mp cfg.sizeofT_pos

theorem ChecksHold.offset_eq (h : cfg.ChecksHold) :
    cfg.offset = cfg.elements * cfg.elementSize := by
  have hm : cfg.offset % cfg.elementSize = 0 := by
    have hz := congrArg UInt64.toNat h.multiple
    rwa [UInt64.toNat_mod] at hz
  rw [elements, Nat.div_mul_cancel (Nat.dvd_of_mod_eq_zero hm)]

theorem ChecksHold.replicas_le (h : cfg.ChecksHold) : cfg.N.toNat ≤ cfg.numChannels.toNat :=
  UInt64.le_iff_toNat_le.mp h.replicas

theorem elements_le (cfg : Config) : cfg.elements ≤ cfg.offset := Nat.div_le_self _ _

theorem rows_mul_stride_le (cfg : Config) : cfg.rows * cfg.stride ≤ 2 ^ 30 :=
  Nat.div_mul_le_self _ _

theorem rows_mul_strideElements_le (cfg : Config) :
    cfg.rows * (cfg.strideElements * cfg.elementSize) ≤ 2 ^ 30 :=
  (Nat.mul_le_mul_left _ (Nat.div_mul_le_self _ _)).trans cfg.rows_mul_stride_le

end Config

open Config

theorem trailingZeros_ctz {x : UInt64} (h : x ≠ 0) :
    TrailingZeros x.toNat x.toBitVec.ctz.toNat := by
  have hx : x.toBitVec ≠ 0#64 := fun he => h (UInt64.toBitVec_inj.mp he)
  apply trailingZeros_of_testBit
  · intro i hi
    exact BitVec.getLsbD_false_of_lt_ctz hi
  · exact BitVec.getLsbD_true_ctz_of_ne_zero hx

theorem ctz_lt {x : UInt64} (h : x ≠ 0) : x.toBitVec.ctz.toNat < 64 := by
  have hx : x.toBitVec ≠ 0#64 := fun he => h (UInt64.toBitVec_inj.mp he)
  exact BitVec.lt_def.mp (BitVec.ctz_lt_iff_ne_zero.mpr hx)

theorem geometry_eq (cfg : Config) : cfg.geometry =
    if cfg.numChannels * toSizeT cfg.channelOffset = 0 then .error .divisionByZero
    else if toSizeT cfg.channelOffset / cfg.sizeofT = 0 then .error .ctzOfZero
    else .ok {
      capacity := kHUGEPAGE_SIZE / (cfg.numChannels * toSizeT cfg.channelOffset) *
        (toSizeT cfg.channelOffset / cfg.sizeofT)
      chunkShift := ⟨(toSizeT cfg.channelOffset / cfg.sizeofT).toBitVec.ctz⟩
      chunkMask := toSizeT cfg.channelOffset / cfg.sizeofT - 1
      strideInElements := cfg.numChannels * toSizeT cfg.channelOffset / cfg.sizeofT } := by
  have hs : cfg.sizeofT ≠ 0 := by
    intro h
    have hp := cfg.elementSize_pos
    simp [elementSize, h] at hp
  by_cases hz : cfg.numChannels * toSizeT cfg.channelOffset = 0
  · simp [geometry, divide, hs, hz, bind, Except.bind]
  · by_cases he : toSizeT cfg.channelOffset / cfg.sizeofT = 0 <;>
      simp [geometry, divide, ctz, hs, hz, he, bind, Except.bind, pure, Except.pure]

theorem toNat_stride (cfg : Config) :
    (cfg.numChannels * toSizeT cfg.channelOffset).toNat = cfg.stride :=
  UInt64.toNat_mul _ _

theorem toNat_elements (cfg : Config) :
    (toSizeT cfg.channelOffset / cfg.sizeofT).toNat = cfg.elements :=
  UInt64.toNat_div _ _

/-- The constructor's divisions and its `ctz` are defined. -/
theorem geometry_defined_iff : (∃ g, cfg.geometry = .ok g) ↔ 0 < cfg.stride ∧ 0 < cfg.elements := by
  rw [geometry_eq, ← toNat_stride, ← toNat_elements, Nat.pos_iff_ne_zero, Nat.pos_iff_ne_zero]
  constructor
  · rintro ⟨g, hg⟩
    split at hg
    · cases hg
    · next hs =>
      split at hg
      · cases hg
      · next he =>
        exact ⟨fun h => hs (UInt64.toNat_inj.mp h), fun h => he (UInt64.toNat_inj.mp h)⟩
  · rintro ⟨hs, he⟩
    rw [if_neg (fun h => hs (congrArg UInt64.toNat h)),
      if_neg (fun h => he (congrArg UInt64.toNat h))]
    exact ⟨_, rfl⟩

/-- The precomputed words as numbers. -/
structure Geometry.Describes (g : Geometry) (cfg : Config) : Prop where
  stride_pos : 0 < cfg.stride
  elements_pos : 0 < cfg.elements
  capacity : g.capacity.toNat = cfg.rows * cfg.elements
  shift : TrailingZeros cfg.elements g.chunkShift.toNat
  shift_lt : g.chunkShift.toNat < 64
  mask : g.chunkMask.toNat = cfg.elements - 1
  strideInElements : g.strideInElements.toNat = cfg.strideElements

theorem Config.elements_lt (h : 0 ≤ cfg.channelOffset) : cfg.elements < 2 ^ 31 :=
  cfg.elements_le.trans_lt (toNat_toSizeT_lt h)

theorem describes_of_geometry (h : 0 ≤ cfg.channelOffset) (hg : cfg.geometry = .ok g) :
    g.Describes cfg := by
  obtain ⟨hs, he⟩ := geometry_defined_iff.mp ⟨g, hg⟩
  have hs' : cfg.numChannels * toSizeT cfg.channelOffset ≠ 0 := by
    intro hz
    rw [← toNat_stride, hz] at hs
    exact Nat.lt_irrefl 0 hs
  have he' : toSizeT cfg.channelOffset / cfg.sizeofT ≠ 0 := by
    intro hz
    rw [← toNat_elements, hz] at he
    exact Nat.lt_irrefl 0 he
  rw [geometry_eq, if_neg hs', if_neg he'] at hg
  cases hg
  refine ⟨hs, he, ?_, ?_, ctz_lt he', ?_, ?_⟩
  · have hlt := elements_lt h
    have hrows : cfg.rows ≤ 2 ^ 30 := Nat.div_le_self _ _
    have hmul : cfg.rows * cfg.elements ≤ 2 ^ 30 * 2 ^ 31 := Nat.mul_le_mul hrows hlt.le
    rw [UInt64.toNat_mul, UInt64.toNat_div, toNat_stride, toNat_elements]
    exact Nat.mod_eq_of_lt (hmul.trans_lt (by decide))
  · rw [← toNat_elements]
    exact trailingZeros_ctz he'
  · rw [UInt64.toNat_sub_of_le, toNat_elements]
    · rfl
    · rw [UInt64.le_iff_toNat_le, toNat_elements]
      exact he
  · rw [UInt64.toNat_div, toNat_stride]
    rfl

/-! The constructed reader and the addresses it computes. -/

/-- A reader whose memory was set up at `page`; inserts only move its logical index. -/
structure SetUp (r : HedgedReader cfg) (page : ℕ) : Prop where
  geometry : cfg.geometry = .ok r.toGeometry
  page_eq : r.replicaPage = page
  replicas : ∀ i : Fin cfg.N.toNat,
    r.replicas[i] = page + (UInt64.ofNat i * toSizeT cfg.channelOffset).toNat

/-- The element offset within a replica does not wrap. -/
theorem position_lt (h : 0 ≤ cfg.channelOffset) (shift : ℕ) {l : ℕ} (he : 0 < cfg.elements)
    (hl : l < cfg.rows * cfg.elements) :
    position cfg.strideElements cfg.elements shift l < 2 ^ 63 := by
  have hlt := elements_lt h
  have hsz := cfg.elementSize_pos
  have hmask := and_pred_lt he l
  have hS : cfg.rows * cfg.strideElements ≤ 2 ^ 30 := by
    refine le_trans (Nat.mul_le_mul_left _ ?_) cfg.rows_mul_strideElements_le
    exact Nat.le_mul_of_pos_right _ hsz
  have hchunk : l / 2 ^ shift * cfg.strideElements ≤ 2 ^ 30 * 2 ^ 31 := by
    calc l / 2 ^ shift * cfg.strideElements
        ≤ cfg.rows * cfg.elements * cfg.strideElements :=
          Nat.mul_le_mul_right _ ((Nat.div_le_self _ _).trans hl.le)
      _ = cfg.rows * cfg.strideElements * cfg.elements := Nat.mul_right_comm _ _ _
      _ ≤ 2 ^ 30 * 2 ^ 31 := Nat.mul_le_mul hS hlt.le
  unfold position
  omega

theorem toNat_elementOffset (h : 0 ≤ cfg.channelOffset) (hd : g.Describes cfg) {l : UInt64}
    (hl : l < g.capacity) : (l >>> g.chunkShift * g.strideInElements + (l &&& g.chunkMask)).toNat =
      position cfg.strideElements cfg.elements g.chunkShift.toNat l.toNat := by
  have hlt : l.toNat < cfg.rows * cfg.elements := by
    rw [← hd.capacity]
    exact UInt64.lt_iff_toNat_lt.mp hl
  have hpos := position_lt h g.chunkShift.toNat hd.elements_pos hlt
  have hshift : (l >>> g.chunkShift).toNat = l.toNat / 2 ^ g.chunkShift.toNat := by
    rw [UInt64.toNat_shiftRight, Nat.mod_eq_of_lt hd.shift_lt, Nat.shiftRight_eq_div_pow]
  unfold position at hpos ⊢
  rw [UInt64.toNat_add, UInt64.toNat_mul, UInt64.toNat_and, hshift, hd.mask, hd.strideInElements]
  rw [Nat.mod_eq_of_lt (b := 2 ^ 64) (by omega), Nat.mod_eq_of_lt (by omega)]

theorem address_eq (h : 0 ≤ cfg.channelOffset) {r : HedgedReader cfg} {page : ℕ}
    (hr : r.SetUp page) (i : Fin cfg.N.toNat) {l : UInt64} (hl : l < r.capacity) :
    r.address i l = page + i * cfg.offset % 2 ^ 64 +
      position cfg.strideElements cfg.elements r.chunkShift.toNat l.toNat * cfg.elementSize := by
  have hd := describes_of_geometry h hr.geometry
  have hi : (UInt64.ofNat i * toSizeT cfg.channelOffset).toNat = i * cfg.offset % 2 ^ 64 := by
    rw [UInt64.toNat_mul, UInt64.toNat_ofNat', Nat.mod_eq_of_lt (i.isLt.trans cfg.N.toNat_lt)]
    rfl
  simp only [address, hr.replicas i, hi, toNat_elementOffset h hd hl]
  rfl

/-! The constructor and the inserts, from their outcome. -/

theorem check_eq_ok_iff {p : Prop} [Decidable p] {text : String} {u : Unit} :
    check .debug p text = .ok u ↔ p := by
  by_cases hp : p <;> simp [check, hp]

/-- The reader that the constructor leaves when its memory was set up at `page`. -/
def setUpReader (g : Geometry) (cores : Vector Int32 cfg.N.toNat) (page : ℕ) :
    HedgedReader cfg := { g with
  replicaPage := page
  logicalIndex := 0
  replicas := Vector.ofFn (fun i =>
    page + (UInt64.ofNat i * toSizeT cfg.channelOffset).toNat)
  cores := cores }

theorem setUp_setUpReader {g : Geometry} (hg : cfg.geometry = .ok g)
    (cores : Vector Int32 cfg.N.toNat) (page : ℕ) :
    (setUpReader g cores page : HedgedReader cfg).SetUp page where
  geometry := hg
  page_eq := rfl
  replicas := by
    intro i
    simp [setUpReader]

theorem construct_eq_ok_iff {os : Option ℕ} {mem : ByteMemory}
    {s : HedgedReader cfg × ByteMemory} :
    construct .debug cfg os mem = .ok s ↔ cfg.ChecksHold ∧
      ∃ g cores page, cfg.geometry = .ok g ∧ cfg.setupReplicaCores = .ok cores ∧
        os = some page ∧
        s = (setUpReader g cores page, ByteMemory.fill page 0x42 kHUGEPAGE_SIZE.toNat mem) := by
  simp only [construct, Except.bind_eq_ok_iff, check_eq_ok_iff]
  constructor
  · rintro ⟨_, hm, _, hr, g, hg, cores, hc, _, hs, he⟩
    cases os with
    | none => cases hs
    | some page =>
      cases he
      exact ⟨⟨hm, hr⟩, g, cores, page, hg, hc, rfl, rfl⟩
  · rintro ⟨⟨hm, hr⟩, g, cores, page, hg, hc, rfl, rfl⟩
    exact ⟨(), hm, (), hr, g, hg, cores, hc, (), rfl, rfl⟩

/-- An insert that does not fault stores one copy in each replica and moves on. -/
theorem insert_ok {locked : Bool} {r r' : HedgedReader cfg} {m m' : ByteMemory}
    {val : Bytes cfg.sizeofT.toNat} (h : r.insert .debug locked m val = .ok (r', m')) :
    r.logicalIndex + 1 < r.capacity ∧ r' = { r with logicalIndex := r.logicalIndex + 1 } ∧
      m' = ByteMemory.storeAll
        ((List.finRange cfg.N.toNat).map (fun i => r.address i r.logicalIndex)) val m := by
  simp only [insert, Except.bind_eq_ok_iff, check_eq_ok_iff] at h
  obtain ⟨_, _, _, _, _, hl, m₁, hm, he⟩ := h
  cases he
  refine ⟨hl, rfl, ?_⟩
  rw [storeReplicas, Except.foldlM_guarded] at hm
  split at hm
  · cases hm
  · cases hm
    rw [ByteMemory.storeAll, List.foldl_map]

/-- With the privilege enabled and a page, only the capacity assertion can stop an insert. -/
theorem insert_of_lt {r : HedgedReader cfg} {page : ℕ} (hr : r.SetUp page) (hp : page ≠ 0)
    (hl : r.logicalIndex + 1 < r.capacity) (m : ByteMemory) (val : Bytes cfg.sizeofT.toNat) :
    ∃ s, r.insert .debug true m val = .ok s := by
  have hnull : ¬ ∃ i ∈ List.finRange cfg.N.toNat, r.replicas[i] = 0 := by
    rintro ⟨i, _, hi⟩
    rw [hr.replicas] at hi
    omega
  have hstore : ∃ m', r.storeReplicas val m = .ok m' := by
    rw [storeReplicas, Except.foldlM_guarded, if_neg hnull]
    exact ⟨_, rfl⟩
  obtain ⟨m', hm⟩ := hstore
  refine ⟨({ r with logicalIndex := r.logicalIndex + 1 }, m'), ?_⟩
  simp only [insert, Except.bind_eq_ok_iff, check_eq_ok_iff]
  exact ⟨(), trivial, (), hr.page_eq ▸ hp, (), hl, m', hm, rfl⟩

/-- A reader after `n` inserts. -/
structure Filled (r : HedgedReader cfg) (page n : ℕ) : Prop where
  setUp : r.SetUp page
  index : r.logicalIndex.toNat = n
  bound : n = 0 ∨ n < r.capacity.toNat

theorem filled_setUpReader {g : Geometry} (hg : cfg.geometry = .ok g)
    (cores : Vector Int32 cfg.N.toNat) (page : ℕ) :
    (setUpReader g cores page : HedgedReader cfg).Filled page 0 :=
  ⟨setUp_setUpReader hg cores page, rfl, Or.inl rfl⟩

/-- The capacity assertion, as a comparison of numbers. -/
theorem Filled.index_succ_lt_iff {r : HedgedReader cfg} {page n : ℕ} (hf : r.Filled page n) :
    r.logicalIndex + 1 < r.capacity ↔ n + 1 < r.capacity.toNat := by
  have hcap := r.capacity.toNat_lt
  have hn : n + 1 < 2 ^ 64 := by
    rcases hf.bound with hb | hb <;> omega
  have hnext : (r.logicalIndex + 1).toNat = n + 1 := by
    rw [UInt64.toNat_add, hf.index]
    exact Nat.mod_eq_of_lt hn
  rw [UInt64.lt_iff_toNat_lt, hnext]

theorem filled_insert {locked : Bool} {r r' : HedgedReader cfg} {m m' : ByteMemory} {page n : ℕ}
    {val : Bytes cfg.sizeofT.toNat} (hf : r.Filled page n)
    (h : r.insert .debug locked m val = .ok (r', m')) : r'.Filled page (n + 1) := by
  obtain ⟨hl, rfl, _⟩ := insert_ok h
  have hlt := hf.index_succ_lt_iff.mp hl
  have hn : n + 1 < 2 ^ 64 := hlt.trans r.capacity.toNat_lt
  refine ⟨⟨hf.setUp.geometry, hf.setUp.page_eq, hf.setUp.replicas⟩, ?_, Or.inr hlt⟩
  change (r.logicalIndex + 1).toNat = n + 1
  rw [UInt64.toNat_add, hf.index]
  exact Nat.mod_eq_of_lt hn

/-- The run rule of a sequence of inserts. -/
theorem insertAll_induction {locked : Bool} {r₀ : HedgedReader cfg} {m₀ : ByteMemory}
    (I : HedgedReader cfg → ByteMemory → List (Bytes cfg.sizeofT.toNat) → Prop)
    (h0 : I r₀ m₀ [])
    (hs : ∀ r m r' m' vals val, I r m vals → r.insert .debug locked m val = .ok (r', m') →
      I r' m' (vals ++ [val]))
    (vals : List (Bytes cfg.sizeofT.toNat)) :
    ∀ r m, r₀.insertAll .debug locked m₀ vals = .ok (r, m) → I r m vals := by
  induction vals using List.reverseRecOn with
  | nil =>
    intro r m hv
    cases hv
    exact h0
  | append_singleton vals val ih =>
    intro r m hv
    rw [insertAll, List.foldlM_append, Except.bind_eq_ok_iff] at hv
    obtain ⟨⟨r', m'⟩, hv, hlast⟩ := hv
    rw [List.foldlM_cons, Except.bind_eq_ok_iff] at hlast
    obtain ⟨s, hs', he⟩ := hlast
    cases he
    exact hs r' m' r m vals val (ih r' m' hv) hs'

theorem filled_insertAll {locked : Bool} {r₀ r : HedgedReader cfg} {m₀ m : ByteMemory} {page : ℕ}
    (hf : r₀.Filled page 0) (vals : List (Bytes cfg.sizeofT.toNat))
    (h : r₀.insertAll .debug locked m₀ vals = .ok (r, m)) : r.Filled page vals.length := by
  refine insertAll_induction (fun r _ vals => r.Filled page vals.length) hf ?_ vals r m h
  intro r m r' m' vals val hr hi
  rw [List.length_append]
  exact filled_insert hr hi

/-- As many inserts as the assertion admits do succeed. -/
theorem insertAll_of_lt {r : HedgedReader cfg} {page n : ℕ} (hf : r.Filled page n) (hp : page ≠ 0)
    (vals : List (Bytes cfg.sizeofT.toNat)) (hn : n + vals.length < r.capacity.toNat)
    (m : ByteMemory) : ∃ s, r.insertAll .debug true m vals = .ok s := by
  induction vals generalizing r n m with
  | nil => exact ⟨_, rfl⟩
  | cons val vals ih =>
    rw [List.length_cons] at hn
    obtain ⟨⟨r', m'⟩, hs⟩ :=
      insert_of_lt hf.setUp hp (hf.index_succ_lt_iff.mpr (by omega)) m val
    have hcap : r'.capacity = r.capacity := by
      obtain ⟨_, rfl, _⟩ := insert_ok hs
      rfl
    obtain ⟨s, hs'⟩ := ih (filled_insert hf hs) (by rw [hcap]; omega) m'
    refine ⟨s, ?_⟩
    rw [insertAll, List.foldlM_cons, Except.bind_eq_ok_iff]
    exact ⟨_, hs, hs'⟩

end HedgedReader

end Tailslayer
