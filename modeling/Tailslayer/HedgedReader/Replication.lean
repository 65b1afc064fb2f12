import Tailslayer.HedgedReader.Layout

/-! The reader as a replicated vector: every replica reads back what was inserted. -/
namespace Tailslayer.HedgedReader

open MaskedIndex ByteMemory

variable {cfg : Config} {r : HedgedReader cfg} {page : ℕ} {i i' : Fin cfg.N.toNat}
  {l l' : UInt64}

/-- `num_channels * channel_offset` fits in `size_t`. -/
def Config.NoOverflow (cfg : Config) : Prop := cfg.numChannels.toNat * cfg.offset < 2 ^ 64

/-- Chunk `c` of replica `i` is row `c`, slot `i` of the interleaved page. -/
def element (cfg : Config) (shift i l : ℕ) : ℕ :=
  interleave cfg.numChannels.toNat cfg.elements i (l / 2 ^ shift) (l &&& (cfg.elements - 1))

theorem address_eq_element (h : 0 ≤ cfg.channelOffset) (hc : cfg.ChecksHold)
    (ho : cfg.NoOverflow) (hr : r.SetUp page) (i : Fin cfg.N.toNat) (hl : l < r.capacity) :
    r.address i l = page + element cfg r.chunkShift.toNat i l.toNat * cfg.elementSize := by
  have hsz := cfg.elementSize_pos
  have hoff := hc.offset_eq
  have hstride : cfg.stride = cfg.numChannels.toNat * cfg.offset := Nat.mod_eq_of_lt ho
  have hS : cfg.strideElements = cfg.numChannels.toNat * cfg.elements := by
    rw [Config.strideElements, hstride, hoff, ← Nat.mul_assoc, Nat.mul_div_cancel _ hsz]
  have hi : (i : ℕ) * cfg.offset % 2 ^ 64 = i * cfg.offset := by
    apply Nat.mod_eq_of_lt
    exact (Nat.mul_le_mul_right _ (i.isLt.le.trans hc.replicas_le)).trans_lt ho
  rw [address_eq h hr i hl, hi, hoff, position, hS, element, interleave]
  ring

/-- The map from a replica and a logical index to the address is injective. -/
theorem address_inj (h : 0 ≤ cfg.channelOffset) (hc : cfg.ChecksHold) (ho : cfg.NoOverflow)
    (hr : r.SetUp page) (hl : l < r.capacity) (hl' : l' < r.capacity)
    (ha : r.address i l = r.address i' l') : i = i' ∧ l = l' := by
  have hd := describes_of_geometry h hr.geometry
  have hsz := cfg.elementSize_pos
  rw [address_eq_element h hc ho hr i hl, address_eq_element h hc ho hr i' hl'] at ha
  have he : element cfg r.chunkShift.toNat i l.toNat =
      element cfg r.chunkShift.toNat i' l'.toNat :=
    Nat.eq_of_mul_eq_mul_right hsz (Nat.add_left_cancel ha)
  obtain ⟨hi, hchunk, hin⟩ := interleave_inj (i.isLt.trans_le hc.replicas_le)
    (i'.isLt.trans_le hc.replicas_le) (and_pred_lt hd.elements_pos _)
    (and_pred_lt hd.elements_pos _) he
  exact ⟨Fin.ext hi, UInt64.toNat_inj.mp (split_inj hd.shift hchunk hin)⟩

/-- Different copies share no byte. -/
theorem address_apart (h : 0 ≤ cfg.channelOffset) (hc : cfg.ChecksHold) (ho : cfg.NoOverflow)
    (hr : r.SetUp page) (hl : l < r.capacity) (hl' : l' < r.capacity)
    (hne : ¬ (i = i' ∧ l = l')) :
    Apart cfg.sizeofT.toNat (r.address i l) (r.address i' l') := by
  have hne' : r.address i l ≠ r.address i' l' :=
    fun ha => hne (address_inj h hc ho hr hl hl' ha)
  rw [address_eq_element h hc ho hr i hl, address_eq_element h hc ho hr i' hl'] at hne' ⊢
  generalize element cfg r.chunkShift.toNat i l.toNat = a at hne' ⊢
  generalize element cfg r.chunkShift.toNat i' l'.toNat = b at hne' ⊢
  change page + a * cfg.elementSize + cfg.elementSize ≤ _ ∨
    page + b * cfg.elementSize + cfg.elementSize ≤ _
  rcases Nat.lt_or_ge a b with hab | hab
  · have hmul := Nat.mul_le_mul_right cfg.elementSize hab
    rw [Nat.succ_mul] at hmul
    omega
  · have hba : b < a := by
      rcases Nat.lt_or_eq_of_le hab with hba | rfl
      · exact hba
      · exact (hne' rfl).elim
    have hmul := Nat.mul_le_mul_right cfg.elementSize hba
    rw [Nat.succ_mul] at hmul
    omega

/-- What every run of inserts keeps: each replica holds all values inserted so far. -/
structure Holds (r : HedgedReader cfg) (m : ByteMemory) (page : ℕ)
    (vals : List (Bytes cfg.sizeofT.toNat)) : Prop where
  filled : r.Filled page vals.length
  values : ∀ (w : Fin cfg.N.toNat) (j : ℕ) (hj : j < vals.length),
    load _ (r.address w (UInt64.ofNat j)) m = vals[j]

theorem holds_insert (h : 0 ≤ cfg.channelOffset) (hc : cfg.ChecksHold) (ho : cfg.NoOverflow)
    {locked : Bool} {m m' : ByteMemory} {r' : HedgedReader cfg}
    {vals : List (Bytes cfg.sizeofT.toNat)} {val : Bytes cfg.sizeofT.toNat}
    (hh : r.Holds m page vals) (hi : r.insert .debug locked m val = .ok (r', m')) :
    r'.Holds m' page (vals ++ [val]) := by
  have hfilled := filled_insert hh.filled hi
  obtain ⟨hl, rfl, rfl⟩ := insert_ok hi
  have hbound := hh.filled.index_succ_lt_iff.mp hl
  have hindex := hh.filled.index
  have hset := hh.filled.setUp
  have hcap := r.capacity.toNat_lt
  have hlast : r.logicalIndex < r.capacity := by
    rw [UInt64.lt_iff_toNat_lt, hindex]
    omega
  have hofNat : ∀ j, j < vals.length + 1 → (UInt64.ofNat j).toNat = j := by
    intro j hj
    rw [UInt64.toNat_ofNat']
    exact Nat.mod_eq_of_lt (by omega)
  refine ⟨by rwa [List.length_append], ?_⟩
  intro w j hj
  rw [List.length_append, List.length_singleton] at hj
  change load _ (r.address w (UInt64.ofNat j)) _ = _
  have hjcap : UInt64.ofNat j < r.capacity := by
    rw [UInt64.lt_iff_toNat_lt, hofNat j hj]
    omega
  by_cases hjl : j < vals.length
  · -- an earlier element: none of the new copies touches it
    rw [load_storeAll_of_apart, hh.values w j hjl, List.getElem_append_left hjl]
    intro a ha
    obtain ⟨i, _, rfl⟩ := List.mem_map.mp ha
    apply address_apart h hc ho hset hlast hjcap
    rintro ⟨_, he⟩
    have hn := congrArg UInt64.toNat he
    rw [hindex, hofNat j hj] at hn
    omega
  · -- the new element: stored in this replica, and not overwritten by the other copies
    have hje : j = vals.length := by omega
    have he : UInt64.ofNat j = r.logicalIndex := by
      rw [← UInt64.toNat_inj, hofNat j hj, hindex, hje]
    rw [he, load_storeAll_of_mem]
    · simp [hje]
    · exact List.mem_map_of_mem (List.mem_finRange w)
    · intro a ha
      obtain ⟨i, _, rfl⟩ := List.mem_map.mp ha
      by_cases hiw : i = w
      · exact Or.inl (by rw [hiw])
      · exact Or.inr (address_apart h hc ho hset hlast hlast (fun hn => hiw hn.1))

theorem holds_insertAll (h : 0 ≤ cfg.channelOffset) (hc : cfg.ChecksHold) (ho : cfg.NoOverflow)
    {locked : Bool} {r₀ : HedgedReader cfg} {m₀ : ByteMemory} (hf : r₀.Filled page 0)
    (vals : List (Bytes cfg.sizeofT.toNat)) :
    ∀ r m, r₀.insertAll .debug locked m₀ vals = .ok (r, m) → r.Holds m page vals := by
  refine insertAll_induction (fun r m vals => r.Holds m page vals) ⟨hf, ?_⟩ ?_ vals
  · intro w j hj
    cases hj
  · intro r m r' m' vals val hr hi
    exact holds_insert h hc ho hr hi

theorem Config.offset_pos (h : 0 < cfg.channelOffset) : 0 < cfg.offset := by
  rw [Config.offset, toNat_toSizeT (Int32.le_of_lt h)]
  have hi : (0 : Int32).toInt < cfg.channelOffset.toInt := Int32.lt_iff_toInt_lt.mp h
  change 0 < cfg.channelOffset.toInt at hi
  omega

theorem Config.ChecksHold.elements_pos (hc : cfg.ChecksHold) (h : 0 < cfg.offset) :
    0 < cfg.elements := by
  rw [hc.offset_eq] at h
  exact Nat.pos_of_mul_pos_right h

theorem geometry_of_pos (h : 0 < cfg.channelOffset) (hc : cfg.ChecksHold) (ho : cfg.NoOverflow)
    (hN : 1 ≤ cfg.N) : ∃ g, cfg.geometry = .ok g := by
  have hoff := cfg.offset_pos h
  have hN' : 1 ≤ cfg.N.toNat := UInt64.le_iff_toNat_le.mp hN
  have hC := hc.replicas_le
  refine geometry_defined_iff.mpr ⟨?_, hc.elements_pos hoff⟩
  rw [Config.stride, Nat.mod_eq_of_lt ho]
  exact Nat.mul_pos (by omega) hoff

theorem setupReplicaCores_ok (hN : 1 ≤ cfg.N) : ∃ cores, cfg.setupReplicaCores = .ok cores := by
  have hne : cfg.N ≠ 0 := by
    rintro h
    rw [h] at hN
    exact absurd hN (by decide)
  rw [Config.setupReplicaCores, if_neg hne]
  exact ⟨_, rfl⟩

/-- The reader is a replicated vector: its constructor succeeds, no two copies share an address,
fewer inserts than the capacity pass their assertions, and after any run of inserts that pass them
every worker reads every element as inserted. -/
theorem replicated_vector (h : 0 < cfg.channelOffset) (hc : cfg.ChecksHold)
    (ho : cfg.NoOverflow) (hN : 1 ≤ cfg.N) (page : ℕ) (mem : ByteMemory) :
    ∃ r₀ m₀, construct .debug cfg (some page) mem = .ok (r₀, m₀) ∧
      (∀ i i' l l', l < r₀.capacity → l' < r₀.capacity →
        r₀.address i l = r₀.address i' l' → i = i' ∧ l = l') ∧
      (page ≠ 0 → ∀ vals : List (Bytes cfg.sizeofT.toNat), vals.length < r₀.capacity.toNat →
        ∃ s, r₀.insertAll .debug true m₀ vals = .ok s) ∧
      ∀ locked vals r m, r₀.insertAll .debug locked m₀ vals = .ok (r, m) →
        ∀ (w : Fin cfg.N.toNat) (j : ℕ) (hj : j < vals.length),
          (r.workerFunc m w (UInt64.ofNat j)).2 = vals[j] := by
  have h0 : 0 ≤ cfg.channelOffset := Int32.le_of_lt h
  obtain ⟨g, hg⟩ := geometry_of_pos h hc ho hN
  obtain ⟨cores, hcores⟩ := setupReplicaCores_ok hN
  have hset := setUp_setUpReader hg cores page
  refine ⟨_, _, construct_eq_ok_iff.mpr ⟨hc, g, cores, page, hg, hcores, rfl, rfl⟩, ?_, ?_, ?_⟩
  · intro i i' l l' hl hl' ha
    exact address_inj h0 hc ho hset hl hl' ha
  · intro hp vals hroom
    exact insertAll_of_lt (filled_setUpReader hg cores page) hp vals (by omega) _
  · intro locked vals r m hv w j hj
    exact (holds_insertAll h0 hc ho (filled_setUpReader hg cores page) vals r m hv).values w j hj

theorem byte_pos : (0 : UInt64) < 1 := by decide

/-- Two replicas in chunks of three one-byte elements: not a power of two. -/
def threeElementChunks : Config where
  sizeofT := 1
  sizeofT_pos := byte_pos
  N := 2
  channelOffset := 3
  channelBit := 8
  numChannels := 2

theorem checksHold_threeElementChunks : threeElementChunks.ChecksHold := ⟨by decide, by decide⟩

theorem replicated_vector_threeElementChunks :
    ∃ r₀ m₀ r m, construct .debug threeElementChunks (some 4096) (fun _ => 0) = .ok (r₀, m₀) ∧
      (∀ i i' l l', l < r₀.capacity → l' < r₀.capacity →
        r₀.address i l = r₀.address i' l' → i = i' ∧ l = l') ∧
      r₀.insertAll .debug true m₀ [fun _ => 7, fun _ => 8, fun _ => 9, fun _ => 10] = .ok (r, m) ∧
      ∀ (w : Fin threeElementChunks.N.toNat) (j : ℕ) (hj : j < 4),
        (r.workerFunc m w (UInt64.ofNat j)).2 =
          [fun _ => 7, fun _ => 8, fun _ => 9, fun _ => 10][j] := by
  obtain ⟨r₀, m₀, hr₀, hinj, hroom, hread⟩ := replicated_vector (by decide)
    checksHold_threeElementChunks (by unfold Config.NoOverflow; decide) (by decide) 4096
    (fun _ => 0)
  obtain ⟨-, g, cores, page, hg, -, -, hr⟩ := construct_eq_ok_iff.mp hr₀
  cases hr
  obtain ⟨⟨r, m⟩, hs⟩ := hroom (by decide) [fun _ => 7, fun _ => 8, fun _ => 9, fun _ => 10] (by
    change 4 < g.capacity.toNat
    rw [(describes_of_geometry (by decide) hg).capacity]
    decide)
  exact ⟨_, _, r, m, hr₀, hinj, hs, hread true _ r m hs⟩

end Tailslayer.HedgedReader
