import Mathlib.Tactic.Linarith
import Tailslayer.HedgedReader.Replication

/-! Whether the constructor's checks keep every admitted element inside the page. -/
namespace Tailslayer.HedgedReader

open MaskedIndex

/-! The end of the last element, over the numbers alone. -/

section Arithmetic

variable {S E s m q B sz lim : ℕ}

/-- Every element below the capacity `m * E`, shifted by `B` bytes, ends by `lim`. -/
def AllEndBy (S E s m B sz lim : ℕ) : Prop :=
  ∀ l, l + 1 < m * E → B + (position S E s l + 1) * sz ≤ lim

theorem end_mono {p p' : ℕ} (hp : p ≤ p') (h : B + p' * sz ≤ lim) : B + p * sz ≤ lim :=
  (Nat.add_le_add_left (Nat.mul_le_mul_right sz hp) B).trans h

/-- Without a stride all rows coincide. -/
theorem allEndBy_coinciding (hE : 0 < E) (hm : 2 ≤ m) :
    AllEndBy 0 E s m B sz lim ↔ B + E * sz ≤ lim := by
  have hmE : 2 * E ≤ m * E := Nat.mul_le_mul_right E hm
  constructor
  · intro h
    have hlast := h (E - 1) (by omega)
    rw [position, Nat.mul_zero, Nat.zero_add, Nat.and_self, Nat.sub_add_cancel hE] at hlast
    exact hlast
  · intro h l _
    apply end_mono _ h
    rw [position, Nat.mul_zero, Nat.zero_add]
    exact and_pred_lt hE l

/-- One-element chunks: the last admitted element is at row `m - 2`. -/
theorem allEndBy_single (hm : 2 ≤ m) :
    AllEndBy S 1 0 m B sz lim ↔ B + ((m - 2) * S + 1) * sz ≤ lim := by
  have hpos : ∀ l, position S 1 0 l = l * S := by
    intro l
    simp [position]
  constructor
  · intro h
    have hlast := h (m - 2) (by omega)
    rwa [hpos] at hlast
  · intro h l hl
    rw [hpos]
    apply end_mono _ h
    exact Nat.succ_le_succ (Nat.mul_le_mul_right S (by omega))

/-- Chunks of a power of two: the last admitted element is the last but one of row `m - 1`. -/
theorem allEndBy_two_pow (hm : 1 ≤ m) (hs : 1 ≤ s) (hS : 0 < S ∨ m = 1) :
    AllEndBy S (2 ^ s) s m B sz lim ↔ B + ((m - 1) * S + (2 ^ s - 1)) * sz ≤ lim := by
  have hpow : 2 ≤ 2 ^ s := by
    calc 2 = 2 ^ 1 := rfl
      _ ≤ 2 ^ s := Nat.pow_le_pow_right (by omega) hs
  obtain ⟨n, rfl⟩ : ∃ n, m = n + 1 := ⟨m - 1, by omega⟩
  rw [Nat.add_sub_cancel]
  constructor
  · intro h
    have hl : n * 2 ^ s + (2 ^ s - 2) + 1 < (n + 1) * 2 ^ s := by
      rw [Nat.succ_mul]
      omega
    have hlast := h _ hl
    have hdiv : (n * 2 ^ s + (2 ^ s - 2)) / 2 ^ s = n := by
      rw [Nat.mul_comm, Nat.mul_add_div (by omega), Nat.div_eq_of_lt (by omega), Nat.add_zero]
    have hmod : (n * 2 ^ s + (2 ^ s - 2)) % 2 ^ s = 2 ^ s - 2 := by
      rw [Nat.mul_comm, Nat.mul_add_mod, Nat.mod_eq_of_lt (by omega)]
    rw [position_two_pow, hdiv, hmod] at hlast
    exact end_mono (by omega) hlast
  · intro h l hl
    rw [position_two_pow]
    apply end_mono _ h
    have hrow : l / 2 ^ s < n + 1 := (Nat.div_lt_iff_lt_mul (Nat.two_pow_pos s)).mpr (by omega)
    have hmod := Nat.mod_lt l (Nat.two_pow_pos s)
    rcases Nat.lt_or_eq_of_le (Nat.le_of_lt_succ hrow) with hlt | heq
    · -- an earlier row: the stride makes up for the one element more
      have hS' : 0 < S := by
        rcases hS with hS | hS
        · exact hS
        · obtain rfl : n = 0 := by omega
          exact (Nat.not_lt_zero _ hlt).elim
      have hmul : (l / 2 ^ s + 1) * S ≤ n * S := Nat.mul_le_mul_right S hlt
      rw [Nat.succ_mul] at hmul
      omega
    · have hdm := Nat.div_add_mod l (2 ^ s)
      rw [heq] at hdm ⊢
      rw [Nat.succ_mul, Nat.mul_comm n] at hl
      omega

/-- Three-element chunks in a page of one row: only the indices 0 and 1 are admitted. -/
theorem allEndBy_three : AllEndBy S 3 0 1 B sz lim ↔ B + (S + 1) * sz ≤ lim := by
  have h0 : position S 3 0 0 = 0 := by simp [position]
  have h1 : position S 3 0 1 = S := by simp [position]
  constructor
  · intro h
    have hlast := h 1 (by omega)
    rwa [h1] at hlast
  · intro h l hl
    obtain rfl | rfl : l = 0 ∨ l = 1 := by omega
    · rw [h0]
      exact end_mono (by omega) h
    · rwa [h1]

/-- Chunks of an even number of elements, not a power of two. -/
theorem even_overruns {P : ℕ} (hP : 2 ≤ P) (hq : 3 ≤ q) (hm : 1 ≤ m) (hS : 0 < S ∨ m = 1)
    (h : ∀ c o, o < P → c * P + o + 1 < m * (P * q) →
      c * S + (P * (c &&& (q - 1)) + o) + 1 < (m + 1) * (S + 1)) : False := by
  obtain ⟨n, rfl⟩ : ∃ n, q = n + 1 := ⟨q - 1, by omega⟩
  rw [Nat.add_sub_cancel] at h
  obtain rfl | hm2 : m = 1 ∨ 2 ≤ m := by omega
  · have hlast := h n (P - 2) (by omega) (by
      rw [Nat.one_mul, Nat.mul_succ, Nat.mul_comm n]
      omega)
    rw [Nat.and_self] at hlast
    have hSn : 2 * S ≤ n * S := Nat.mul_le_mul_right S (by omega)
    have hPn : P * 2 ≤ P * n := Nat.mul_le_mul_left P (by omega)
    omega
  · have hS' : 0 < S := by omega
    have hrows : m * 3 ≤ m * (n + 1) := Nat.mul_le_mul_left m hq
    have hlast := h (m * (n + 1) - 1) 0 (by omega) (by
      have he : (m * (n + 1) - 1) * P + P = m * (P * (n + 1)) := by
        rw [← Nat.succ_mul, Nat.succ_eq_add_one, Nat.sub_add_cancel (by omega)]
        ring
      omega)
    have hmS : m ≤ m * S := Nat.le_mul_of_pos_right m hS'
    have hmS' : 2 * S ≤ m * S := Nat.mul_le_mul_right S hm2
    have hchunk : (m * 3 - 1) * S ≤ (m * (n + 1) - 1) * S := Nat.mul_le_mul_right S (by omega)
    have hexp : (m * 3 - 1) * S + S = 3 * (m * S) := by
      rw [← Nat.succ_mul, Nat.succ_eq_add_one, Nat.sub_add_cancel (by omega)]
      ring
    have hsum : (m + 1) * (S + 1) = m * S + m + S + 1 := by ring
    omega

/-- Chunks of an odd number of elements, other than three in a page of one row. -/
theorem odd_overruns (hodd : q % 2 = 1) (hq : 3 ≤ q) (h3 : ¬ (q = 3 ∧ m = 1)) (hm : 1 ≤ m)
    (hS : 0 < S ∨ m = 1) (hlim : lim < (m + 1) * ((S + 1) * sz)) (hsize : q * sz < 2 * lim)
    (h : ∀ l, l + 1 < m * q → l * S + (l &&& (q - 1)) + 1 < (m + 1) * (S + 1)) : False := by
  have hsum : (m + 1) * (S + 1) = m * S + m + S + 1 := by ring
  obtain rfl | rfl | hm3 : m = 1 ∨ m = 2 ∨ 3 ≤ m := by omega
  · have hq5 : 5 ≤ q := by omega
    have hlast := h 3 (by omega)
    obtain rfl : S = 0 := by omega
    have hlim' : lim < 2 * sz := by simpa using hlim
    have hq' : 5 * sz ≤ q * sz := Nat.mul_le_mul_right sz hq5
    omega
  · obtain rfl | hq5 : q = 3 ∨ 5 ≤ q := by omega
    · have hlast := h 3 (by omega)
      have hand : 3 &&& (3 - 1) = 2 := by decide
      omega
    · have hlast := h 8 (by omega)
      omega
  · have hS' : 0 < S := by omega
    have hrows : m * 3 ≤ m * q := Nat.mul_le_mul_left m hq
    have hlast := h (m * q - 2) (by omega)
    have hmS : m ≤ m * S := Nat.le_mul_of_pos_right m hS'
    have hmS' : 3 * S ≤ m * S := Nat.mul_le_mul_right S hm3
    have hchunk : (m * 3 - 2) * S ≤ (m * q - 2) * S := Nat.mul_le_mul_right S (by omega)
    have hexp : (m * 3 - 2) * S + 2 * S = 3 * (m * S) := by
      rw [← Nat.add_mul, Nat.sub_add_cancel (by omega)]
      ring
    omega

/-- Any other chunk overruns the page: the shift counts more rows than the page has. -/
theorem not_allEndBy (hE : TrailingZeros E s) (h2 : E ≠ 2 ^ s) (h3 : ¬ (E = 3 ∧ m = 1))
    (hm : 1 ≤ m) (hS : 0 < S ∨ m = 1) (hlim : lim < (m + 1) * ((S + 1) * sz))
    (hsize : E * sz < 2 * lim) : ¬ AllEndBy S E s m B sz lim := by
  obtain ⟨q, hq, rfl⟩ := hE
  have hq3 : 3 ≤ q := by
    have hq1 : q ≠ 1 := by
      rintro rfl
      exact h2 (Nat.mul_one _)
    omega
  intro h
  -- no admitted position reaches the `m + 1` rows of `S + 1` elements that exceed the limit
  have hbound : ∀ c o, o < 2 ^ s → c * 2 ^ s + o + 1 < m * (2 ^ s * q) →
      c * S + (2 ^ s * (c &&& (q - 1)) + o) + 1 < (m + 1) * (S + 1) := by
    intro c o ho hl
    have hend := h _ hl
    have hdiv : (c * 2 ^ s + o) / 2 ^ s = c := by
      rw [Nat.mul_comm, Nat.mul_add_div (Nat.two_pow_pos s), Nat.div_eq_of_lt ho, Nat.add_zero]
    have hmod : (c * 2 ^ s + o) % 2 ^ s = o := by
      rw [Nat.mul_comm, Nat.mul_add_mod, Nat.mod_eq_of_lt ho]
    rw [position_eq (by omega), hdiv, hmod] at hend
    apply Nat.lt_of_mul_lt_mul_right (a := sz)
    rw [Nat.mul_assoc]
    omega
  rcases Nat.eq_zero_or_pos s with rfl | hs
  · rw [Nat.pow_zero, Nat.one_mul] at h3 hsize hbound
    refine odd_overruns hq hq3 h3 hm hS hlim hsize ?_
    intro l hl
    have hend := hbound l 0 (by omega) (by omega)
    omega
  · have hpow : 2 ≤ 2 ^ s := by
      calc 2 = 2 ^ 1 := rfl
        _ ≤ 2 ^ s := Nat.pow_le_pow_right (by omega) hs
    exact even_overruns hpow hq3 hm hS hbound

end Arithmetic

/-! The admitted indices of a constructed reader. -/

variable {cfg : Config} {r : HedgedReader cfg} {page : ℕ} {m : ByteMemory} {l : UInt64}

/-- Some run of inserts reaches the index, and the capacity assertion lets it pass. -/
def Admitted (r : HedgedReader cfg) (m : ByteMemory) (l : UInt64) : Prop :=
  ∃ vals r' m', r.insertAll .debug true m vals = .ok (r', m') ∧ r'.logicalIndex = l ∧
    l + 1 < r'.capacity

theorem admitted_iff (hf : r.Filled page 0) (hp : page ≠ 0) :
    r.Admitted m l ↔ l.toNat + 1 < r.capacity.toNat := by
  constructor
  · rintro ⟨vals, r', m', hv, rfl, hl⟩
    have hf' := filled_insertAll hf vals hv
    have hg : r'.toGeometry = r.toGeometry :=
      Except.ok.inj (hf'.setUp.geometry.symm.trans hf.setUp.geometry)
    have hlt := hf'.index_succ_lt_iff.mp hl
    rwa [hf'.index, ← hg]
  · intro hl
    have hlen : (List.replicate l.toNat (fun _ : Fin cfg.sizeofT.toNat => (0 : UInt8))).length =
        l.toNat := List.length_replicate
    obtain ⟨⟨r', m'⟩, hv⟩ := insertAll_of_lt hf hp
      (List.replicate l.toNat (fun _ : Fin cfg.sizeofT.toNat => (0 : UInt8))) (by omega) m
    have hf' := filled_insertAll hf _ hv
    have hg : r'.toGeometry = r.toGeometry :=
      Except.ok.inj (hf'.setUp.geometry.symm.trans hf.setUp.geometry)
    have hindex : r'.logicalIndex = l :=
      UInt64.toNat_inj.mp (hf'.index.trans hlen)
    refine ⟨_, r', m', hv, hindex, ?_⟩
    rw [← hindex, hf'.index_succ_lt_iff, hlen, hg]
    exact hl

/-- The arithmetic is defined and every admitted element lies inside the page. -/
structure MemorySafe (cfg : Config) : Prop where
  defined : ∃ g, cfg.geometry = .ok g
  inPage : ∀ page mem r m, page ≠ 0 → construct .debug cfg (some page) mem = .ok (r, m) →
    ∀ l, r.Admitted m l → ∀ i, page ≤ r.address i l ∧
      r.address i l + cfg.elementSize ≤ page + kHUGEPAGE_SIZE.toNat

/-- Where the last replica starts. -/
def Config.lastReplica (cfg : Config) : ℕ := (cfg.N.toNat - 1) * cfg.offset

theorem lastReplica_add_offset (hN : cfg.N ≠ 0) :
    cfg.lastReplica + cfg.offset = cfg.N.toNat * cfg.offset := by
  have hNpos : 0 < cfg.N.toNat := Nat.pos_of_ne_zero (fun hz => hN (UInt64.toNat_inj.mp hz))
  rw [Config.lastReplica, ← Nat.succ_mul, Nat.succ_eq_add_one, Nat.sub_add_cancel hNpos]

/-- Only the last replica matters; an offset that wraps exceeds the page before it does. -/
theorem replicas_end_iff {N off X : ℕ} (hoff : off < 2 ^ 31) (hN : 0 < N) :
    (∀ i, i < N → i * off % 2 ^ 64 + X ≤ 2 ^ 30) ↔ (N - 1) * off + X ≤ 2 ^ 30 := by
  constructor
  · intro h
    have h0 := h 0 hN
    rw [Nat.zero_mul, Nat.zero_mod, Nat.zero_add] at h0
    by_contra hover
    have hpos : 0 < off := by
      rcases Nat.eq_zero_or_pos off with rfl | hpos
      · omega
      · exact hpos
    -- the first replica that starts too late
    have hdm := Nat.div_add_mod (2 ^ 30 - X) off
    have hmod := Nat.mod_lt (2 ^ 30 - X) hpos
    have hfirst : (2 ^ 30 - X) / off < N - 1 := (Nat.div_lt_iff_lt_mul hpos).mpr (by omega)
    have hend := h ((2 ^ 30 - X) / off + 1) (by omega)
    rw [Nat.succ_mul, Nat.mul_comm _ off, Nat.mod_eq_of_lt (by omega)] at hend
    omega
  · intro h i hi
    have hle : i * off ≤ (N - 1) * off := Nat.mul_le_mul_right off (by omega)
    rw [Nat.mod_eq_of_lt (by omega)]
    omega

/-- An element lies inside the page when its distance from the page's start says so. -/
theorem address_inPage_iff (h : 0 ≤ cfg.channelOffset) {r : HedgedReader cfg}
    (hr : r.SetUp page) (i : Fin cfg.N.toNat) (hl : l < r.capacity) :
    (page ≤ r.address i l ∧ r.address i l + cfg.elementSize ≤ page + kHUGEPAGE_SIZE.toNat) ↔
      i * cfg.offset % 2 ^ 64 + (position cfg.strideElements cfg.elements r.chunkShift.toNat
        l.toNat + 1) * cfg.elementSize ≤ 2 ^ 30 := by
  have hpage : kHUGEPAGE_SIZE.toNat = 2 ^ 30 := rfl
  rw [address_eq h hr i hl, hpage, Nat.succ_mul]
  constructor
  · rintro ⟨-, hend⟩
    omega
  · intro hend
    exact ⟨by omega, by omega⟩

/-- Every position below the capacity is an index that some run of inserts is admitted with. -/
theorem allEndBy_of_memorySafe (h : 0 ≤ cfg.channelOffset) (hc : cfg.ChecksHold) {g : Geometry}
    (hg : cfg.geometry = .ok g) (hN : 0 < cfg.N.toNat) (hsafe : MemorySafe cfg) :
    AllEndBy cfg.strideElements cfg.elements g.chunkShift.toNat cfg.rows cfg.lastReplica
      cfg.elementSize (2 ^ 30) := by
  intro l hl
  obtain ⟨cores, hcores⟩ := setupReplicaCores_ok (UInt64.le_iff_toNat_le.mpr hN)
  have hf := filled_setUpReader hg cores 1
  have hcap : (setUpReader g cores 1 : HedgedReader cfg).capacity.toNat =
      cfg.rows * cfg.elements := (describes_of_geometry h hg).capacity
  have hlt := (setUpReader g cores 1 : HedgedReader cfg).capacity.toNat_lt
  have hofNat : (UInt64.ofNat l).toNat = l := by
    rw [UInt64.toNat_ofNat']
    exact Nat.mod_eq_of_lt (by omega)
  have hadm : UInt64.ofNat l < (setUpReader g cores 1 : HedgedReader cfg).capacity := by
    rw [UInt64.lt_iff_toNat_lt, hofNat, hcap]
    omega
  apply (replicas_end_iff (toNat_toSizeT_lt h) hN).mp
  intro i hi
  have hin := hsafe.inPage 1 (fun _ => 0) _ _ one_ne_zero
    (construct_eq_ok_iff.mpr ⟨hc, g, cores, 1, hg, hcores, rfl, rfl⟩) (UInt64.ofNat l)
    ((admitted_iff hf one_ne_zero).mpr (by rw [hofNat, hcap]; exact hl)) ⟨i, hi⟩
  rw [address_inPage_iff h hf.setUp ⟨i, hi⟩ hadm, hofNat] at hin
  exact hin

theorem memorySafe_of_allEndBy (h : 0 ≤ cfg.channelOffset) {g : Geometry}
    (hg : cfg.geometry = .ok g) (hall : 0 < cfg.N.toNat →
      AllEndBy cfg.strideElements cfg.elements g.chunkShift.toNat cfg.rows cfg.lastReplica
        cfg.elementSize (2 ^ 30)) : MemorySafe cfg := by
  refine ⟨⟨g, hg⟩, ?_⟩
  intro page mem r m hp hcon l hadm i
  obtain ⟨_, g', cores, page', hg', _, hos, he⟩ := construct_eq_ok_iff.mp hcon
  obtain rfl : g = g' := Except.ok.inj (hg.symm.trans hg')
  cases hos
  cases he
  have hf := filled_setUpReader hg cores page
  have hadm' := (admitted_iff hf hp).mp hadm
  have hcap : (setUpReader g cores page : HedgedReader cfg).capacity.toNat =
      cfg.rows * cfg.elements := (describes_of_geometry h hg).capacity
  have hN : 0 < cfg.N.toNat := Nat.zero_lt_of_lt i.isLt
  have hend := hall hN l.toNat (by rw [← hcap]; exact hadm')
  apply (address_inPage_iff h hf.setUp i (UInt64.lt_iff_toNat_lt.mpr (by omega))).mpr
  exact (replicas_end_iff (toNat_toSizeT_lt h) hN).mpr hend i i.isLt

theorem memorySafe_iff_allEndBy (h : 0 ≤ cfg.channelOffset) (hc : cfg.ChecksHold) {g : Geometry}
    (hg : cfg.geometry = .ok g) : MemorySafe cfg ↔ cfg.N = 0 ∨
      AllEndBy cfg.strideElements cfg.elements g.chunkShift.toNat cfg.rows cfg.lastReplica
        cfg.elementSize (2 ^ 30) := by
  constructor
  · intro hsafe
    by_cases hN : cfg.N = 0
    · exact Or.inl hN
    · have hNpos : 0 < cfg.N.toNat :=
        Nat.pos_of_ne_zero (fun hz => hN (UInt64.toNat_inj.mp hz))
      exact Or.inr (allEndBy_of_memorySafe h hc hg hNpos hsafe)
  · rintro (hN | hall)
    · refine memorySafe_of_allEndBy h hg (fun hNpos => ?_)
      rw [hN] at hNpos
      exact (Nat.lt_irrefl 0 hNpos).elim
    · exact memorySafe_of_allEndBy h hg (fun _ => hall)

/-- The products and quotients of the arguments for which the last copy ends inside the page. -/
inductive FitsPage (cfg : Config) : Prop
  | noReplica (h : cfg.N = 0)
  | nothingAdmitted (h : cfg.rows * cfg.elements ≤ 1)
  | coinciding (hS : cfg.strideElements = 0) (hm : 2 ≤ cfg.rows)
      (h : cfg.N.toNat * cfg.offset ≤ 2 ^ 30)
  | single (hE : cfg.elements = 1) (hm : 2 ≤ cfg.rows)
      (h : cfg.lastReplica + ((cfg.rows - 2) * cfg.strideElements + 1) * cfg.elementSize ≤ 2 ^ 30)
  | powerOfTwo (s : ℕ) (hs : 1 ≤ s) (hE : cfg.elements = 2 ^ s)
      (hS : 0 < cfg.strideElements ∨ cfg.rows = 1)
      (h : cfg.lastReplica +
        ((cfg.rows - 1) * cfg.strideElements + (2 ^ s - 1)) * cfg.elementSize ≤ 2 ^ 30)
  | three (hE : cfg.elements = 3) (hm : cfg.rows = 1)
      (h : cfg.lastReplica + (cfg.strideElements + 1) * cfg.elementSize ≤ 2 ^ 30)

/-- One more row of one more element than the quotients count exceeds the page. -/
theorem overruns_page (hr : 0 < cfg.stride) :
    2 ^ 30 < (cfg.rows + 1) * ((cfg.strideElements + 1) * cfg.elementSize) := by
  have hrows : 2 ^ 30 < cfg.stride * (cfg.rows + 1) := Nat.lt_mul_div_succ _ hr
  have hstride : cfg.stride < cfg.elementSize * (cfg.strideElements + 1) :=
    Nat.lt_mul_div_succ _ cfg.elementSize_pos
  calc 2 ^ 30 < (cfg.rows + 1) * cfg.stride := by rwa [Nat.mul_comm]
    _ ≤ (cfg.rows + 1) * ((cfg.strideElements + 1) * cfg.elementSize) := by
      apply Nat.mul_le_mul_left
      rw [Nat.mul_comm]
      exact hstride.le

theorem allEndBy_of_fitsPage (hc : cfg.ChecksHold) {s : ℕ} (hE : 0 < cfg.elements)
    (hs : TrailingZeros cfg.elements s) (hfit : FitsPage cfg) : cfg.N = 0 ∨
      AllEndBy cfg.strideElements cfg.elements s cfg.rows cfg.lastReplica
        cfg.elementSize (2 ^ 30) := by
  cases hfit with
  | noReplica hN => exact Or.inl hN
  | nothingAdmitted hcap => exact Or.inr fun l hl => by omega
  | coinciding hS hm hend =>
    by_cases hN : cfg.N = 0
    · exact Or.inl hN
    · rw [hS, allEndBy_coinciding hE hm, ← hc.offset_eq, lastReplica_add_offset hN]
      exact Or.inr hend
  | single hE1 hm hend =>
    rw [hE1] at hs ⊢
    obtain rfl := hs.eq_zero_of_odd rfl
    exact Or.inr ((allEndBy_single hm).mpr hend)
  | powerOfTwo s' hs' hE2 hS hend =>
    rw [hE2] at hs ⊢
    obtain rfl := hs.eq_of_two_pow
    rcases Nat.eq_zero_or_pos cfg.rows with hm | hm
    · refine Or.inr fun l hl => ?_
      rw [hm, Nat.zero_mul] at hl
      omega
    · exact Or.inr ((allEndBy_two_pow hm hs' hS).mpr hend)
  | three hE3 hm hend =>
    rw [hE3] at hs ⊢
    obtain rfl := hs.eq_zero_of_odd rfl
    rw [hm]
    exact Or.inr (allEndBy_three.mpr hend)

theorem fitsPage_of_allEndBy (h : 0 ≤ cfg.channelOffset) (hc : cfg.ChecksHold) {s : ℕ}
    (hE : 0 < cfg.elements) (hs : TrailingZeros cfg.elements s) (hr : 0 < cfg.stride)
    (hall : AllEndBy cfg.strideElements cfg.elements s cfg.rows cfg.lastReplica
      cfg.elementSize (2 ^ 30)) : FitsPage cfg := by
  by_cases hcap : cfg.rows * cfg.elements ≤ 1
  · exact .nothingAdmitted hcap
  have hm : 1 ≤ cfg.rows := by
    rcases Nat.eq_zero_or_pos cfg.rows with hm | hm
    · rw [hm, Nat.zero_mul] at hcap
      omega
    · exact hm
  by_cases hS : cfg.strideElements = 0 ∧ 2 ≤ cfg.rows
  · by_cases hN : cfg.N = 0
    · exact .noReplica hN
    · rw [hS.1, allEndBy_coinciding hE hS.2, ← hc.offset_eq, lastReplica_add_offset hN] at hall
      exact .coinciding hS.1 hS.2 hall
  have hS' : 0 < cfg.strideElements ∨ cfg.rows = 1 := by omega
  by_cases hE2 : cfg.elements = 2 ^ s
  · rcases Nat.eq_zero_or_pos s with rfl | hs1
    · have hE1 : cfg.elements = 1 := hE2
      rw [hE1] at hall hcap
      have hm2 : 2 ≤ cfg.rows := by omega
      exact .single hE1 hm2 ((allEndBy_single hm2).mp hall)
    · rw [hE2] at hall
      exact .powerOfTwo s hs1 hE2 hS' ((allEndBy_two_pow hm hs1 hS').mp hall)
  by_cases h3 : cfg.elements = 3 ∧ cfg.rows = 1
  · rw [h3.1] at hs
    obtain rfl := hs.eq_zero_of_odd rfl
    rw [h3.1, h3.2] at hall
    exact .three h3.1 h3.2 (allEndBy_three.mp hall)
  have hsize : cfg.elements * cfg.elementSize < 2 * 2 ^ 30 := by
    rw [← hc.offset_eq]
    exact toNat_toSizeT_lt h
  exact (not_allEndBy hs hE2 h3 hm hS' (overruns_page hr) hsize hall).elim

theorem fitsPage_iff_allEndBy (h : 0 ≤ cfg.channelOffset) (hc : cfg.ChecksHold) {s : ℕ}
    (hs : TrailingZeros cfg.elements s) (hr : 0 < cfg.stride) : FitsPage cfg ↔ cfg.N = 0 ∨
      AllEndBy cfg.strideElements cfg.elements s cfg.rows cfg.lastReplica
        cfg.elementSize (2 ^ 30) := by
  have hE : 0 < cfg.elements := by
    obtain ⟨q, hq, he⟩ := hs
    rw [he]
    exact Nat.mul_pos (Nat.two_pow_pos s) (by omega)
  constructor
  · exact allEndBy_of_fitsPage hc hE hs
  · rintro (hN | hall)
    · exact .noReplica hN
    · exact fitsPage_of_allEndBy h hc hE hs hr hall

theorem fitsPage_of_two_pow (hc : cfg.ChecksHold) (hN : cfg.N ≠ 0)
    (hstride : cfg.stride = cfg.numChannels.toNat * cfg.offset)
    (hS : cfg.strideElements * cfg.elementSize = cfg.stride) {s : ℕ}
    (hs : cfg.elements = 2 ^ s) : FitsPage cfg := by
  have hrows := cfg.rows_mul_stride_le
  have hsz := cfg.elementSize_pos
  have hoff : cfg.offset = 2 ^ s * cfg.elementSize := by rw [hc.offset_eq, hs]
  have hpow := Nat.two_pow_pos s
  have hszoff : cfg.elementSize ≤ cfg.offset := by
    rw [hoff]
    exact Nat.le_mul_of_pos_left _ hpow
  have hlast : cfg.lastReplica + cfg.offset ≤ cfg.stride := by
    rw [lastReplica_add_offset hN, hstride]
    exact Nat.mul_le_mul_right _ hc.replicas_le
  have hSpos : 0 < cfg.strideElements := by
    apply Nat.pos_of_mul_pos_right (b := cfg.elementSize)
    omega
  rcases hm : cfg.rows with _ | n
  · exact .nothingAdmitted (by rw [hm, Nat.zero_mul]; omega)
  rw [hm, Nat.succ_mul] at hrows
  rcases Nat.eq_zero_or_pos s with rfl | hs1
  · rcases n with _ | n
    · exact .nothingAdmitted (by rw [hm, hs]; decide)
    · refine .single hs (by omega) ?_
      have hend : (n * cfg.strideElements + 1) * cfg.elementSize =
          n * cfg.stride + cfg.elementSize := by
        rw [Nat.succ_mul, Nat.mul_assoc, hS]
      rw [Nat.succ_mul] at hrows
      rw [hm, Nat.add_sub_cancel n 2, hend]
      omega
  · refine .powerOfTwo s hs1 hs (Or.inl hSpos) ?_
    have hend : (n * cfg.strideElements + (2 ^ s - 1)) * cfg.elementSize ≤
        n * cfg.stride + cfg.offset := by
      rw [Nat.add_mul, Nat.mul_assoc, hS, hoff]
      exact Nat.add_le_add_left (Nat.mul_le_mul_right _ (Nat.sub_le _ _)) _
    rw [hm, Nat.add_sub_cancel]
    omega

/-- No row fits if one row is larger than the page. -/
theorem rows_eq_zero_iff (hr : 0 < cfg.stride) : cfg.rows = 0 ↔ 2 ^ 30 < cfg.stride := by
  rw [Config.rows, Nat.div_eq_zero_iff]
  omega

theorem strideElements_mul (hc : cfg.ChecksHold) (ho : cfg.NoOverflow) :
    cfg.strideElements * cfg.elementSize = cfg.stride := by
  have hstride : cfg.stride = cfg.numChannels.toNat * cfg.offset := Nat.mod_eq_of_lt ho
  rw [Config.strideElements, hstride, hc.offset_eq, ← Nat.mul_assoc,
    Nat.mul_div_cancel _ cfg.elementSize_pos]

/-- Without overflow, chunks of a power of two always fit. -/
theorem fitsPage_iff_of_noOverflow (hc : cfg.ChecksHold) (ho : cfg.NoOverflow)
    (hr : 0 < cfg.stride) : FitsPage cfg ↔ cfg.N = 0 ∨ 2 ^ 30 < cfg.stride ∨
      (∃ s, cfg.elements = 2 ^ s) ∨ (cfg.elements = 3 ∧ cfg.rows = 1 ∧
        cfg.lastReplica + cfg.stride + cfg.elementSize ≤ 2 ^ 30) := by
  have hstride : cfg.stride = cfg.numChannels.toNat * cfg.offset := Nat.mod_eq_of_lt ho
  have hC : 0 < cfg.numChannels.toNat := by
    rw [hstride] at hr
    exact Nat.pos_of_mul_pos_right hr
  have hoff : cfg.offset ≤ cfg.stride := by
    rw [hstride]
    exact Nat.le_mul_of_pos_left _ hC
  have hS := strideElements_mul hc ho
  have hSpos : 0 < cfg.strideElements := by
    rw [← hS] at hr
    exact Nat.pos_of_mul_pos_right hr
  have hzero := rows_eq_zero_iff hr
  have hrows := cfg.rows_mul_stride_le
  have hE : 0 < cfg.elements := by
    apply hc.elements_pos
    rw [hstride] at hr
    exact Nat.pos_of_mul_pos_left hr
  constructor
  · rintro (hN | hcap | ⟨hS0, _, _⟩ | ⟨hE1, _, _⟩ | ⟨s, _, hE2, _, _⟩ | ⟨hE3, hm, hend⟩)
    · exact Or.inl hN
    · rcases Nat.eq_zero_or_pos cfg.rows with hm | hm
      · exact Or.inr (Or.inl (hzero.mp hm))
      · have hle : cfg.elements ≤ cfg.rows * cfg.elements := Nat.le_mul_of_pos_left _ hm
        exact Or.inr (Or.inr (Or.inl ⟨0, by omega⟩))
    · omega
    · exact Or.inr (Or.inr (Or.inl ⟨0, hE1⟩))
    · exact Or.inr (Or.inr (Or.inl ⟨s, hE2⟩))
    · rw [Nat.succ_mul, hS] at hend
      exact Or.inr (Or.inr (Or.inr ⟨hE3, hm, by omega⟩))
  · rintro (hN | hbig | ⟨s, hs⟩ | ⟨hE3, hm, hend⟩)
    · exact .noReplica hN
    · apply FitsPage.nothingAdmitted
      rw [hzero.mpr hbig]
      omega
    · by_cases hN : cfg.N = 0
      · exact .noReplica hN
      exact fitsPage_of_two_pow hc hN hstride hS hs
    · refine .three hE3 hm ?_
      rw [Nat.succ_mul, hS]
      omega

/-- The constructor's checks make the reader safe exactly for arguments that fit the page. -/
theorem memorySafe_iff (h : 0 ≤ cfg.channelOffset) (hc : cfg.ChecksHold) :
    MemorySafe cfg ↔ 0 < cfg.offset ∧ 0 < cfg.stride ∧ FitsPage cfg := by
  by_cases hdef : ∃ g, cfg.geometry = .ok g
  · obtain ⟨g, hg⟩ := hdef
    have hd := describes_of_geometry h hg
    have hoff : 0 < cfg.offset := hd.elements_pos.trans_le cfg.elements_le
    rw [memorySafe_iff_allEndBy h hc hg, ← fitsPage_iff_allEndBy h hc hd.shift hd.stride_pos]
    exact ⟨fun hf => ⟨hoff, hd.stride_pos, hf⟩, fun hf => hf.2.2⟩
  · constructor
    · intro hsafe
      exact (hdef hsafe.defined).elim
    · rintro ⟨hoff, hstride, _⟩
      exact (hdef (geometry_defined_iff.mpr ⟨hstride, hc.elements_pos hoff⟩)).elim

theorem memorySafe_iff_threeElementChunks :
    MemorySafe threeElementChunks ↔
      0 < threeElementChunks.offset ∧ 0 < threeElementChunks.stride ∧
        FitsPage threeElementChunks :=
  memorySafe_iff (by decide) checksHold_threeElementChunks

/-- With chunks of three elements, element 178956971 lies past the page. -/
theorem not_memorySafe : ¬ ∀ cfg : Config, 0 ≤ cfg.channelOffset → cfg.ChecksHold →
    MemorySafe cfg := by
  intro hall
  have h0 : 0 ≤ threeElementChunks.channelOffset := by decide
  have hsafe := hall threeElementChunks h0 checksHold_threeElementChunks
  obtain ⟨g, hg⟩ := hsafe.defined
  have hd := describes_of_geometry h0 hg
  have hE : threeElementChunks.elements = 3 := rfl
  have hs := hd.shift
  rw [hE] at hs
  have hz : g.chunkShift.toNat = 0 := hs.eq_zero_of_odd rfl
  rcases (memorySafe_iff_allEndBy h0 checksHold_threeElementChunks hg).mp hsafe with hN | hend
  · exact absurd hN (by decide)
  · have hlast := hend 178956971 (by decide)
    rw [hz] at hlast
    exact absurd hlast (by decide)

end Tailslayer.HedgedReader
