import Tailslayer.HedgedReader.Placement

/-! How many elements fit: `capacity()` and the assertion with which each insert checks it. -/
namespace Tailslayer.HedgedReader

variable {cfg : Config} {os : Option ℕ} {mem m : ByteMemory} {r : HedgedReader cfg} {page n : ℕ}
  {vals : List (Bytes cfg.sizeofT.toNat)}

/-- Every insert of the run finds room, as its capacity assertion sees it. -/
def FindsRoom (r : HedgedReader cfg) (m : ByteMemory) (vals : List (Bytes cfg.sizeofT.toNat)) :
    Prop :=
  r.insertAll .debug true m vals ≠ .error (.assertion "Tried to insert out of bounds")

/-- A run of `n` inserts finds room exactly when `capacity()` covers it. -/
def CapacityExact (r : HedgedReader cfg) (m : ByteMemory) (n : ℕ) : Prop :=
  ∀ vals, vals.length = n → (r.FindsRoom m vals ↔ n ≤ r.capacity.toNat)

/-- Some run of inserts ends with `size()` equal to `capacity()`. -/
def SizeReachesCapacity (r : HedgedReader cfg) (m : ByteMemory) : Prop :=
  ∃ vals r' m', r.insertAll .debug true m vals = .ok (r', m') ∧ r'.size = r'.capacity

def SizeBounded (r : HedgedReader cfg) (m : ByteMemory) : Prop :=
  ∀ vals r' m', r.insertAll .debug true m vals = .ok (r', m') → r'.size ≤ r'.capacity

theorem insert_full (hf : r.Filled page n) (hp : page ≠ 0) (hn : r.capacity.toNat ≤ n + 1)
    (val : Bytes cfg.sizeofT.toNat) : r.insert .debug true m val =
      .error (.assertion "Tried to insert out of bounds") := by
  have hpage : r.replicaPage ≠ 0 := hf.setUp.page_eq ▸ hp
  have hroom : ¬ r.logicalIndex + 1 < r.capacity := by
    rw [hf.index_succ_lt_iff]
    omega
  simp [insert, check, hpage, hroom, bind, Except.bind]

/-- Too long a run ends at the assertion, wherever it started. -/
theorem insertAll_full (hf : r.Filled page n) (hp : page ≠ 0) (hv : vals ≠ [])
    (hn : r.capacity.toNat ≤ n + vals.length) : r.insertAll .debug true m vals =
      .error (.assertion "Tried to insert out of bounds") := by
  induction vals generalizing r n m with
  | nil => exact absurd rfl hv
  | cons val vals ih =>
    rw [List.length_cons] at hn
    rw [insertAll, List.foldlM_cons]
    by_cases hroom : n + 1 < r.capacity.toNat
    · obtain ⟨⟨r', m'⟩, hs⟩ := insert_of_lt hf.setUp hp (hf.index_succ_lt_iff.mpr hroom) m val
      have hcap : r'.capacity = r.capacity := by
        obtain ⟨_, rfl, _⟩ := insert_ok hs
        rfl
      -- there is still room after this insert, so the run is not over
      have hrest : vals ≠ [] := by
        rintro rfl
        rw [List.length_nil] at hn
        omega
      rw [hs]
      exact ih (filled_insert hf hs) hrest (by rw [hcap]; omega)
    · rw [insert_full hf hp (by omega)]
      rfl

theorem findsRoom_iff (hf : r.Filled page 0) (hp : page ≠ 0) :
    r.FindsRoom m vals ↔ vals.length = 0 ∨ vals.length < r.capacity.toNat := by
  constructor
  · intro h
    by_contra hno
    rw [not_or, List.length_eq_zero_iff] at hno
    exact h (insertAll_full hf hp hno.1 (by omega))
  · rintro (h | h)
    · rw [List.length_eq_zero_iff] at h
      subst h
      intro he
      cases he
    · obtain ⟨s, hs⟩ := insertAll_of_lt hf hp vals (by omega) m
      rw [FindsRoom, hs]
      intro he
      cases he

/-- A run that passes every assertion: how many elements it can have inserted, and the size. -/
theorem size_of_insertAll (hf : r.Filled page 0) (hp : page ≠ 0) {r' : HedgedReader cfg}
    {m' : ByteMemory} (h : r.insertAll .debug true m vals = .ok (r', m')) :
    r'.size.toNat = vals.length ∧ r'.capacity = r.capacity ∧
      (vals.length = 0 ∨ vals.length < r.capacity.toNat) := by
  have hf' := filled_insertAll hf vals h
  have hg : r'.toGeometry = r.toGeometry :=
    Except.ok.inj (hf'.setUp.geometry.symm.trans hf.setUp.geometry)
  have hroom : r.FindsRoom m vals := by
    rw [FindsRoom, h]
    intro he
    cases he
  exact ⟨hf'.index, by rw [hg], (findsRoom_iff hf hp).mp hroom⟩

theorem capacityExact_iff_of_filled (hf : r.Filled page 0) (hp : page ≠ 0) :
    r.CapacityExact m n ↔ n = 0 ∨ n ≠ r.capacity.toNat := by
  constructor
  · intro h
    have hlen : (List.replicate n (fun _ : Fin cfg.sizeofT.toNat => (0 : UInt8))).length = n :=
      List.length_replicate
    have hroom := h _ hlen
    rw [findsRoom_iff hf hp, hlen] at hroom
    omega
  · rintro h vals rfl
    rw [findsRoom_iff hf hp]
    omega

theorem sizeReachesCapacity_iff (hf : r.Filled page 0) (hp : page ≠ 0) :
    r.SizeReachesCapacity m ↔ r.capacity = 0 := by
  constructor
  · rintro ⟨vals, r', m', h, hsize⟩
    obtain ⟨hlen, hcap, hroom⟩ := size_of_insertAll hf hp h
    rw [← hlen, hsize, hcap] at hroom
    apply UInt64.toNat_inj.mp
    change r.capacity.toNat = 0
    omega
  · intro h
    refine ⟨[], r, m, rfl, ?_⟩
    rw [h]
    exact UInt64.toNat_inj.mp hf.index

theorem sizeBounded (hf : r.Filled page 0) (hp : page ≠ 0) : r.SizeBounded m := by
  intro vals r' m' h
  obtain ⟨hlen, hcap, hroom⟩ := size_of_insertAll hf hp h
  rw [UInt64.le_iff_toNat_le, hcap, hlen]
  omega

theorem filled_of_construct (h : construct .debug cfg os mem = .ok (r, m)) :
    ∃ page, os = some page ∧ r.Filled page 0 := by
  obtain ⟨_, g, cores, page, hg, _, hos, he⟩ := construct_eq_ok_iff.mp h
  cases he
  exact ⟨page, hos, filled_setUpReader hg cores page⟩

/-- The assertion leaves the last place of the page unused, so `capacity()` is exact for every
number of inserts but itself. -/
theorem capacityExact_iff (h : construct .debug cfg os mem = .ok (r, m)) (hos : os ≠ some 0) :
    (r.CapacityExact m n ↔ n = 0 ∨ n ≠ r.capacity.toNat) ∧
      (r.SizeReachesCapacity m ↔ r.capacity = 0) ∧ r.SizeBounded m := by
  obtain ⟨page, rfl, hf⟩ := filled_of_construct h
  have hp : page ≠ 0 := fun hz => hos (hz ▸ rfl)
  exact ⟨capacityExact_iff_of_filled hf hp, sizeReachesCapacity_iff hf hp, sizeBounded hf hp⟩

theorem construct_defaultConfig :
    ∃ r m, construct .debug defaultConfig (some 4096) (fun _ => 0) = .ok (r, m) ∧
      r.capacity.toNat = 2 ^ 29 := by
  have hgeometry : ∃ g, defaultConfig.geometry = .ok g :=
    geometry_of_pos (by decide) ⟨by decide, by decide⟩ (by unfold Config.NoOverflow; decide)
      (by decide)
  have hsetup : ∃ cores, defaultConfig.setupReplicaCores = .ok cores :=
    setupReplicaCores_ok (by decide)
  obtain ⟨g, hg⟩ := hgeometry
  obtain ⟨cores, hcores⟩ := hsetup
  refine ⟨_, _, construct_eq_ok_iff.mpr
    ⟨⟨by decide, by decide⟩, g, cores, 4096, hg, hcores, rfl, rfl⟩, ?_⟩
  change g.capacity.toNat = 2 ^ 29
  rw [(describes_of_geometry (by decide) hg).capacity]
  decide

theorem capacityExact_iff_defaultConfig :
    ∃ r m, construct .debug defaultConfig (some 4096) (fun _ => 0) = .ok (r, m) ∧
      (r.CapacityExact m 1000 ↔ 1000 = 0 ∨ 1000 ≠ r.capacity.toNat) ∧
        (r.SizeReachesCapacity m ↔ r.capacity = 0) ∧ r.SizeBounded m := by
  obtain ⟨r, m, h, _⟩ := construct_defaultConfig
  exact ⟨r, m, h, capacityExact_iff h (by decide)⟩

/-- With 2 ^ 29 places the insert number 2 ^ 29 is refused. -/
theorem not_capacityExact : ¬ ∀ (cfg : Config) os mem (r : HedgedReader cfg) m n,
    0 < cfg.channelOffset → os ≠ some 0 → construct .debug cfg os mem = .ok (r, m) →
      r.CapacityExact m n := by
  intro hall
  obtain ⟨r, m, h, hcap⟩ := construct_defaultConfig
  have hexact := hall _ _ _ _ _ (2 ^ 29) (by decide) (by decide) h
  obtain ⟨page, hos, hf⟩ := filled_of_construct h
  have hp : page ≠ 0 := by
    rintro rfl
    cases hos
  rw [capacityExact_iff_of_filled hf hp, hcap] at hexact
  omega

end Tailslayer.HedgedReader
