import Mathlib.Data.List.Nodup
import Mathlib.Data.Finset.Card
import Tailslayer.ThreadManager.Specification

/-! Well-formed configurations, and the core table that initialization builds from one. -/
namespace Tailslayer

open FiniteMap DynamicThreadManager

variable {Mask : Type}

namespace ProcessorConfigurationVector

/-- What topology detection promises its clients. -/
structure WellFormed (cfg : ProcessorConfigurationVector Mask) : Prop where
  nonempty : cfg.proc ≠ []
  globalID : ∀ i (h : i < cfg.proc.length), cfg.proc[i].globalID.toNat = i
  threadCount : cfg.threadCount.toNat = cfg.proc.length
  physicalCoreCount : cfg.physicalCoreCount.toNat =
    (cfg.proc.map LogicalProcessor.uniqueCoreID).toFinset.card

/-- The processors of one core, in configuration order. -/
def coreProcs (cfg : ProcessorConfigurationVector Mask) (k : UInt64) :
    List (LogicalProcessor Mask) :=
  cfg.proc.filter (fun p => p.uniqueCoreID = k)

def IsCore (cfg : ProcessorConfigurationVector Mask) (k : UInt64) : Prop :=
  ∃ p ∈ cfg.proc, p.uniqueCoreID = k

/-- The indices of the threads of one core. -/
def threadsOf (cfg : ProcessorConfigurationVector Mask) (k : UInt64) : ThreadIdxList :=
  (cfg.coreProcs k).map LogicalProcessor.globalID

variable {cfg : ProcessorConfigurationVector Mask} {k k' : UInt64} {i : UInt32}
  {p q : LogicalProcessor Mask}

theorem mem_coreProcs : p ∈ cfg.coreProcs k ↔ p ∈ cfg.proc ∧ p.uniqueCoreID = k := by
  simp [coreProcs]

theorem mem_threadsOf : i ∈ cfg.threadsOf k ↔
    ∃ p ∈ cfg.proc, p.uniqueCoreID = k ∧ p.globalID = i := by
  simp [threadsOf, mem_coreProcs, and_assoc]

theorem globalID_mem_threadsOf (hp : p ∈ cfg.proc) : p.globalID ∈ cfg.threadsOf p.uniqueCoreID :=
  mem_threadsOf.mpr ⟨p, hp, rfl, rfl⟩

theorem threadsOf_ne_nil : cfg.threadsOf k ≠ [] ↔ cfg.IsCore k := by
  simp [threadsOf, coreProcs, IsCore, List.filter_eq_nil_iff]

theorem WellFormed.length_lt (h : cfg.WellFormed) : cfg.proc.length < 2 ^ 32 := by
  rw [← h.threadCount]
  exact cfg.threadCount.toNat_lt

theorem WellFormed.getElem_globalID (h : cfg.WellFormed) (hp : p ∈ cfg.proc) :
    cfg.proc[p.globalID.toNat]? = some p := by
  obtain ⟨n, hn, rfl⟩ := List.mem_iff_getElem.mp hp
  rw [h.globalID n hn, List.getElem?_eq_getElem hn]

theorem WellFormed.at_globalID (h : cfg.WellFormed) (hp : p ∈ cfg.proc) :
    cfg.at p.globalID = .ok p := by
  simp [ProcessorConfigurationVector.at, h.getElem_globalID hp]

theorem WellFormed.globalID_inj (h : cfg.WellFormed) (hp : p ∈ cfg.proc) (hq : q ∈ cfg.proc)
    (he : p.globalID = q.globalID) : p = q := by
  have hg := h.getElem_globalID hp
  rw [he, h.getElem_globalID hq] at hg
  exact (Option.some.inj hg).symm

theorem WellFormed.globalID_lt (h : cfg.WellFormed) (hp : p ∈ cfg.proc) :
    p.globalID.toNat < cfg.proc.length := by
  have hg := h.getElem_globalID hp
  exact (List.getElem?_eq_some_iff.mp hg).1

theorem WellFormed.ne_sentinel [Inhabited Mask] (h : cfg.WellFormed) (hp : p ∈ cfg.proc) :
    p.globalID ≠ (LogicalProcessor.sentinel : LogicalProcessor Mask).globalID := by
  intro he
  have hn := h.globalID_lt hp
  have hl := h.length_lt
  rw [he] at hn
  change 4294967295 < _ at hn
  omega

theorem WellFormed.nodup_proc (h : cfg.WellFormed) : cfg.proc.Nodup := by
  rw [List.nodup_iff_injective_get]
  intro a b he
  have hg := congrArg (fun p => p.globalID.toNat) he
  apply Fin.ext
  simpa [h.globalID] using hg

theorem WellFormed.nodup_threadsOf (h : cfg.WellFormed) (k : UInt64) :
    (cfg.threadsOf k).Nodup := by
  apply List.Nodup.map_on _ (h.nodup_proc.filter _)
  intro p hp q hq he
  exact h.globalID_inj (List.mem_of_mem_filter hp) (List.mem_of_mem_filter hq) he

/-- No thread index belongs to two cores. -/
theorem WellFormed.core_unique (h : cfg.WellFormed) (hk : i ∈ cfg.threadsOf k)
    (hk' : i ∈ cfg.threadsOf k') : k = k' := by
  obtain ⟨p, hp, rfl, rfl⟩ := mem_threadsOf.mp hk
  obtain ⟨q, hq, rfl, he⟩ := mem_threadsOf.mp hk'
  rw [h.globalID_inj hq hp he]

theorem length_threadsOf_le (cfg : ProcessorConfigurationVector Mask) (k : UInt64) :
    (cfg.threadsOf k).length ≤ cfg.proc.length := by
  simp [threadsOf, coreProcs, List.length_filter_le]

theorem filter_zipIdx (h : cfg.WellFormed) (k : UInt64) :
    (cfg.proc.zipIdx.filter (fun p => p.1.uniqueCoreID = k)).map (fun p => UInt32.ofNat p.2) =
      cfg.threadsOf k := by
  have hz : ∀ p ∈ cfg.proc.zipIdx, UInt32.ofNat p.2 = p.1.globalID := by
    rintro ⟨p, n⟩ hp
    obtain ⟨hn, he⟩ := List.mem_zipIdx' hp
    apply UInt32.toNat_inj.mp
    change _ = p.globalID.toNat
    rw [he, h.globalID n hn]
    have hl := h.length_lt
    simp only [UInt32.toNat_ofNat']
    exact Nat.mod_eq_of_lt (by omega)
  rw [List.map_congr_left (fun p hp => hz p (List.mem_of_mem_filter hp))]
  rw [threadsOf, coreProcs]
  conv_rhs => rw [← List.zipIdx_map_fst 0 cfg.proc, List.filter_map, List.map_map]
  rfl

theorem foldl_pushThread (xs : List (LogicalProcessor Mask × ℕ)) (core : InternalPair) :
    xs.foldl (fun core p => InternalPair.pushThread core p.2) core =
      { core with threads := core.threads ++ xs.map (fun p => UInt32.ofNat p.2) } := by
  induction xs generalizing core with
  | nil => simp
  | cons x xs ih =>
    rw [List.foldl_cons, ih]
    simp [InternalPair.pushThread]

theorem lookup_coreTable (h : cfg.WellFormed) (k : UInt64) :
    (coreTable cfg ∅).lookup k =
      if cfg.threadsOf k = [] then none
      else some ⟨UInt32.ofNat (cfg.threadsOf k).length, cfg.threadsOf k⟩ := by
  have hf := filter_zipIdx h k
  rw [coreTable, lookup_mapValues, lookup_collect, foldl_pushThread, hf]
  by_cases hn : cfg.proc.zipIdx.filter (fun p => p.1.uniqueCoreID = k) = []
  · rw [hn, List.map_nil] at hf
    simp [hn, ← hf]
  · have hne : cfg.threadsOf k ≠ [] := by
      rw [← hf]
      simpa using hn
    have hv : (value k (∅ : Map UInt64 InternalPair)).threads = [] := rfl
    simp [hn, hne, hv]

theorem mem_coreTable (h : cfg.WellFormed) : k ∈ coreTable cfg ∅ ↔ cfg.IsCore k := by
  rw [← Finmap.lookup_isSome, lookup_coreTable h, ← threadsOf_ne_nil]
  split <;> simp_all

/-- A core's entry of the table carries its thread list and that list's length. -/
theorem value_coreTable (h : cfg.WellFormed) (hk : cfg.IsCore k) :
    value k (coreTable cfg ∅) =
      ⟨UInt32.ofNat (cfg.threadsOf k).length, cfg.threadsOf k⟩ := by
  apply value_of_lookup
  rw [lookup_coreTable h, if_neg (threadsOf_ne_nil.mpr hk)]

theorem toNat_threadCount (h : cfg.WellFormed) (k : UInt64) :
    (UInt32.ofNat (cfg.threadsOf k).length).toNat = (cfg.threadsOf k).length := by
  have hl := h.length_lt
  have ht := length_threadsOf_le cfg k
  simp only [UInt32.toNat_ofNat']
  exact Nat.mod_eq_of_lt (by omega)

/-- There are as many table entries as distinct core keys. -/
theorem size_coreTable (h : cfg.WellFormed) :
    size (coreTable cfg ∅) = cfg.physicalCoreCount.toNat := by
  rw [h.physicalCoreCount, size]
  congr 1
  ext k
  rw [Finmap.mem_keys, mem_coreTable h]
  simp [IsCore]

/-- All threads together are the whole configuration. -/
theorem total_coreTable (cfg : ProcessorConfigurationVector Mask) :
    total (fun core => core.threads.length) (coreTable cfg ∅) = cfg.proc.length := by
  have hc := total_collect (fun core : InternalPair => core.threads.length) rfl
    (fun p : LogicalProcessor Mask × ℕ => p.1.uniqueCoreID)
    (fun core p => InternalPair.pushThread core p.2) (by simp [InternalPair.pushThread])
    cfg.proc.zipIdx ∅
  rw [coreTable, total_mapValues, hc]
  simp

end ProcessorConfigurationVector

end Tailslayer
