import Mathlib.Algebra.Order.BigOperators.Group.Finset
import Tailslayer.ThreadManager.Ownership

/-! The free-thread counter against the number of stored thread indices. -/
namespace Tailslayer.DynamicThreadManager

open FiniteMap ProcessorConfigurationVector

variable {Mask : Type} {cfg : ProcessorConfigurationVector Mask} {s t : DynamicThreadManager Mask}
  {k : UInt64} {l : ThreadIdxList} {c : Call Mask} {r : Reply Mask}

/-- The number of indices stored in the two maps. -/
def storedThreads (s : DynamicThreadManager Mask) : ℕ :=
  total List.length s.freeCoreMap + total List.length s.partiallyFreeCoreMap

/-- The counter is exact, and so bounded by the number of logical processors. -/
def CountsFree (cfg : ProcessorConfigurationVector Mask) (s : DynamicThreadManager Mask) : Prop :=
  s.freeThreads.toNat = s.storedThreads ∧ s.freeThreads.toNat ≤ cfg.proc.length

/-- The call releases a whole core of which some threads are already free. -/
def FreesPartialCore [Inhabited Mask] (s : DynamicThreadManager Mask) : Call Mask → Prop
  | .freeProcessor coreID packageID =>
    (⟨0xffffffff, coreID, packageID, 1, default⟩ : LogicalProcessor Mask).uniqueCoreID ∈
      s.partiallyFreeCoreMap
  | _ => False

theorem storedThreads_initial (hw : cfg.WellFormed) :
    (initial cfg).storedThreads = cfg.proc.length := by
  have hm : (initial cfg).freeCoreMap = mapValues InternalPair.threads (coreTable cfg ∅) := by
    apply Finmap.ext_lookup
    intro k
    rw [lookup_initial hw, lookup_mapValues, lookup_coreTable hw]
    split <;> rfl
  rw [storedThreads, hm, total_mapValues, total_coreTable]
  rfl

theorem countsFree_initial (hw : cfg.WellFormed) : CountsFree cfg (initial cfg) := by
  rw [CountsFree, storedThreads_initial hw]
  exact ⟨freeThreadCount_initial hw, (freeThreadCount_initial hw).le⟩

/-- The stored indices are distinct threads of the configuration. -/
theorem storedThreads_le (hw : cfg.WellFormed) (h : s.Invariant cfg) :
    s.storedThreads ≤ cfg.proc.length := by
  have hcfg : cfg.proc.length = ∑ k ∈ (coreTable cfg ∅).keys, (cfg.threadsOf k).length := by
    rw [← total_coreTable, total_eq_sum]
    apply Finset.sum_congr rfl
    intro k hk
    rw [value_coreTable hw ((mem_coreTable hw).mp (Finmap.mem_keys.mp hk))]
  have hf : ∀ k ∈ s.freeCoreMap.keys, (value k s.freeCoreMap).length ≤
      (cfg.threadsOf k).length := by
    intro k hk
    rw [value_of_lookup (h.lookup_free (Finmap.mem_keys.mp hk))]
  have hp : ∀ k ∈ s.partiallyFreeCoreMap.keys, (value k s.partiallyFreeCoreMap).length ≤
      (cfg.threadsOf k).length := by
    intro k hk
    exact (h.partially k _ (lookup_of_mem (Finmap.mem_keys.mp hk))).2.2.2.le
  rw [storedThreads, total_eq_sum, total_eq_sum, hcfg]
  calc _ ≤ ∑ k ∈ s.freeCoreMap.keys, (cfg.threadsOf k).length +
        ∑ k ∈ s.partiallyFreeCoreMap.keys, (cfg.threadsOf k).length :=
        Nat.add_le_add (Finset.sum_le_sum hf) (Finset.sum_le_sum hp)
    _ = ∑ k ∈ s.freeCoreMap.keys ∪ s.partiallyFreeCoreMap.keys, (cfg.threadsOf k).length :=
        (Finset.sum_union h.disjoint_keys).symm
    _ ≤ _ := by
      apply Finset.sum_le_sum_of_subset
      intro k hk
      rw [Finmap.mem_keys, mem_coreTable hw]
      rcases Finset.mem_union.mp hk with hk | hk
      · exact h.isCore_free (Finmap.mem_keys.mp hk)
      · exact h.isCore_partially (Finmap.mem_keys.mp hk)

theorem total_shrink (l : ThreadIdxList) {m : ProcMap} {l' : ThreadIdxList}
    (h : m.lookup k = some l') :
    total List.length m + l.length = total List.length (shrink k l m) + l'.length := by
  unfold shrink
  split
  · next hn =>
    have ht := total_erase_of_lookup List.length h
    subst hn
    simp only [List.length_nil]
    omega
  · have ht := total_insert_of_lookup (v := l) List.length h
    omega

theorem total_shrink_empty (k : UInt64) (l : ThreadIdxList) :
    total List.length (shrink k l ∅) = l.length := by
  unfold shrink
  split
  · next hn =>
    rw [erase_of_notMem Finmap.notMem_empty, hn]
    rfl
  · rw [total_insert_of_notMem List.length Finmap.notMem_empty, total_empty, Nat.add_zero]

/-- No partially free core stores an empty list. -/
theorem length_value_eq_zero_iff (h : s.Invariant cfg) :
    (value k s.partiallyFreeCoreMap).length = 0 ↔ k ∉ s.partiallyFreeCoreMap := by
  constructor
  · intro hz hk
    have hne := (h.partially k _ (lookup_of_mem hk)).1
    exact hne (List.length_eq_zero_iff.mp hz)
  · intro hk
    rw [value, Finmap.lookup_eq_none.mpr hk]
    rfl

theorem total_insert_value (l : ThreadIdxList) (m : ProcMap) (k : UInt64) :
    (value k m).length + total List.length (m.insert k l) = l.length + total List.length m :=
  total_adjust List.length rfl (fun _ => l) m k

theorem total_erase_value (m : ProcMap) (k : UInt64) :
    (value k m).length + total List.length (m.erase k) = total List.length m := by
  by_cases hk : k ∈ m
  · exact total_erase_of_lookup List.length (lookup_of_mem hk)
  · rw [erase_of_notMem hk, value, Finmap.lookup_eq_none.mpr hk]
    exact Nat.zero_add _

theorem toNat_sub_ofNat {n : UInt32} {m : ℕ} (h : m ≤ n.toNat) :
    (n - UInt32.ofNat m).toNat = n.toNat - m := by
  have hn := n.toNat_lt
  have hm : (UInt32.ofNat m).toNat = m := by
    rw [UInt32.toNat_ofNat']
    exact Nat.mod_eq_of_lt (by omega)
  rw [UInt32.toNat_sub_of_le, hm]
  rw [UInt32.le_iff_toNat_le, hm]
  exact h

theorem toNat_add_ofNat {n : UInt32} {m : ℕ} (hm : m < 2 ^ 32) :
    (n + UInt32.ofNat m).toNat = (n.toNat + m) % 2 ^ 32 := by
  rw [UInt32.toNat_add, UInt32.toNat_ofNat', Nat.mod_eq_of_lt hm]

/-- A thread handed out leaves both the counter and the maps. -/
theorem countsFree_thread (hw : cfg.WellFormed) (ht : t.Invariant cfg) (hs : CountsFree cfg s)
    (hn : t.freeThreadCount = s.freeThreadCount - 1)
    (hst : s.storedThreads = t.storedThreads + 1) : CountsFree cfg t := by
  have hpos : s.freeThreadCount.toNat = t.storedThreads + 1 := hs.1.trans hst
  have hcount : t.freeThreads.toNat = t.storedThreads := by
    change t.freeThreadCount.toNat = _
    rw [hn]
    exact toNat_pred hpos
  exact ⟨hcount, hcount ▸ storedThreads_le hw ht⟩

/-- A thread returned enters both the counter and the maps. -/
theorem countsFree_return (hw : cfg.WellFormed) (ht : t.Invariant cfg) (hs : CountsFree cfg s)
    (hn : t.freeThreadCount = s.freeThreadCount + 1)
    (hst : t.storedThreads = s.storedThreads + 1) : CountsFree cfg t := by
  have hle := storedThreads_le hw ht
  have hlt := hw.length_lt
  have hcount : t.freeThreads.toNat = t.storedThreads := by
    change t.freeThreadCount.toNat = _
    rw [hn, hst]
    exact toNat_succ hs.1 (by omega)
  exact ⟨hcount, hcount ▸ hle⟩

/-- A whole core of `m` threads returned: the counter grows by all of them, the maps only by
those that were not free before. -/
theorem countsFree_core (hw : cfg.WellFormed) (ht : t.Invariant cfg) (hs : CountsFree cfg s)
    {m v : ℕ} (hm : m < 2 ^ 32) (hv : v < 2 ^ 32)
    (hn : t.freeThreadCount = s.freeThreadCount + UInt32.ofNat m)
    (hst : v + t.storedThreads = s.storedThreads + m) : CountsFree cfg t ↔ v = 0 := by
  have hle := storedThreads_le hw ht
  have hlt := hw.length_lt
  have hcnt : s.freeThreadCount.toNat = s.storedThreads := hs.1
  have hcount : t.freeThreads.toNat = (s.storedThreads + m) % 2 ^ 32 := by
    change t.freeThreadCount.toNat = _
    rw [hn, toNat_add_ofNat hm, hcnt]
  constructor
  · rintro ⟨he, _⟩
    omega
  · rintro rfl
    have he : t.freeThreads.toNat = t.storedThreads := by omega
    exact ⟨he, he ▸ hle⟩

section Effects

variable [Inhabited Mask]

theorem freesPartialCore_iff (p : LogicalProcessor Mask) :
    FreesPartialCore s (.freeProcessor p.coreID p.pkgID) ↔
      p.uniqueCoreID ∈ s.partiallyFreeCoreMap := by
  have hkey : (⟨0xffffffff, p.coreID, p.pkgID, 1, default⟩ : LogicalProcessor Mask).uniqueCoreID =
      p.uniqueCoreID := LogicalProcessor.uniqueCoreID_inj.mpr ⟨rfl, rfl⟩
  rw [FreesPartialCore, hkey]

/-- A step from an exact counter keeps it exact, unless it frees a core that is partly free. -/
theorem countsFree_effect (hw : cfg.WellFormed) (h : s.Invariant cfg) (hs : CountsFree cfg s)
    (he : Effect cfg s c r t) : CountsFree cfg t ↔ ¬ FreesPartialCore s c := by
  have ht := invariant_effect hw h he
  have hlt := hw.length_lt
  cases he with
  | noCore _ | noThread _ | threadAlreadyFree _ _ => exact iff_of_true hs (fun hf => hf)
  | coreAlreadyFree p hp hk =>
    rw [freesPartialCore_iff]
    exact iff_of_true hs (h.disjoint _ hk)
  | core k hk =>
    refine iff_of_true ?_ (fun hf => hf)
    have hst := total_erase_of_lookup List.length (h.lookup_free hk)
    have hcnt : s.freeThreadCount.toNat = s.storedThreads := hs.1
    have hcount : (s.freeThreadCount - UInt32.ofNat (cfg.threadsOf k).length).toNat =
        total List.length (s.freeCoreMap.erase k) +
          total List.length s.partiallyFreeCoreMap := by
      rw [storedThreads] at hcnt
      rw [toNat_sub_ofNat (by omega)]
      omega
    exact ⟨hcount, hcount ▸ storedThreads_le hw ht⟩
  | threadOfPartial k l p hp hc hl =>
    refine iff_of_true (countsFree_thread hw ht hs rfl ?_) (fun hf => hf)
    have hst := total_shrink l hl
    rw [List.length_append, List.length_singleton] at hst
    simp only [storedThreads]
    omega
  | threadOfFree k l p hp hc hemp hk hl =>
    refine iff_of_true (countsFree_thread hw ht hs rfl ?_) (fun hf => hf)
    have hst := total_erase_of_lookup List.length (h.lookup_free hk)
    have hsh := total_shrink_empty k l
    rw [hl, List.length_append, List.length_singleton] at hst
    simp only [storedThreads, hemp, hsh, total_empty]
    omega
  | threadReturned p hp hpool l hl hn =>
    refine iff_of_true (countsFree_return hw ht hs rfl ?_) (fun hf => hf)
    have hst := total_insert_value l s.partiallyFreeCoreMap p.uniqueCoreID
    rw [hl, List.length_append, List.length_singleton, ← hl] at hst
    simp only [storedThreads]
    omega
  | coreCompleted p hp hpool hn =>
    refine iff_of_true (countsFree_return hw ht hs rfl ?_) (fun hf => hf)
    have hnf := notMem_free_of_not_pooled hw h hp hpool
    have hst := total_erase_value s.partiallyFreeCoreMap p.uniqueCoreID
    simp only [storedThreads, total_insert_of_notMem List.length hnf]
    omega
  | coreReturned p hp hnf =>
    have hm := length_threadsOf_le cfg p.uniqueCoreID
    have hv := length_partially_lt h hp
    have hst := total_erase_value s.partiallyFreeCoreMap p.uniqueCoreID
    rw [freesPartialCore_iff, countsFree_core hw ht hs (m := (cfg.threadsOf p.uniqueCoreID).length)
      (v := (value p.uniqueCoreID s.partiallyFreeCoreMap).length) (by omega) (by omega) rfl (by
        simp only [storedThreads, total_insert_of_notMem List.length hnf]
        omega)]
    exact length_value_eq_zero_iff h

theorem countsFree_of_guard (hw : cfg.WellFormed) (E : Run (Step cfg) (initial cfg))
    (hg : ∀ n, n < E.length → ¬ FreesPartialCore (E.state n) (E.event n).call) :
    ∀ n, n ≤ E.length → CountsFree cfg (E.state n) := by
  have hrun := Run.invariant_of_guard (I := fun s => s.Invariant cfg ∧ CountsFree cfg s)
    (G := fun s e => ¬ FreesPartialCore s e.call)
    ⟨invariant_initial hw, countsFree_initial hw⟩
    (fun s e t h hg hs => ⟨invariant_effect hw h.1 (step_effect hw h.1 hs),
      (countsFree_effect hw h.1 h.2 (step_effect hw h.1 hs)).mpr hg⟩) E hg
  exact fun n hn => (hrun n hn).2

/-- A run keeps the counter exact exactly when no step frees a core that is partly free. -/
theorem countsFree_run_iff (hw : cfg.WellFormed) (E : Run (Step cfg) (initial cfg)) :
    (∀ n, n ≤ E.length → CountsFree cfg (E.state n)) ↔
      ∀ n, n < E.length → ¬ FreesPartialCore (E.state n) (E.event n).call := by
  constructor
  · intro hall n hn
    have h := invariant_run hw E n (by omega)
    exact (countsFree_effect hw h (hall n (by omega)) (step_effect hw h (E.step n hn))).mp
      (hall (n + 1) hn)
  · exact countsFree_of_guard hw E

end Effects

theorem countsFree_run_oneThreadTaken :
    (∀ n, n ≤ oneThreadTaken.length → CountsFree fourThreads (oneThreadTaken.state n)) ↔
      ∀ n, n < oneThreadTaken.length →
        ¬ FreesPartialCore (oneThreadTaken.state n) (oneThreadTaken.event n).call :=
  countsFree_run_iff fourThreads_wellFormed oneThreadTaken

/-- The client that took one thread of core 1 now frees the whole core. -/
def coreFreedPartly : Run (Step fourThreads) (initial fourThreads) :=
  andThen fourThreads_wellFormed oneThreadTaken (.freeProcessor 1 0)
    ⟨⟨2, 1, 0, 1, ⟨4, 0⟩⟩, by decide, rfl, rfl⟩

/-- The counter says five of the four threads are free. -/
theorem freeThreads_coreFreedPartly : (coreFreedPartly.state 2).freeThreads = 5 := by
  rfl

theorem not_countsFree_run : ¬ ∀ (cfg : ProcessorConfigurationVector GroupAffinity),
    cfg.WellFormed → ∀ E : Run (Step cfg) (initial cfg), ∀ n, n ≤ E.length →
      CountsFree cfg (E.state n) := by
  intro hall
  have h := (hall fourThreads fourThreads_wellFormed coreFreedPartly 2 le_rfl).2
  rw [freeThreads_coreFreedPartly] at h
  exact absurd h (by decide)

end Tailslayer.DynamicThreadManager
