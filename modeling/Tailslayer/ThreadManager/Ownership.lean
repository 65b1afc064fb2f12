import Mathlib.Data.Finset.Lattice.Fold
import Mathlib.Order.Lattice.Nat
import Tailslayer.Foundations.Ledger
import Tailslayer.ThreadManager.Effects

/-! Exclusive ownership: the invariant along every run, and the ledger of held threads. -/
namespace Tailslayer.DynamicThreadManager

open FiniteMap ProcessorConfigurationVector

variable {Mask : Type} {cfg : ProcessorConfigurationVector Mask} {s t : DynamicThreadManager Mask}
  {k : UInt64} {i : UInt32} {l : ThreadIdxList} {b : Begin} {c : Call Mask} {r : Reply Mask}

/-- The state that `initialize(cfg)` leaves. -/
def initial (cfg : ProcessorConfigurationVector Mask) : DynamicThreadManager Mask :=
  ((fresh 0 0).initializeFrom cfg).2

/-- The indeterminate counters of a fresh manager leave no trace. -/
theorem initializeFrom_fresh (cfg : ProcessorConfigurationVector Mask) (threads cores : UInt32) :
    (fresh threads cores).initializeFrom cfg = (true, initial cfg) := rfl

theorem lookup_initial (hw : cfg.WellFormed) (k : UInt64) :
    (initial cfg).freeCoreMap.lookup k =
      if cfg.threadsOf k = [] then none else some (cfg.threadsOf k) := by
  change (mapValues InternalPair.threads (coreTable cfg ∅) ∪ ∅).lookup k = _
  rw [Finmap.union_empty, lookup_mapValues, lookup_coreTable hw]
  split <;> rfl

theorem mem_initial (hw : cfg.WellFormed) : k ∈ (initial cfg).freeCoreMap ↔ cfg.IsCore k := by
  rw [← Finmap.lookup_isSome, lookup_initial hw, ← threadsOf_ne_nil]
  split <;> simp_all

theorem freeThreadCount_initial (hw : cfg.WellFormed) :
    (initial cfg).freeThreadCount.toNat = cfg.proc.length := by
  change cfg.logicalCoreCount.toNat = _
  rw [logicalCoreCount, if_neg hw.nonempty, hw.threadCount]

theorem freeCoreCount_initial (hw : cfg.WellFormed) :
    (initial cfg).freeCoreCount = cfg.physicalCoreCount := by
  change cfg.physicalCoreCount' = _
  rw [physicalCoreCount', if_neg hw.nonempty]

theorem invariant_initial (hw : cfg.WellFormed) : (initial cfg).Invariant cfg where
  map := rfl
  cores := rfl
  free := by
    intro k l hl
    rw [lookup_initial hw] at hl
    split at hl
    · cases hl
    · next hn => exact ⟨threadsOf_ne_nil.mp hn, (Option.some.inj hl).symm⟩
  partially := by
    intro k l hl
    cases hl
  disjoint := fun k _ hk => Finmap.notMem_empty hk
  coreCount := by
    rw [freeCoreCount_initial hw, ← size_coreTable hw]
    change _ = size (mapValues InternalPair.threads (coreTable cfg ∅) ∪ ∅)
    rw [Finmap.union_empty, size_mapValues]

theorem freeCoreCount_lt (h : s.Invariant cfg) (hk : k ∉ s.freeCoreMap) (hc : cfg.IsCore k)
    (hw : cfg.WellFormed) : size s.freeCoreMap < cfg.physicalCoreCount.toNat := by
  rw [← size_coreTable hw]
  apply Finset.card_lt_card
  refine ⟨?_, ?_⟩
  · intro x hx
    rw [Finmap.mem_keys] at hx ⊢
    exact (mem_coreTable hw).mpr (h.isCore_free hx)
  · intro hsub
    have hin := hsub (Finmap.mem_keys.mpr ((mem_coreTable hw).mpr hc))
    exact hk (Finmap.mem_keys.mp hin)

theorem toNat_pred {n : UInt32} {m : ℕ} (h : n.toNat = m + 1) : (n - 1).toNat = m := by
  rw [UInt32.toNat_sub_of_le]
  · rw [h]
    rfl
  · rw [UInt32.le_iff_toNat_le, h]
    change 1 ≤ m + 1
    omega

theorem toNat_succ {n : UInt32} {m : ℕ} (h : n.toNat = m) (hm : m + 1 < 2 ^ 32) :
    (n + 1).toNat = m + 1 := by
  rw [UInt32.toNat_add, h]
  exact Nat.mod_eq_of_lt hm

/-- A popped list is still a proper part of its core, unless it is empty. -/
theorem partially_of_concat (hsub : l ++ [i] ⊆ cfg.threadsOf k) (hnd : (l ++ [i]).Nodup)
    (hne : l ≠ []) :
    l ≠ [] ∧ l.Nodup ∧ l ⊆ cfg.threadsOf k ∧ l.length < (cfg.threadsOf k).length := by
  have hle := (List.subperm_of_subset hnd hsub).length_le
  rw [List.length_append, List.length_singleton] at hle
  exact ⟨hne, (List.nodup_append.mp hnd).1, fun x hx => hsub (by simp [hx]), by omega⟩

/-- A returned thread extends its core's list to a duplicate-free part of the core. -/
theorem partially_append (hw : cfg.WellFormed) (h : s.Invariant cfg) {p : LogicalProcessor Mask}
    (hp : p ∈ cfg.proc) (hpool : ¬ s.Pooled p.globalID) :
    (value p.uniqueCoreID s.partiallyFreeCoreMap ++ [p.globalID]).Nodup ∧
      value p.uniqueCoreID s.partiallyFreeCoreMap ++ [p.globalID] ⊆
        cfg.threadsOf p.uniqueCoreID := by
  have hmem := globalID_mem_threadsOf hp
  cases hl : s.partiallyFreeCoreMap.lookup p.uniqueCoreID with
  | none =>
    have hv : value p.uniqueCoreID s.partiallyFreeCoreMap = [] := by
      rw [value, hl]
      rfl
    simp [hv, hmem]
  | some l =>
    obtain ⟨_, hnd, hsub, _⟩ := h.partially _ l hl
    have hni : p.globalID ∉ l := fun hi => hpool
      ((h.pooled_of_core hw hmem).mpr (Or.inr ⟨l, hl, hi⟩))
    rw [value_of_lookup hl]
    refine ⟨List.nodup_append.mpr ⟨hnd, by simp, ?_⟩, ?_⟩
    · intro a ha b hb hab
      rw [List.mem_singleton] at hb
      exact hni (hb ▸ hab ▸ ha)
    · intro x hx
      rcases List.mem_append.mp hx with hx | hx
      · exact hsub hx
      · rw [List.mem_singleton] at hx
        exact hx ▸ hmem

/-- Moving a core with all its threads to the free map keeps the invariant. -/
theorem invariant_completeCore (hw : cfg.WellFormed) (h : s.Invariant cfg) (hc : cfg.IsCore k)
    (hk : k ∉ s.freeCoreMap) (n : UInt32) :
    Invariant cfg { s with
      partiallyFreeCoreMap := s.partiallyFreeCoreMap.erase k
      freeCoreMap := s.freeCoreMap.insert k (cfg.threadsOf k)
      freeThreadCount := n
      freeCoreCount := s.freeCoreCount + 1 } := by
  refine ⟨h.map, h.cores, ?_, ?_, ?_, ?_⟩
  · intro a l hl
    rw [lookup_insert_ite] at hl
    split at hl
    · next ha =>
      cases hl
      subst a
      exact ⟨hc, rfl⟩
    · exact h.free a l hl
  · intro a l hl
    rw [lookup_erase_ite] at hl
    split at hl
    · cases hl
    · exact h.partially a l hl
  · intro a ha hin
    obtain ⟨hne, hin⟩ := Finmap.mem_erase.mp hin
    rcases Finmap.mem_insert.mp ha with rfl | ha
    · exact hne rfl
    · exact h.disjoint a ha hin
  · have hlt := freeCoreCount_lt h hk hc hw
    have hmax := cfg.physicalCoreCount.toNat_lt
    change _ = size (s.freeCoreMap.insert k (cfg.threadsOf k))
    rw [size_insert_of_notMem hk]
    exact toNat_succ h.coreCount (by omega)

theorem invariant_core (h : s.Invariant cfg) (hk : k ∈ s.freeCoreMap) (n : UInt32) :
    Invariant cfg { s with
      freeCoreMap := s.freeCoreMap.erase k
      freeThreadCount := n
      freeCoreCount := s.freeCoreCount - 1 } := by
  refine ⟨h.map, h.cores, ?_, h.partially, ?_, ?_⟩
  · intro a l hl
    rw [lookup_erase_ite] at hl
    split at hl
    · cases hl
    · exact h.free a l hl
  · intro a ha
    exact h.disjoint a (Finmap.mem_erase.mp ha).2
  · have hs := size_erase_of_mem hk
    exact toNat_pred (h.coreCount.trans hs.symm)

theorem invariant_threadOfPartial (h : s.Invariant cfg)
    (hl : s.partiallyFreeCoreMap.lookup k = some (l ++ [i])) (n : UInt32) :
    Invariant cfg { s with
      partiallyFreeCoreMap := shrink k l s.partiallyFreeCoreMap
      freeThreadCount := n } := by
  have hpart := h.partially k _ hl
  refine ⟨h.map, h.cores, h.free, ?_, ?_, h.coreCount⟩
  · intro a l' hl'
    rw [lookup_shrink] at hl'
    split at hl'
    · split at hl'
      · cases hl'
      · next ha hne =>
        cases hl'
        subst a
        exact partially_of_concat hpart.2.2.1 hpart.2.1 hne
    · exact h.partially a l' hl'
  · intro a ha hin
    have hk : k ∉ s.freeCoreMap :=
      fun hf => h.disjoint k hf (Finmap.mem_of_lookup_eq_some hl)
    rw [← Finmap.lookup_isSome, lookup_shrink] at hin
    split at hin
    · next hak => exact hk (hak ▸ ha)
    · exact h.disjoint a ha (Finmap.lookup_isSome.mp hin)

theorem invariant_threadOfFree (hw : cfg.WellFormed) (h : s.Invariant cfg)
    (hemp : s.partiallyFreeCoreMap = ∅) (hk : k ∈ s.freeCoreMap)
    (hl : cfg.threadsOf k = l ++ [i]) (n : UInt32) :
    Invariant cfg { s with
      partiallyFreeCoreMap := shrink k l s.partiallyFreeCoreMap
      freeCoreMap := s.freeCoreMap.erase k
      freeThreadCount := n
      freeCoreCount := s.freeCoreCount - 1 } := by
  have hc := invariant_core h hk n
  refine ⟨h.map, h.cores, hc.free, ?_, ?_, hc.coreCount⟩
  · intro a l' hl'
    rw [lookup_shrink, hemp] at hl'
    split at hl'
    · split at hl'
      · cases hl'
      · next ha hne =>
        cases hl'
        subst a
        have hnd := hw.nodup_threadsOf k
        rw [hl] at hnd
        exact partially_of_concat (by rw [hl]; exact List.Subset.refl _) hnd hne
    · cases hl'
  · intro a ha hin
    rw [← Finmap.lookup_isSome, lookup_shrink, hemp] at hin
    split at hin
    · next hak => exact (Finmap.mem_erase.mp ha).1 hak
    · cases hin

theorem invariant_threadReturned (hw : cfg.WellFormed) (h : s.Invariant cfg)
    {p : LogicalProcessor Mask} (hp : p ∈ cfg.proc) (hpool : ¬ s.Pooled p.globalID)
    (hnf : p.uniqueCoreID ∉ s.freeCoreMap)
    (hl : l = value p.uniqueCoreID s.partiallyFreeCoreMap ++ [p.globalID])
    (hn : l.length < (cfg.threadsOf p.uniqueCoreID).length) (n : UInt32) :
    Invariant cfg { s with
      partiallyFreeCoreMap := s.partiallyFreeCoreMap.insert p.uniqueCoreID l
      freeThreadCount := n } := by
  refine ⟨h.map, h.cores, h.free, ?_, ?_, h.coreCount⟩
  · intro a l' hl'
    rw [lookup_insert_ite] at hl'
    split at hl'
    · next ha =>
      cases hl'
      subst a
      obtain ⟨hnd, hsub⟩ := partially_append hw h hp hpool
      exact ⟨by simp [hl], hl ▸ hnd, hl ▸ hsub, hn⟩
    · exact h.partially a l' hl'
  · intro a ha hin
    rcases Finmap.mem_insert.mp hin with rfl | hin
    · exact hnf ha
    · exact h.disjoint a ha hin

/-- A core with a thread that is out is not free. -/
theorem notMem_free_of_not_pooled (hw : cfg.WellFormed) (h : s.Invariant cfg)
    {p : LogicalProcessor Mask} (hp : p ∈ cfg.proc) (hpool : ¬ s.Pooled p.globalID) :
    p.uniqueCoreID ∉ s.freeCoreMap := by
  intro hf
  exact hpool ((h.mem_free_iff hw ⟨p, hp, rfl⟩).mp hf _ (globalID_mem_threadsOf hp))

theorem invariant_effect [Inhabited Mask] (hw : cfg.WellFormed) (h : s.Invariant cfg)
    (he : Effect cfg s c r t) : t.Invariant cfg := by
  cases he with
  | noCore _ | noThread _ | threadAlreadyFree _ _ | coreAlreadyFree _ _ _ => exact h
  | core k hk => exact invariant_core h hk _
  | threadOfPartial k l p hp hc hl => exact invariant_threadOfPartial h hl _
  | threadOfFree k l p hp hc hemp hk hl => exact invariant_threadOfFree hw h hemp hk hl _
  | threadReturned p hp hpool l hl hn =>
    have hnf := notMem_free_of_not_pooled hw h hp hpool
    exact invariant_threadReturned hw h hp hpool hnf hl hn _
  | coreCompleted p hp hpool hn =>
    have hnf := notMem_free_of_not_pooled hw h hp hpool
    exact invariant_completeCore hw h ⟨p, hp, rfl⟩ hnf _
  | coreReturned p hp hnf => exact invariant_completeCore hw h ⟨p, hp, rfl⟩ hnf _

/-! The ledger: what a call hands out and what it takes back. -/

/-- The processors a reply hands out; the sentinel of a failed allocation is none. -/
def Reply.handedOut [Inhabited Mask] : Reply Mask → List (LogicalProcessor Mask)
  | .processors _ out => out
  | .thread p =>
    if p.globalID = (LogicalProcessor.sentinel : LogicalProcessor Mask).globalID then [] else [p]
  | .released => []

/-- The thread indices a call gives back. -/
def Call.returned [Inhabited Mask] (cfg : ProcessorConfigurationVector Mask) :
    Call Mask → ThreadIdxList
  | .allocateProcessor => []
  | .allocateThread => []
  | .freeThread id => [id.globalID]
  | .freeProcessor coreID packageID =>
    cfg.threadsOf (⟨0xffffffff, coreID, packageID, 1, default⟩ :
      LogicalProcessor Mask).uniqueCoreID

/-- The movement of thread indices that a call with its reply amounts to. -/
def movement [Inhabited Mask] (cfg : ProcessorConfigurationVector Mask) (c : Call Mask)
    (r : Reply Mask) : Ledger.Movement UInt32 where
  out := {i | i ∈ r.handedOut.map LogicalProcessor.globalID}
  back := {i | i ∈ c.returned cfg}

/-- The set of free thread indices. -/
def pool (s : DynamicThreadManager Mask) : Set UInt32 := {i | s.Pooled i}

/-- All thread indices of a configuration. -/
def allThreads (cfg : ProcessorConfigurationVector Mask) : Set UInt32 :=
  {i | ∃ p ∈ cfg.proc, p.globalID = i}

/-- The free threads of one core, wherever they are stored. -/
def freeOf (s : DynamicThreadManager Mask) (k : UInt64) : ThreadIdxList :=
  (s.freeCoreMap.lookup k).getD ((s.partiallyFreeCoreMap.lookup k).getD [])

theorem freeOf_of_free (h : s.Invariant cfg) (hk : k ∈ s.freeCoreMap) :
    s.freeOf k = cfg.threadsOf k := by
  simp [freeOf, h.lookup_free hk]

theorem freeOf_of_notFree (hk : k ∉ s.freeCoreMap) :
    s.freeOf k = value k s.partiallyFreeCoreMap := by
  simp [freeOf, Finmap.lookup_eq_none.mpr hk, value]
  rfl

theorem freeOf_of_partially (h : s.Invariant cfg) (hl : s.partiallyFreeCoreMap.lookup k = some l) :
    s.freeOf k = l := by
  rw [freeOf_of_notFree, value_of_lookup hl]
  exact fun hk => h.disjoint k hk (Finmap.mem_of_lookup_eq_some hl)

theorem freeOf_subset (h : s.Invariant cfg) (k : UInt64) : s.freeOf k ⊆ cfg.threadsOf k := by
  cases hf : s.freeCoreMap.lookup k with
  | some l =>
    rw [freeOf_of_free h (Finmap.mem_of_lookup_eq_some hf)]
    exact List.Subset.refl _
  | none =>
    cases hp : s.partiallyFreeCoreMap.lookup k with
    | some l =>
      rw [freeOf_of_partially h hp]
      exact (h.partially k l hp).2.2.1
    | none => simp [freeOf, hf, hp]

theorem pooled_iff_freeOf (h : s.Invariant cfg) : s.Pooled i ↔ ∃ k, i ∈ s.freeOf k := by
  constructor
  · rintro ⟨k, l, hl | hl, hi⟩
    · exact ⟨k, by simpa [freeOf, hl] using hi⟩
    · exact ⟨k, by rwa [freeOf_of_partially h hl]⟩
  · rintro ⟨k, hi⟩
    cases hf : s.freeCoreMap.lookup k with
    | some l => exact ⟨k, l, Or.inl hf, by simpa [freeOf, hf] using hi⟩
    | none =>
      cases hp : s.partiallyFreeCoreMap.lookup k with
      | some l => exact ⟨k, l, Or.inr hp, by simpa [freeOf, hf, hp] using hi⟩
      | none => simp [freeOf, hf, hp] at hi

/-- A step that touches one core only moves the pool as it moves that core's list. -/
theorem moves_of_core (hw : cfg.WellFormed) (h : s.Invariant cfg) (ht : t.Invariant cfg)
    {m : Ledger.Movement UInt32} (k : UInt64) (hne : ∀ a, a ≠ k → t.freeOf a = s.freeOf a)
    (hout : ∀ i ∈ m.out, i ∈ s.freeOf k)
    (hk : ∀ i, i ∈ t.freeOf k ↔ i ∈ s.freeOf k ∧ i ∉ m.out ∨ i ∈ m.back) :
    Ledger.Moves m s.pool t.pool := by
  refine ⟨fun i hi => (pooled_iff_freeOf h).mpr ⟨k, hout i hi⟩, ?_⟩
  ext i
  simp only [pool, Set.mem_union, Set.mem_sdiff, Set.mem_ofPred_eq, pooled_iff_freeOf h,
    pooled_iff_freeOf ht]
  constructor
  · rintro ⟨a, ha⟩
    by_cases hak : a = k
    · subst a
      rcases (hk i).mp ha with ⟨hi, hno⟩ | hb
      · exact Or.inl ⟨⟨k, hi⟩, hno⟩
      · exact Or.inr hb
    · rw [hne a hak] at ha
      refine Or.inl ⟨⟨a, ha⟩, fun ho => hak ?_⟩
      exact hw.core_unique (freeOf_subset h a ha) (freeOf_subset h k (hout i ho))
  · rintro (⟨⟨a, ha⟩, hno⟩ | hb)
    · by_cases hak : a = k
      · subst a
        exact ⟨k, (hk i).mpr (Or.inl ⟨ha, hno⟩)⟩
      · exact ⟨a, by rwa [hne a hak]⟩
    · exact ⟨k, (hk i).mpr (Or.inr hb)⟩

/-- A call that changes nothing and returns only free threads moves nothing. -/
theorem moves_refl {m : Ledger.Movement UInt32} (hout : ∀ i, i ∉ m.out)
    (hback : ∀ i ∈ m.back, s.Pooled i) : Ledger.Moves m s.pool s.pool := by
  refine ⟨fun i hi => (hout i hi).elim, ?_⟩
  ext i
  have ho := hout i
  have hb := hback i
  simp only [pool, Set.mem_union, Set.mem_sdiff, Set.mem_ofPred_eq]
  tauto

theorem mem_concat_nodup {x y : UInt32} (hnd : (l ++ [y]).Nodup) :
    x ∈ l ↔ x ∈ l ++ [y] ∧ x ≠ y := by
  constructor
  · intro hx
    refine ⟨by simp [hx], ?_⟩
    rintro rfl
    exact (List.nodup_append.mp hnd).2.2 x hx x (by simp) rfl
  · rintro ⟨hx, hne⟩
    simpa [hne] using hx

section Ledger

variable [Inhabited Mask]

theorem handedOut_thread (hw : cfg.WellFormed) {p : LogicalProcessor Mask} (hp : p ∈ cfg.proc) :
    (Reply.thread p).handedOut = [p] := by
  simp [Reply.handedOut, hw.ne_sentinel hp]

theorem returned_freeProcessor (cfg : ProcessorConfigurationVector Mask)
    (p : LogicalProcessor Mask) :
    (Call.freeProcessor p.coreID p.pkgID).returned cfg = cfg.threadsOf p.uniqueCoreID := by
  have hk : (⟨0xffffffff, p.coreID, p.pkgID, 1, default⟩ :
      LogicalProcessor Mask).uniqueCoreID = p.uniqueCoreID :=
    LogicalProcessor.uniqueCoreID_inj.mpr ⟨rfl, rfl⟩
  simp [Call.returned, hk]

omit [Inhabited Mask] in
theorem pool_initial (hw : cfg.WellFormed) : (initial cfg).pool = allThreads cfg := by
  ext i
  constructor
  · intro hi
    exact (invariant_initial hw).mem_proc_of_pooled hi
  · rintro ⟨p, hp, rfl⟩
    exact ((invariant_initial hw).pooled_of_core hw (globalID_mem_threadsOf hp)).mpr
      (Or.inl ((mem_initial hw).mpr ⟨p, hp, rfl⟩))

/-- Taking the last thread off a core's list moves exactly that thread. -/
theorem moves_thread (hw : cfg.WellFormed) (h : s.Invariant cfg) (ht : t.Invariant cfg)
    {p : LogicalProcessor Mask} (hp : p ∈ cfg.proc) (k : UInt64) (l : ThreadIdxList)
    (hne : ∀ a, a ≠ k → t.freeOf a = s.freeOf a) (hs : s.freeOf k = l ++ [p.globalID])
    (htk : t.freeOf k = l) (hnd : (l ++ [p.globalID]).Nodup) :
    Ledger.Moves (movement cfg .allocateThread (.thread p)) s.pool t.pool := by
  refine moves_of_core hw h ht k hne ?_ ?_
  · intro i hi
    rw [movement, handedOut_thread hw hp] at hi
    rw [hs]
    simp_all
  · intro i
    rw [hs, htk, movement, handedOut_thread hw hp, mem_concat_nodup hnd]
    simp [Call.returned]

/-- Every call moves the pool of free threads by exactly what it hands out and takes back. -/
theorem moves_effect (hw : cfg.WellFormed) (h : s.Invariant cfg) (he : Effect cfg s c r t) :
    Ledger.Moves (movement cfg c r) s.pool t.pool := by
  have ht := invariant_effect hw h he
  cases he with
  | noCore hemp =>
    exact moves_refl (by simp [movement, Reply.handedOut]) (by simp [movement, Call.returned])
  | noThread hemp =>
    exact moves_refl (by simp [movement, Reply.handedOut]) (by simp [movement, Call.returned])
  | threadAlreadyFree p hp =>
    exact moves_refl (by simp [movement, Reply.handedOut])
      (by simpa [movement, Call.returned] using hp)
  | coreAlreadyFree p hp hk =>
    refine moves_refl (by simp [movement, Reply.handedOut]) ?_
    intro i hi
    rw [movement, returned_freeProcessor] at hi
    exact (h.mem_free_iff hw ⟨p, hp, rfl⟩).mp hk i hi
  | core k hk =>
    have hf := freeOf_of_free h hk
    refine moves_of_core hw h ht k ?_ ?_ ?_
    · intro a ha
      simp [freeOf, ha]
    · intro i hi
      rw [hf]
      exact hi
    · intro i
      have hn : Finmap.lookup k s.partiallyFreeCoreMap = none :=
        Finmap.lookup_eq_none.mpr (h.disjoint k hk)
      simp [freeOf, h.lookup_free hk, hn, movement, Reply.handedOut, Call.returned, threadsOf]
  | threadOfPartial k l p hp hc hl =>
    have hk : k ∉ s.freeCoreMap :=
      fun hk => h.disjoint k hk (Finmap.mem_of_lookup_eq_some hl)
    refine moves_thread hw h ht hp k l ?_ (freeOf_of_partially h hl) ?_ (h.partially k _ hl).2.1
    · intro a ha
      simp [freeOf, lookup_shrink, ha]
    · simp only [freeOf, lookup_shrink, Finmap.lookup_eq_none.mpr hk, if_true, Option.getD_none]
      split <;> simp_all
  | threadOfFree k l p hp hc hemp hk hl =>
    refine moves_thread hw h ht hp k l ?_ (by rw [freeOf_of_free h hk, hl]) ?_ (by
      rw [← hl]; exact hw.nodup_threadsOf k)
    · intro a ha
      simp [freeOf, lookup_shrink, ha]
    · simp only [freeOf, lookup_shrink, Finmap.lookup_erase, if_true, Option.getD_none]
      split <;> simp_all
  | threadReturned p hp hpool l hl hn =>
    have hk := notMem_free_of_not_pooled hw h hp hpool
    refine moves_of_core hw h ht p.uniqueCoreID ?_ (by simp [movement, Reply.handedOut]) ?_
    · intro a ha
      simp [freeOf, ha]
    · intro i
      rw [freeOf_of_notFree hk]
      simp [freeOf, Finmap.lookup_eq_none.mpr hk, movement, Reply.handedOut, Call.returned, hl]
  | coreCompleted p hp hpool hn =>
    have hk := notMem_free_of_not_pooled hw h hp hpool
    refine moves_of_core hw h ht p.uniqueCoreID ?_ (by simp [movement, Reply.handedOut]) ?_
    · intro a ha
      simp [freeOf, ha]
    · intro i
      obtain ⟨hnd, hsub⟩ := partially_append hw h hp hpool
      -- a duplicate-free part of the core that is as long as the core is all of it
      have hperm := (List.subperm_of_subset hnd hsub).perm_of_length_le (by
        rw [List.length_append, List.length_singleton, hn])
      rw [freeOf_of_notFree hk]
      simp [freeOf, movement, Reply.handedOut, Call.returned, ← hperm.mem_iff]
  | coreReturned p hp hk =>
    refine moves_of_core hw h ht p.uniqueCoreID ?_ (by simp [movement, Reply.handedOut]) ?_
    · intro a ha
      simp [freeOf, ha]
    · intro i
      have hsub := freeOf_subset h p.uniqueCoreID
      rw [movement, returned_freeProcessor]
      simp only [freeOf, Finmap.lookup_insert, Option.getD_some, Reply.handedOut, List.map_nil,
        List.not_mem_nil, Set.mem_ofPred_eq, not_false_eq_true, and_true]
      exact ⟨Or.inr, fun hi => hi.elim (fun hi => hsub hi) id⟩

/-! Runs of a well-behaved client. -/

def Step (cfg : ProcessorConfigurationVector Mask) (s : DynamicThreadManager Mask)
    (e : Event Mask) (t : DynamicThreadManager Mask) : Prop :=
  Allowed cfg e.call ∧ s.call e.order e.call = .ok (e.reply, t)

theorem step_effect (hw : cfg.WellFormed) (h : s.Invariant cfg) {e : Event Mask}
    (hs : Step cfg s e t) : Effect cfg s e.call e.reply t := by
  obtain ⟨r, u, hr, he⟩ := call_effect hw h e.order e.call hs.1
  rw [hs.2] at hr
  cases hr
  exact he

theorem invariant_run (hw : cfg.WellFormed) (E : Run (Step cfg) (initial cfg)) :
    ∀ n, n ≤ E.length → (E.state n).Invariant cfg :=
  Run.invariant (invariant_initial hw)
    (fun _ _ _ h hs => invariant_effect hw h (step_effect hw h hs)) E

/-- The movements of a run. -/
def movements (E : Run (Step cfg) (initial cfg)) (n : ℕ) : Ledger.Movement UInt32 :=
  movement cfg (E.event n).call (E.event n).reply

/-- The threads handed out and not returned in the first `n` steps of a run. -/
def held (E : Run (Step cfg) (initial cfg)) : ℕ → Set UInt32 := Ledger.held (movements E)

theorem moves_run (hw : cfg.WellFormed) (E : Run (Step cfg) (initial cfg)) (n : ℕ)
    (hn : n < E.length) :
    Ledger.Moves (movements E n) (E.state n).pool (E.state (n + 1)).pool := by
  have h := invariant_run hw E n (by omega)
  exact moves_effect hw h (step_effect hw h (E.step n hn))

theorem returned_subset (hc : Allowed cfg c) : {i | i ∈ c.returned cfg} ⊆ allThreads cfg := by
  intro i hi
  cases c with
  | allocateProcessor => cases hi
  | allocateThread => cases hi
  | freeThread p =>
    rw [Set.mem_ofPred_eq, Call.returned, List.mem_singleton] at hi
    exact ⟨p, hc, hi.symm⟩
  | freeProcessor coreID packageID =>
    obtain ⟨p, hp, _, he⟩ := mem_threadsOf.mp hi
    exact ⟨p, hp, he⟩

/-- The free threads are exactly those that no client holds. -/
theorem pool_run (hw : cfg.WellFormed) (E : Run (Step cfg) (initial cfg)) (n : ℕ)
    (hn : n ≤ E.length) : (E.state n).pool = allThreads cfg \ held E n := by
  have h0 : (E.state 0).pool = allThreads cfg := by rw [E.initial, pool_initial hw]
  exact Ledger.held_not_free (fun n => (E.state n).pool) h0 (moves_run hw E)
    (fun n hn => returned_subset (E.step n hn).1) n hn

/-- Exclusive ownership in one state, given what its clients hold. -/
structure ExclusiveOwnership (cfg : ProcessorConfigurationVector Mask) (held : Set UInt32)
    (s : DynamicThreadManager Mask) : Prop where
  disjoint : ∀ k, k ∈ s.freeCoreMap → k ∉ s.partiallyFreeCoreMap
  free : ∀ k l, s.freeCoreMap.lookup k = some l → cfg.IsCore k ∧ l = cfg.threadsOf k
  partially : ∀ k l, s.partiallyFreeCoreMap.lookup k = some l →
    l ≠ [] ∧ l.Nodup ∧ l.toFinset ⊂ (cfg.threadsOf k).toFinset
  coreCount : s.freeCoreCount.toNat = size s.freeCoreMap
  noFault : ∀ b c, Allowed cfg c → ∃ r t, s.call b c = .ok (r, t)
  handsOut : ∀ b c r t, Allowed cfg c → s.call b c = .ok (r, t) →
    (r.handedOut.map LogicalProcessor.globalID).Nodup ∧
    ∀ p ∈ r.handedOut, p ∈ cfg.proc ∧ p.globalID ∉ held ∧ ¬ t.Pooled p.globalID

omit [Inhabited Mask] in
theorem toFinset_ssubset (hw : cfg.WellFormed) (hnd : l.Nodup) (hsub : l ⊆ cfg.threadsOf k)
    (hlt : l.length < (cfg.threadsOf k).length) :
    l.toFinset ⊂ (cfg.threadsOf k).toFinset := by
  apply Finset.ssubset_iff_subset_ne.mpr
  refine ⟨?_, ?_⟩
  · intro x hx
    rw [List.mem_toFinset] at hx ⊢
    exact hsub hx
  · intro he
    have hc := congrArg Finset.card he
    rw [List.toFinset_card_of_nodup hnd,
      List.toFinset_card_of_nodup (hw.nodup_threadsOf k)] at hc
    omega

/-- What a call hands out are distinct processors of the configuration, and it takes none back. -/
theorem handedOut_effect (hw : cfg.WellFormed) (he : Effect cfg s c r t) :
    (r.handedOut.map LogicalProcessor.globalID).Nodup ∧
      ∀ p ∈ r.handedOut, p ∈ cfg.proc ∧ c.returned cfg = [] := by
  cases he with
  | core k hk =>
    exact ⟨hw.nodup_threadsOf k, fun p hp => ⟨(mem_coreProcs.mp hp).1, rfl⟩⟩
  | threadOfPartial k l p hp | threadOfFree k l p hp =>
    rw [handedOut_thread hw hp]
    refine ⟨by simp, ?_⟩
    intro q hq
    rw [List.mem_singleton] at hq
    exact ⟨hq ▸ hp, rfl⟩
  | _ => simp [Reply.handedOut]

theorem exclusive_ownership (hw : cfg.WellFormed) (E : Run (Step cfg) (initial cfg)) {n : ℕ}
    (hn : n ≤ E.length) : ExclusiveOwnership cfg (held E n) (E.state n) := by
  have h := invariant_run hw E n hn
  refine ⟨h.disjoint, h.free, ?_, h.coreCount, ?_, ?_⟩
  · intro k l hl
    obtain ⟨hne, hnd, hsub, hlt⟩ := h.partially k l hl
    exact ⟨hne, hnd, toFinset_ssubset hw hnd hsub hlt⟩
  · intro b c hc
    obtain ⟨r, t, hr, _⟩ := call_effect hw h b c hc
    exact ⟨r, t, hr⟩
  · intro b c r t hc hr
    have he := step_effect hw h (e := ⟨b, c, r⟩) ⟨hc, hr⟩
    obtain ⟨hnd, hmem⟩ := handedOut_effect hw he
    obtain ⟨hout, ht⟩ := moves_effect hw h he
    refine ⟨hnd, fun p hp => ⟨(hmem p hp).1, ?_⟩⟩
    have hi : p.globalID ∈ (movement cfg c r).out := List.mem_map_of_mem hp
    have hpool := hout hi
    rw [pool_run hw E n hn] at hpool
    refine ⟨hpool.2, ?_⟩
    intro hin
    have hin' : p.globalID ∈ t.pool := hin
    rw [ht] at hin'
    rcases hin' with hd | hb
    · exact hd.2 hi
    · have hb' : p.globalID ∈ c.returned cfg := hb
      simp [(hmem p hp).2] at hb'

end Ledger

/-! A machine with two cores of two threads each, and a client that takes one thread. -/

/-- `begin()` as the entry with the largest key. -/
def Begin.largest : Begin where
  pick m := UInt64.ofNat (m.keys.sup UInt64.toNat)
  pick_mem m h := by
    obtain ⟨k, hk⟩ := exists_mem_of_ne_empty h
    obtain ⟨x, hx, he⟩ :=
      Finset.exists_mem_eq_sup m.keys ⟨k, Finmap.mem_keys.mpr hk⟩ UInt64.toNat
    rw [he, UInt64.ofNat_toNat]
    exact Finmap.mem_keys.mp hx

def fourThreads : ProcessorConfigurationVector GroupAffinity where
  proc := (List.range 4).map (fun i =>
    ⟨UInt32.ofNat i, UInt32.ofNat (i / 2), 0, 1, ⟨1 <<< UInt64.ofNat i, 0⟩⟩)
  threadCount := 4
  physicalCoreCount := 2
  corePackageCount := 1

theorem fourThreads_wellFormed : fourThreads.WellFormed where
  nonempty := by decide
  globalID := by decide
  threadCount := rfl
  physicalCoreCount := by decide

/-- The reply and the state of a call that does not fault. -/
def outcome [Inhabited Mask] (s : DynamicThreadManager Mask) (c : Call Mask) :
    Reply Mask × DynamicThreadManager Mask :=
  match s.call Begin.largest c with
  | .ok rt => rt
  | .error _ => (.released, s)

theorem call_outcome [Inhabited Mask] (hw : cfg.WellFormed) (h : s.Invariant cfg)
    (hc : Allowed cfg c) : s.call Begin.largest c = .ok (outcome s c) := by
  obtain ⟨r, t, hr, _⟩ := call_effect hw h Begin.largest c hc
  rw [outcome, hr]

/-- A run continued by one more allowed call. -/
def andThen [Inhabited Mask] (hw : cfg.WellFormed) (E : Run (Step cfg) (initial cfg))
    (c : Call Mask) (hc : Allowed cfg c) : Run (Step cfg) (initial cfg) :=
  E.extend ⟨Begin.largest, c, (outcome (E.state E.length) c).1⟩ (outcome (E.state E.length) c).2
    ⟨hc, call_outcome hw (invariant_run hw E _ le_rfl) hc⟩

def oneThreadTaken : Run (Step fourThreads) (initial fourThreads) :=
  andThen fourThreads_wellFormed (Run.start ⟨Begin.largest, .allocateThread, .released⟩ _)
    .allocateThread trivial

theorem exclusive_ownership_oneThreadTaken :
    ExclusiveOwnership fourThreads (held oneThreadTaken 1) (oneThreadTaken.state 1) :=
  exclusive_ownership fourThreads_wellFormed oneThreadTaken le_rfl

end Tailslayer.DynamicThreadManager
