import Mathlib.Data.Set.Card
import Tailslayer.Foundations.Outcome
import Tailslayer.ThreadManager.Counters

/-! The free threads determine what a client can observe, so the order of releases does not. -/
namespace Tailslayer.DynamicThreadManager

open FiniteMap ProcessorConfigurationVector

variable {Mask : Type} {cfg : ProcessorConfigurationVector Mask} {s t : DynamicThreadManager Mask}
  {k : UInt64} {i : UInt32} {p : LogicalProcessor Mask} {ps qs : List (LogicalProcessor Mask)}

/-- The free threads per core, the state of each core, and the two counters. -/
structure SameFree (s t : DynamicThreadManager Mask) : Prop where
  indices : ∀ k i, i ∈ s.freeOf k ↔ i ∈ t.freeOf k
  free : ∀ k, k ∈ s.freeCoreMap ↔ k ∈ t.freeCoreMap
  partially : ∀ k, k ∈ s.partiallyFreeCoreMap ↔ k ∈ t.partiallyFreeCoreMap
  freeThreads : s.freeThreads = t.freeThreads
  freeCores : s.freeCores = t.freeCores

theorem mem_freeOf_iff (hw : cfg.WellFormed) (h : s.Invariant cfg) :
    i ∈ s.freeOf k ↔ i ∈ cfg.threadsOf k ∧ i ∈ s.pool := by
  constructor
  · intro hi
    exact ⟨freeOf_subset h k hi, (pooled_iff_freeOf h).mpr ⟨k, hi⟩⟩
  · rintro ⟨hk, hi⟩
    obtain ⟨k', hi'⟩ := (pooled_iff_freeOf h).mp hi
    obtain rfl := hw.core_unique hk (freeOf_subset h k' hi')
    exact hi'

theorem mem_freeCoreMap_iff (hw : cfg.WellFormed) (h : s.Invariant cfg) :
    k ∈ s.freeCoreMap ↔ cfg.IsCore k ∧ ∀ i ∈ cfg.threadsOf k, i ∈ s.pool := by
  constructor
  · intro hk
    exact ⟨h.isCore_free hk, (h.mem_free_iff hw (h.isCore_free hk)).mp hk⟩
  · rintro ⟨hk, hall⟩
    exact (h.mem_free_iff hw hk).mpr hall

theorem mem_partially_iff (h : s.Invariant cfg) :
    k ∈ s.partiallyFreeCoreMap ↔ k ∉ s.freeCoreMap ∧ s.freeOf k ≠ [] := by
  constructor
  · intro hk
    obtain ⟨l, hl⟩ := Finmap.mem_iff.mp hk
    refine ⟨fun hf => h.disjoint k hf hk, ?_⟩
    rw [freeOf_of_partially h hl]
    exact (h.partially k l hl).1
  · rintro ⟨hf, hne⟩
    by_contra hk
    rw [freeOf_of_notFree hf, value, Finmap.lookup_eq_none.mpr hk] at hne
    exact hne rfl

theorem nodup_freeOf (hw : cfg.WellFormed) (h : s.Invariant cfg) (k : UInt64) :
    (s.freeOf k).Nodup := by
  by_cases hf : k ∈ s.freeCoreMap
  · rw [freeOf_of_free h hf]
    exact hw.nodup_threadsOf k
  · by_cases hk : k ∈ s.partiallyFreeCoreMap
    · obtain ⟨l, hl⟩ := Finmap.mem_iff.mp hk
      rw [freeOf_of_partially h hl]
      exact (h.partially k l hl).2.1
    · have hnil : s.freeOf k = [] := by
        by_contra hne
        exact hk ((mem_partially_iff h).mpr ⟨hf, hne⟩)
      rw [hnil]
      exact List.nodup_nil

/-- Only cores with a free thread store any. -/
theorem storedThreads_eq_sum (h : s.Invariant cfg) : s.storedThreads =
    ∑ k ∈ s.freeCoreMap.keys ∪ s.partiallyFreeCoreMap.keys, (s.freeOf k).length := by
  rw [storedThreads, total_eq_sum, total_eq_sum, Finset.sum_union h.disjoint_keys]
  congr 1
  · apply Finset.sum_congr rfl
    intro k hk
    have hf := Finmap.mem_keys.mp hk
    rw [freeOf_of_free h hf, value_of_lookup (h.lookup_free hf)]
  · apply Finset.sum_congr rfl
    intro k hk
    have hl := lookup_of_mem (Finmap.mem_keys.mp hk)
    rw [freeOf_of_partially h hl]

/-- No thread is stored twice. -/
theorem storedThreads_eq_ncard (hw : cfg.WellFormed) (h : s.Invariant cfg) :
    s.storedThreads = s.pool.ncard := by
  have hpool : s.pool = ((s.freeCoreMap.keys ∪ s.partiallyFreeCoreMap.keys).biUnion
      (fun k => (s.freeOf k).toFinset) : Finset UInt32) := by
    ext i
    rw [Finset.mem_coe, Finset.mem_biUnion]
    constructor
    · intro hi
      obtain ⟨k, hk⟩ := (pooled_iff_freeOf h).mp hi
      refine ⟨k, ?_, List.mem_toFinset.mpr hk⟩
      rw [Finset.mem_union, Finmap.mem_keys, Finmap.mem_keys]
      by_cases hf : k ∈ s.freeCoreMap
      · exact Or.inl hf
      · exact Or.inr ((mem_partially_iff h).mpr ⟨hf, List.ne_nil_of_mem hk⟩)
    · rintro ⟨k, -, hk⟩
      exact (pooled_iff_freeOf h).mpr ⟨k, List.mem_toFinset.mp hk⟩
  rw [storedThreads_eq_sum h, hpool, Set.ncard_coe_finset, Finset.card_biUnion]
  · apply Finset.sum_congr rfl
    intro k _
    exact (List.toFinset_card_of_nodup (nodup_freeOf hw h k)).symm
  · intro k _ k' _ hne
    rw [Function.onFun, Finset.disjoint_left]
    intro i hi hi'
    exact hne (hw.core_unique (freeOf_subset h k (List.mem_toFinset.mp hi))
      (freeOf_subset h k' (List.mem_toFinset.mp hi')))

/-- States with the same free threads look the same. -/
theorem sameFree_of_pool (hw : cfg.WellFormed) (h : s.Invariant cfg) (h' : t.Invariant cfg)
    (hc : CountsFree cfg s) (hc' : CountsFree cfg t) (hpool : s.pool = t.pool) :
    SameFree s t := by
  have hindices : ∀ k i, i ∈ s.freeOf k ↔ i ∈ t.freeOf k := by
    intro k i
    rw [mem_freeOf_iff hw h, mem_freeOf_iff hw h', hpool]
  have hfree : ∀ k, k ∈ s.freeCoreMap ↔ k ∈ t.freeCoreMap := by
    intro k
    rw [mem_freeCoreMap_iff hw h, mem_freeCoreMap_iff hw h', hpool]
  refine ⟨hindices, hfree, ?_, ?_, ?_⟩
  · intro k
    have hnil : s.freeOf k = [] ↔ t.freeOf k = [] := by
      simp only [List.eq_nil_iff_forall_not_mem, hindices k]
    rw [mem_partially_iff h, mem_partially_iff h', hfree k, Ne, hnil]
  · apply UInt32.toNat_inj.mp
    rw [hc.1, hc'.1, storedThreads_eq_ncard hw h, storedThreads_eq_ncard hw h', hpool]
  · apply UInt32.toNat_inj.mp
    have hkeys : s.freeCoreMap.keys = t.freeCoreMap.keys := by
      ext k
      rw [Finmap.mem_keys, Finmap.mem_keys, hfree k]
    change s.freeCoreCount.toNat = t.freeCoreCount.toNat
    rw [h.coreCount, h'.coreCount, size, size, hkeys]

section Releases

variable [Inhabited Mask]

/-- A client that releases one processor after the other. -/
def releaseEach (ps : List (LogicalProcessor Mask)) (s : DynamicThreadManager Mask) :
    Except Fault (DynamicThreadManager Mask) := ps.foldlM freeThread s

/-- The call releases a whole core. -/
def FreesCore : Call Mask → Prop
  | .freeProcessor _ _ => True
  | _ => False

/-- Only releases of whole cores can spoil the counts. -/
theorem FreesPartialCore.freesCore {c : Call Mask} (h : FreesPartialCore s c) : FreesCore c := by
  cases c with
  | freeProcessor _ _ => exact trivial
  | allocateProcessor | allocateThread | freeThread _ => exact h

theorem freeThread_ok (hw : cfg.WellFormed) (h : s.Invariant cfg) (hc : CountsFree cfg s)
    (hp : p ∈ cfg.proc) : ∃ t, s.freeThread p = .ok t ∧ t.Invariant cfg ∧ CountsFree cfg t ∧
      t.pool = insert p.globalID s.pool := by
  obtain ⟨r, t, hcall, he⟩ := freeThread_effect hw h Begin.largest hp
  obtain ⟨u, hu, hr⟩ := Except.bind_eq_ok_iff.mp hcall
  obtain ⟨rfl, rfl⟩ := Prod.mk.inj (Except.ok.inj hr)
  refine ⟨u, hu, invariant_effect hw h he, ?_, ?_⟩
  · exact (countsFree_effect hw h hc he).mpr FreesPartialCore.freesCore
  · rw [(moves_effect hw h he).2]
    ext i
    simp [movement, Reply.handedOut, Call.returned, or_comm]

/-- The processors released become free, and nothing else does. -/
theorem releaseEach_ok (hw : cfg.WellFormed) (h : s.Invariant cfg) (hc : CountsFree cfg s)
    (hps : ∀ p ∈ ps, p ∈ cfg.proc) : ∃ t, releaseEach ps s = .ok t ∧ t.Invariant cfg ∧
      CountsFree cfg t ∧ t.pool = s.pool ∪ {i | ∃ p ∈ ps, p.globalID = i} := by
  induction ps generalizing s with
  | nil => exact ⟨s, rfl, h, hc, by simp⟩
  | cons p ps ih =>
    obtain ⟨u, hu, hinv, hcount, hpool⟩ := freeThread_ok hw h hc (hps p List.mem_cons_self)
    obtain ⟨t, ht, hinv', hcount', hpool'⟩ :=
      ih hinv hcount (fun q hq => hps q (List.mem_cons_of_mem p hq))
    refine ⟨t, ?_, hinv', hcount', ?_⟩
    · rw [releaseEach, List.foldlM_cons, hu]
      exact ht
    · rw [hpool', hpool]
      ext i
      simp only [Set.mem_union, Set.mem_insert_iff, Set.mem_ofPred_eq, List.mem_cons,
        exists_eq_or_imp]
      tauto

/-- After any run without releases of whole cores: which threads are free, how each core stands
and what is counted depend on the set of processors released only. -/
theorem releases_order_independent (hw : cfg.WellFormed) (E : Run (Step cfg) (initial cfg))
    (hcalls : ∀ n, n < E.length → ¬ FreesCore (E.event n).call) {n : ℕ} (hn : n ≤ E.length)
    (hps : ∀ p ∈ ps, p ∈ cfg.proc) (hsame : ∀ p, p ∈ ps ↔ p ∈ qs) :
    ∃ t u, releaseEach ps (E.state n) = .ok t ∧ releaseEach qs (E.state n) = .ok u ∧
      SameFree t u := by
  have hguard : ∀ n, n < E.length → ¬ FreesPartialCore (E.state n) (E.event n).call :=
    fun n hn hf => hcalls n hn hf.freesCore
  have h := invariant_run hw E n hn
  have hc := countsFree_of_guard hw E hguard n hn
  obtain ⟨t, ht, hinv, hcount, hpool⟩ := releaseEach_ok hw h hc hps
  obtain ⟨u, hu, hinv', hcount', hpool'⟩ :=
    releaseEach_ok hw h hc (fun p hp => hps p ((hsame p).mpr hp))
  refine ⟨t, u, ht, hu, sameFree_of_pool hw hinv hinv' hcount hcount' ?_⟩
  rw [hpool, hpool']
  simp only [hsame]

end Releases

/-- The client that took thread 3 releases it, after and before threads that are free. -/
theorem releases_order_independent_oneThreadTaken :
    ∃ t u, releaseEach [⟨3, 1, 0, 1, ⟨8, 0⟩⟩, ⟨0, 0, 0, 1, ⟨1, 0⟩⟩] (oneThreadTaken.state 1) =
        .ok t ∧
      releaseEach [⟨0, 0, 0, 1, ⟨1, 0⟩⟩, ⟨3, 1, 0, 1, ⟨8, 0⟩⟩, ⟨3, 1, 0, 1, ⟨8, 0⟩⟩]
        (oneThreadTaken.state 1) = .ok u ∧ SameFree t u := by
  apply releases_order_independent fourThreads_wellFormed oneThreadTaken _ le_rfl
  · decide
  · intro p
    simp [or_comm]
  · intro n hn hf
    obtain rfl : n = 0 := Nat.lt_one_iff.mp hn
    exact hf

end Tailslayer.DynamicThreadManager
