import Tailslayer.ThreadManager.Balance
import Tailslayer.ThreadManager.Releases

/-! Clients that only allocate: cores are used up one by one, and the machine to its last thread. -/
namespace Tailslayer.DynamicThreadManager

open FiniteMap ProcessorConfigurationVector

variable {Mask : Type} [Inhabited Mask] {cfg : ProcessorConfigurationVector Mask}
  {s t : DynamicThreadManager Mask} {c : Call Mask} {r : Reply Mask}

/-- The processors handed out in the first `n` steps of a run. -/
def handedOut (E : Run (Step cfg) (initial cfg)) : ℕ → List (LogicalProcessor Mask)
  | 0 => []
  | n + 1 => handedOut E n ++ (E.event n).reply.handedOut

/-- What holds after some allocations that handed out the processors `out`. -/
structure Packed (cfg : ProcessorConfigurationVector Mask) (out : List (LogicalProcessor Mask))
    (s : DynamicThreadManager Mask) : Prop where
  distinct : out.Nodup
  mem : ∀ p ∈ out, p ∈ cfg.proc
  onePartial : ∀ k k', k ∈ s.partiallyFreeCoreMap → k' ∈ s.partiallyFreeCoreMap → k = k'
  freeThreads : s.freeThreads.toNat + out.length = cfg.proc.length
  allocateThread : ∀ b, ∃ p t, s.call b .allocateThread = .ok (.thread p, t) ∧
    (p = .sentinel ↔ ∀ q ∈ cfg.proc, q ∈ out)
  allocateProcessor : ∀ b, ∃ status ps t,
    s.call b .allocateProcessor = .ok (.processors status ps, t) ∧
    (status = false ↔ ¬ ∃ k, cfg.IsCore k ∧ ∀ q ∈ out, q.uniqueCoreID ≠ k)

/-- The free threads are those of the processors that are not out. -/
structure Books (cfg : ProcessorConfigurationVector Mask) (out : List (LogicalProcessor Mask))
    (s : DynamicThreadManager Mask) : Prop where
  invariant : s.Invariant cfg
  counts : CountsFree cfg s
  onePartial : ∀ k k', k ∈ s.partiallyFreeCoreMap → k' ∈ s.partiallyFreeCoreMap → k = k'
  distinct : out.Nodup
  mem : ∀ p ∈ out, p ∈ cfg.proc
  pool : ∀ p ∈ cfg.proc, p.globalID ∈ s.pool ↔ p ∉ out

omit [Inhabited Mask] in
theorem books_initial (hw : cfg.WellFormed) : Books cfg [] (initial cfg) where
  invariant := invariant_initial hw
  counts := countsFree_initial hw
  onePartial := by
    intro k k' hk
    cases Finmap.notMem_empty hk
  distinct := List.nodup_nil
  mem := by simp
  pool := by
    intro p hp
    rw [pool_initial hw]
    exact iff_of_true ⟨p, hp, rfl⟩ List.not_mem_nil

omit [Inhabited Mask] in
theorem mem_shrink {k a : UInt64} {l : ThreadIdxList} {m : ProcMap} (h : a ∈ shrink k l m) :
    a = k ∨ a ∈ m := by
  rw [← Finmap.lookup_isSome, lookup_shrink] at h
  split at h
  · next ha => exact Or.inl ha
  · exact Or.inr (Finmap.lookup_isSome.mp h)

/-- A thread is taken from the core that is partially free, and another core is opened only when
there is none. -/
theorem onePartial_effect (he : Effect cfg s c r t) (hr : ¬ IsRelease c)
    (hone : ∀ k k', k ∈ s.partiallyFreeCoreMap → k' ∈ s.partiallyFreeCoreMap → k = k') :
    ∀ k k', k ∈ t.partiallyFreeCoreMap → k' ∈ t.partiallyFreeCoreMap → k = k' := by
  cases he with
  | noCore _ | noThread _ | core _ _ => exact hone
  | threadOfPartial k l p hp hc hl =>
    have hk : k ∈ s.partiallyFreeCoreMap := Finmap.mem_of_lookup_eq_some hl
    intro a a' ha ha'
    apply hone
    · rcases mem_shrink ha with rfl | ha
      · exact hk
      · exact ha
    · rcases mem_shrink ha' with rfl | ha'
      · exact hk
      · exact ha'
  | threadOfFree k l p hp hc hemp hk hl =>
    have hall : ∀ a, a ∈ shrink k l s.partiallyFreeCoreMap → a = k := by
      intro a ha
      rcases mem_shrink ha with ha | ha
      · exact ha
      · rw [hemp] at ha
        cases Finmap.notMem_empty ha
    intro a a' ha ha'
    rw [hall a ha, hall a' ha']
  | _ => exact absurd trivial hr

/-- What is handed out was not out before. -/
theorem Books.fresh (hw : cfg.WellFormed) {out : List (LogicalProcessor Mask)}
    (h : Books cfg out s) (he : Effect cfg s c r t) :
    ∀ p ∈ r.handedOut, p ∈ cfg.proc ∧ p ∉ out := by
  intro p hp
  have hmem := ((handedOut_effect hw he).2 p hp).1
  have hfree := (moves_effect hw h.invariant he).1
  exact ⟨hmem, (h.pool p hmem).mp (hfree (List.mem_map_of_mem hp))⟩

theorem books_effect (hw : cfg.WellFormed) {out : List (LogicalProcessor Mask)}
    (h : Books cfg out s) (he : Effect cfg s c r t) (hr : ¬ IsRelease c) :
    Books cfg (out ++ r.handedOut) t := by
  have hnodup := (handedOut_effect hw he).1
  have hfresh := h.fresh hw he
  have hpool := (moves_effect hw h.invariant he).2
  have hback : (movement cfg c r).back = ∅ := by
    cases c with
    | allocateProcessor | allocateThread => simp [movement, Call.returned]
    | freeThread _ | freeProcessor _ _ => exact absurd trivial hr
  have hin : ∀ p ∈ cfg.proc, p.globalID ∈ (movement cfg c r).out ↔ p ∈ r.handedOut := by
    intro p hp
    constructor
    · intro hi
      obtain ⟨q, hq, he⟩ := List.mem_map.mp hi
      rw [← hw.globalID_inj (hfresh q hq).1 hp he]
      exact hq
    · intro hi
      exact List.mem_map_of_mem hi
  refine ⟨invariant_effect hw h.invariant he, ?_, onePartial_effect he hr h.onePartial, ?_, ?_, ?_⟩
  · apply (countsFree_effect hw h.invariant h.counts he).mpr
    cases c with
    | freeProcessor _ _ => exact absurd trivial hr
    | allocateProcessor | allocateThread | freeThread _ => exact fun hf => hf
  · apply h.distinct.append hnodup.of_map
    intro p hp hp'
    exact (hfresh p hp').2 hp
  · intro p hp
    rcases List.mem_append.mp hp with hp | hp
    · exact h.mem p hp
    · exact (hfresh p hp).1
  · intro p hp
    rw [hpool, hback, Set.union_empty, Set.mem_sdiff, h.pool p hp, hin p hp, List.mem_append,
      not_or]

section Packed

variable {out : List (LogicalProcessor Mask)}

omit [Inhabited Mask] in
theorem finite_pool (h : s.Invariant cfg) : s.pool.Finite := by
  apply (cfg.proc.map LogicalProcessor.globalID).finite_toSet.subset
  intro i hi
  obtain ⟨p, hp, rfl⟩ := h.mem_proc_of_pooled hi
  exact List.mem_map_of_mem hp

omit [Inhabited Mask] in
theorem ncard_allThreads (hw : cfg.WellFormed) : (allThreads cfg).ncard = cfg.proc.length := by
  rw [← pool_initial hw, ← storedThreads_eq_ncard hw (invariant_initial hw),
    storedThreads_initial hw]

omit [Inhabited Mask] in
/-- Each thread is free or belongs to a processor that is out. -/
theorem Books.storedThreads (hw : cfg.WellFormed) (h : Books cfg out s) :
    s.storedThreads + out.length = cfg.proc.length := by
  have hnodup : (out.map LogicalProcessor.globalID).Nodup :=
    h.distinct.map_on (fun p hp q hq => hw.globalID_inj (h.mem p hp) (h.mem q hq))
  have hlen : ((out.map LogicalProcessor.globalID).toFinset : Set UInt32).ncard = out.length := by
    rw [Set.ncard_coe_finset, List.toFinset_card_of_nodup hnodup, List.length_map]
  have hall : allThreads cfg = s.pool ∪ ((out.map LogicalProcessor.globalID).toFinset) := by
    ext i
    rw [Set.mem_union, Finset.mem_coe, List.mem_toFinset, List.mem_map]
    constructor
    · rintro ⟨p, hp, rfl⟩
      by_cases ho : p ∈ out
      · exact Or.inr ⟨p, ho, rfl⟩
      · exact Or.inl ((h.pool p hp).mpr ho)
    · rintro (hi | ⟨p, hp, rfl⟩)
      · exact h.invariant.mem_proc_of_pooled hi
      · exact ⟨p, h.mem p hp, rfl⟩
  have hapart : Disjoint s.pool ((out.map LogicalProcessor.globalID).toFinset : Set UInt32) := by
    rw [Set.disjoint_left]
    intro i hi ho
    rw [Finset.mem_coe, List.mem_toFinset, List.mem_map] at ho
    obtain ⟨p, hp, rfl⟩ := ho
    exact (h.pool p (h.mem p hp)).mp hi hp
  rw [storedThreads_eq_ncard hw h.invariant, ← ncard_allThreads hw, hall,
    Set.ncard_union_eq hapart (finite_pool h.invariant) (Finset.finite_toSet _), hlen]

omit [Inhabited Mask] in
/-- A core is free when no processor of it is out. -/
theorem Books.mem_freeCoreMap_iff (hw : cfg.WellFormed) (h : Books cfg out s) (k : UInt64) :
    k ∈ s.freeCoreMap ↔ cfg.IsCore k ∧ ∀ q ∈ out, q.uniqueCoreID ≠ k := by
  rw [DynamicThreadManager.mem_freeCoreMap_iff hw h.invariant]
  apply and_congr_right
  intro _
  constructor
  · rintro hall q hq rfl
    have hi := mem_threadsOf.mpr ⟨q, h.mem q hq, rfl, rfl⟩
    exact (h.pool q (h.mem q hq)).mp (hall _ hi) hq
  · intro hnone i hi
    obtain ⟨p, hp, hk, rfl⟩ := mem_threadsOf.mp hi
    exact (h.pool p hp).mpr (fun ho => hnone p ho hk)

/-- The counters run out just when the pools do. -/
theorem Books.packed (hw : cfg.WellFormed) (h : Books cfg out s) : Packed cfg out s where
  distinct := h.distinct
  mem := h.mem
  onePartial := h.onePartial
  freeThreads := by
    rw [h.counts.1]
    exact h.storedThreads hw
  allocateThread := by
    intro b
    obtain ⟨r, t, hcall, he⟩ := call_effect hw h.invariant b .allocateThread trivial
    have hfresh := h.fresh hw he
    cases he with
    | noThread hnone =>
      refine ⟨.sentinel, s, hcall, iff_of_true rfl ?_⟩
      have hempty : s.storedThreads = 0 := by
        rcases hnone with hz | ⟨hpart, hfree⟩
        · rw [← h.counts.1]
          exact congrArg UInt32.toNat hz
        · rw [DynamicThreadManager.storedThreads, hpart, hfree, total_empty]
      have hpool : s.pool = ∅ := by
        rw [storedThreads_eq_ncard hw h.invariant] at hempty
        exact (Set.ncard_eq_zero (finite_pool h.invariant)).mp hempty
      intro q hq
      by_contra ho
      have hin := (h.pool q hq).mpr ho
      rw [hpool] at hin
      exact hin
    | threadOfPartial k l p hp _ _ | threadOfFree k l p hp _ _ _ _ =>
      refine ⟨p, _, hcall, iff_of_false ?_ ?_⟩
      · rintro rfl
        exact hw.ne_sentinel hp rfl
      · intro hall
        have hp' : p ∈ (Reply.thread p).handedOut := by simp [handedOut_thread hw hp]
        exact (hfresh p hp').2 (hall p hp)
  allocateProcessor := by
    intro b
    have hunused := h.mem_freeCoreMap_iff hw
    obtain ⟨r, t, hcall, he⟩ := call_effect hw h.invariant b .allocateProcessor trivial
    cases he with
    | noCore hnone =>
      refine ⟨false, [], s, hcall, iff_of_true rfl ?_⟩
      rintro ⟨k, hk⟩
      have hin := (hunused k).mpr hk
      rw [hnone] at hin
      exact Finmap.notMem_empty hin
    | core k hk =>
      refine ⟨true, _, _, hcall, iff_of_false (by decide) ?_⟩
      exact not_not.mpr ⟨k, (hunused k).mp hk⟩

end Packed

theorem books_run (hw : cfg.WellFormed) (E : Run (Step cfg) (initial cfg))
    (hcalls : ∀ n, n < E.length → ¬ IsRelease (E.event n).call) :
    ∀ n, n ≤ E.length → Books cfg (handedOut E n) (E.state n) := by
  intro n
  induction n with
  | zero =>
    intro _
    rw [E.initial]
    exact books_initial hw
  | succ n ih =>
    intro hn
    have h := ih (by omega)
    exact books_effect hw h (step_effect hw h.invariant (E.step n hn)) (hcalls n hn)

/-- After any number of allocations, whichever cores and threads `begin()` picks. -/
theorem packed_run (hw : cfg.WellFormed) (E : Run (Step cfg) (initial cfg))
    (hcalls : ∀ n, n < E.length → ¬ IsRelease (E.event n).call) {n : ℕ} (hn : n ≤ E.length) :
    Packed cfg (handedOut E n) (E.state n) :=
  (books_run hw E hcalls n hn).packed hw

/-- Three of four threads are free once one was taken, and the other core is unused. -/
theorem packed_run_oneThreadTaken :
    Packed fourThreads (handedOut oneThreadTaken 1) (oneThreadTaken.state 1) := by
  apply packed_run fourThreads_wellFormed oneThreadTaken _ le_rfl
  intro n hn hf
  obtain rfl : n = 0 := Nat.lt_one_iff.mp hn
  exact hf

end Tailslayer.DynamicThreadManager
