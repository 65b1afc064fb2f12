import Tailslayer.ThreadManager.Counters

/-! Runs in which every grant is released once: nothing outstanding means nothing lost. -/
namespace Tailslayer.DynamicThreadManager

open FiniteMap ProcessorConfigurationVector

variable {Mask : Type} [Inhabited Mask] [DecidableEq Mask]
  {cfg : ProcessorConfigurationVector Mask} {s t : DynamicThreadManager Mask}
  {k : UInt64} {c d : Call Mask} {r : Reply Mask}

def IsRelease : Call Mask → Prop
  | .allocateProcessor => False
  | .allocateThread => False
  | .freeThread _ => True
  | .freeProcessor _ _ => True

/-- The release that undoes a grant; a failed allocation owes none. -/
def owed : Reply Mask → List (Call Mask)
  | .processors _ [] => []
  | .processors _ (p :: _) => [.freeProcessor p.coreID p.pkgID]
  | .thread p =>
    if p.globalID = (LogicalProcessor.sentinel : LogicalProcessor Mask).globalID then []
    else [.freeThread p]
  | .released => []

/-- The releases owed after the first `n` steps of a run. -/
def outstanding (E : Run (Step cfg) (initial cfg)) : ℕ → List (Call Mask)
  | 0 => []
  | n + 1 => owed (E.event n).reply ++ (outstanding E n).erase (E.event n).call

/-- Each release of the run is owed when it happens, and so undoes exactly one grant. -/
def Balanced (E : Run (Step cfg) (initial cfg)) : Prop :=
  ∀ n, n < E.length → IsRelease (E.event n).call → (E.event n).call ∈ outstanding E n

omit [DecidableEq Mask] in
/-- An allocation owes the release of just what it hands out; a release hands out nothing. -/
theorem owed_effect (hw : cfg.WellFormed) (h : s.Invariant cfg) (he : Effect cfg s c r t) :
    IsRelease c ∧ owed r = [] ∧ r.handedOut = [] ∨
      ¬ IsRelease c ∧ c.returned cfg = [] ∧
        (owed r = [] ∧ r.handedOut = [] ∨
          ∃ d, IsRelease d ∧ owed r = [d] ∧
            d.returned cfg = r.handedOut.map LogicalProcessor.globalID) := by
  cases he with
  | noCore _ => exact Or.inr ⟨id, rfl, Or.inl ⟨rfl, rfl⟩⟩
  | noThread _ => exact Or.inr ⟨id, rfl, Or.inl ⟨rfl, rfl⟩⟩
  | core k hk =>
    have hne : cfg.coreProcs k ≠ [] := by
      obtain ⟨q, hq, he⟩ := h.isCore_free hk
      exact List.ne_nil_of_mem (mem_coreProcs.mpr ⟨hq, he⟩)
    obtain ⟨p, ps, hps⟩ := List.exists_cons_of_ne_nil hne
    have hp : p.uniqueCoreID = k := by
      have hm : p ∈ cfg.coreProcs k := by simp [hps]
      exact (mem_coreProcs.mp hm).2
    refine Or.inr ⟨id, rfl, Or.inr ⟨.freeProcessor p.coreID p.pkgID, trivial, ?_, ?_⟩⟩
    · rw [hps]
      rfl
    · rw [returned_freeProcessor, hp]
      rfl
  | threadOfPartial k l p hp | threadOfFree k l p hp =>
    refine Or.inr ⟨id, rfl, Or.inr ⟨.freeThread p, trivial, ?_, ?_⟩⟩
    · simp [owed, hw.ne_sentinel hp]
    · rw [handedOut_thread hw hp]
      rfl
  | _ => exact Or.inl ⟨trivial, rfl, rfl⟩

theorem isRelease_of_outstanding (hw : cfg.WellFormed) (E : Run (Step cfg) (initial cfg)) :
    ∀ n, n ≤ E.length → ∀ d ∈ outstanding E n, IsRelease d := by
  intro n
  induction n with
  | zero => intro _ d hd; cases hd
  | succ n ih =>
    intro hn d hd
    have h := invariant_run hw E n (by omega)
    have he := step_effect hw h (E.step n hn)
    rcases List.mem_append.mp hd with hd | hd
    · obtain ⟨_, ho, _⟩ | ⟨_, _, ⟨ho, _⟩ | ⟨d', hd', ho, _⟩⟩ := owed_effect hw h he
      · rw [ho] at hd
        cases hd
      · rw [ho] at hd
        cases hd
      · rw [ho, List.mem_singleton] at hd
        exact hd ▸ hd'
    · exact ih (by omega) d (List.mem_of_mem_erase hd)

/-- The sets of threads covered by the outstanding releases. -/
def grants (E : Run (Step cfg) (initial cfg)) (n : ℕ) : List (Set UInt32) :=
  (outstanding E n).map (fun d => (movement cfg d .released).back)

theorem balanced_grants (hw : cfg.WellFormed) {E : Run (Step cfg) (initial cfg)}
    (hb : Balanced E) : Ledger.Balanced (movements E) E.length (grants E) where
  initial := rfl
  step := by
    intro n hn
    have h := invariant_run hw E n (by omega)
    have he := step_effect hw h (E.step n hn)
    obtain ⟨hr, ho, hh⟩ | ⟨hr, hback, hgrant⟩ := owed_effect hw h he
    · obtain ⟨pre, post, _, hs, hs'⟩ := List.exists_erase_eq (hb n hn hr)
      refine Or.inr ⟨?_, pre.map (fun d => (movement cfg d .released).back),
        post.map (fun d => (movement cfg d .released).back), ?_, ?_⟩
      · simp [movements, movement, hh]
      · rw [grants, hs, List.map_append, List.map_cons]
        rfl
      · rw [grants, outstanding, ho, hs', List.nil_append, List.map_append]
    · have hne : (outstanding E n).erase (E.event n).call = outstanding E n := by
        apply List.erase_of_not_mem
        exact fun hm => hr (isRelease_of_outstanding hw E n (by omega) _ hm)
      refine Or.inl ⟨by simp [movements, movement, hback], ?_⟩
      rcases hgrant with ⟨ho, hh⟩ | ⟨d, _, ho, hd⟩
      · exact Or.inl ⟨by simp [movements, movement, hh], by rw [grants, outstanding, ho, hne]; rfl⟩
      · have hset : (movement cfg d .released).back = (movements E n).out := by
          simp only [movement, movements, hd]
        refine Or.inr ?_
        rw [← hset, grants, outstanding, ho, hne]
        rfl

/-- The held threads are those of the outstanding releases, each held by one of them. -/
theorem held_balanced (hw : cfg.WellFormed) {E : Run (Step cfg) (initial cfg)} (hb : Balanced E)
    {n : ℕ} (hn : n ≤ E.length) : held E n = {i | ∃ d ∈ outstanding E n, i ∈ d.returned cfg} := by
  have h0 : (E.state 0).pool = allThreads cfg := by rw [E.initial, pool_initial hw]
  have hh := (Ledger.held_eq_grants (fun n => (E.state n).pool) h0 (moves_run hw E)
    (fun n hn => returned_subset (E.step n hn).1) (balanced_grants hw hb) n hn).2
  rw [held, hh]
  simp [grants, movement]

/-- A balanced run never frees a core that is partly free. -/
theorem not_freesPartialCore_balanced (hw : cfg.WellFormed) {E : Run (Step cfg) (initial cfg)}
    (hb : Balanced E) {n : ℕ} (hn : n < E.length) :
    ¬ FreesPartialCore (E.state n) (E.event n).call := by
  intro hf
  have h := invariant_run hw E n (by omega)
  have hallow := (E.step n hn).1
  have howed := hb n hn
  generalize (E.event n).call = c at hallow hf howed
  cases c with
  | allocateProcessor | allocateThread | freeThread p => exact hf
  | freeProcessor coreID packageID =>
    obtain ⟨p, hp, rfl, rfl⟩ := hallow
    obtain ⟨l, hl⟩ := Finmap.mem_iff.mp ((freesPartialCore_iff p).mp hf)
    obtain ⟨hne, _, hsub, _⟩ := h.partially _ l hl
    obtain ⟨i, hi⟩ := List.exists_mem_of_ne_nil l hne
    have hpool : i ∈ (E.state n).pool := ⟨_, l, Or.inr hl, hi⟩
    rw [pool_run hw E n (by omega), held_balanced hw hb (by omega)] at hpool
    apply hpool.2
    refine ⟨_, howed trivial, ?_⟩
    rw [returned_freeProcessor]
    exact hsub hi

omit [Inhabited Mask] [DecidableEq Mask] in
/-- A manager whose free threads are all threads, counted correctly, is as initialized. -/
theorem eq_initial (hw : cfg.WellFormed) (h : s.Invariant cfg) (hc : CountsFree cfg s)
    (hp : s.pool = allThreads cfg) : s = initial cfg := by
  have hi := invariant_initial hw
  have hfree : ∀ k, k ∈ s.freeCoreMap ↔ cfg.IsCore k := by
    intro k
    refine ⟨h.isCore_free, fun hk => (h.mem_free_iff hw hk).mpr ?_⟩
    intro i hik
    obtain ⟨q, hq, _, hqi⟩ := mem_threadsOf.mp hik
    have hin : i ∈ s.pool := hp ▸ ⟨q, hq, hqi⟩
    exact hin
  have hmap : s.freeCoreMap = (initial cfg).freeCoreMap := by
    apply Finmap.ext_lookup
    intro k
    by_cases hk : cfg.IsCore k
    · rw [h.lookup_free ((hfree k).mpr hk), hi.lookup_free ((mem_initial hw).mpr hk)]
    · rw [Finmap.lookup_eq_none.mpr (fun hin => hk ((hfree k).mp hin)),
        Finmap.lookup_eq_none.mpr (fun hin => hk ((mem_initial hw).mp hin))]
  have hpart : s.partiallyFreeCoreMap = (initial cfg).partiallyFreeCoreMap := by
    apply eq_empty_iff.mpr
    intro k hk
    exact h.disjoint k ((hfree k).mpr (h.isCore_partially hk)) hk
  have hthreads : s.freeThreadCount = (initial cfg).freeThreadCount := by
    apply UInt32.toNat_inj.mp
    have hs : s.freeThreadCount.toNat = s.storedThreads := hc.1
    have hs' : (initial cfg).freeThreadCount.toNat = (initial cfg).storedThreads :=
      (countsFree_initial hw).1
    rw [hs, hs', storedThreads, storedThreads, hmap, hpart]
  have hcores : s.freeCoreCount = (initial cfg).freeCoreCount := by
    apply UInt32.toNat_inj.mp
    rw [h.coreCount, hi.coreCount, hmap]
  exact DynamicThreadManager.ext h.map h.cores hpart hmap hthreads hcores

/-- Once every grant of a balanced run is released, the manager is as initialized. -/
theorem initial_of_balanced (hw : cfg.WellFormed) (E : Run (Step cfg) (initial cfg))
    (hb : Balanced E) {n : ℕ} (hn : n ≤ E.length) (ho : outstanding E n = []) :
    E.state n = initial cfg ∧ (E.state n).partiallyFreeCoreMap = ∅ ∧
      (∀ k l, (E.state n).freeCoreMap.lookup k = some l ↔
        cfg.IsCore k ∧ l = cfg.threadsOf k) ∧
      (E.state n).freeThreads.toNat = cfg.proc.length ∧
      (E.state n).freeCores = cfg.physicalCoreCount := by
  have hcount := countsFree_of_guard hw E
    (fun _ hn => not_freesPartialCore_balanced hw hb hn) n hn
  have hpool : (E.state n).pool = allThreads cfg := by
    rw [pool_run hw E n hn, held_balanced hw hb hn, ho]
    simp
  have he := eq_initial hw (invariant_run hw E n hn) hcount hpool
  rw [he]
  refine ⟨rfl, rfl, ?_, freeThreadCount_initial hw, freeCoreCount_initial hw⟩
  refine fun k l => ⟨(invariant_initial hw).free k l, ?_⟩
  rintro ⟨hk, rfl⟩
  exact (invariant_initial hw).lookup_free ((mem_initial hw).mpr hk)

/-- A client that takes one thread and the whole other core, and gives both back in turn. -/
def allReturned : Run (Step fourThreads) (initial fourThreads) :=
  let bothTaken := andThen fourThreads_wellFormed oneThreadTaken .allocateProcessor trivial
  let threadBack := andThen fourThreads_wellFormed bothTaken (.freeThread ⟨3, 1, 0, 1, ⟨8, 0⟩⟩)
    (by decide : _ ∈ fourThreads.proc)
  andThen fourThreads_wellFormed threadBack (.freeProcessor 0 0)
    ⟨⟨0, 0, 0, 1, ⟨1, 0⟩⟩, by decide, rfl, rfl⟩

theorem balanced_allReturned : Balanced allReturned := by
  intro n hn hr
  have hcases : n = 0 ∨ n = 1 ∨ n = 2 ∨ n = 3 := by
    change n < 4 at hn
    omega
  rcases hcases with rfl | rfl | rfl | rfl
  · exact hr.elim
  · exact hr.elim
  · decide +kernel
  · decide +kernel

theorem initial_of_balanced_allReturned :
    allReturned.state 4 = initial fourThreads ∧
      (allReturned.state 4).partiallyFreeCoreMap = ∅ ∧
      (∀ k l, (allReturned.state 4).freeCoreMap.lookup k = some l ↔
        fourThreads.IsCore k ∧ l = fourThreads.threadsOf k) ∧
      (allReturned.state 4).freeThreads.toNat = fourThreads.proc.length ∧
      (allReturned.state 4).freeCores = fourThreads.physicalCoreCount :=
  initial_of_balanced fourThreads_wellFormed allReturned balanced_allReturned le_rfl
    (by decide +kernel)

end Tailslayer.DynamicThreadManager
