import Tailslayer.Foundations.Outcome
import Tailslayer.ThreadManager.Ownership

/-! The processors that the threads of a benchmark are given (`main.cpp`, `benchmark.cpp`). -/
namespace Tailslayer.Benchmark

open DynamicThreadManager ProcessorConfigurationVector

variable {Mask : Type}

/-- An allocation loop of `execute_benchmarks`, with a resolution of `begin()` for each round;
it ends early after a failed allocation. -/
def allocateEach
    (allocate : Begin → DynamicThreadManager Mask →
      Except Tailslayer.Fault (LogicalProcessor Mask × DynamicThreadManager Mask)) :
    List Begin → DynamicThreadManager Mask →
      Except Tailslayer.Fault (Bool × List (LogicalProcessor Mask) × DynamicThreadManager Mask)
  | [], s => .ok (true, [], s)
  | b :: bs, s => do
    let (tmpid, s) ← allocate b s
    if tmpid.coreID = 0xffffffff then return (false, [tmpid], s)
    else
      let (success, rest, s) ← allocateEach allocate bs s
      return (success, tmpid :: rest, s)

/-- What a program run takes from `m_coreAlloc`. -/
structure Allocation (Mask : Type) where
  mainThreadCoreID : LogicalProcessor Mask
  channelCores : List (LogicalProcessor Mask)
  stressThreads : List (LogicalProcessor Mask)
  deriving DecidableEq

/-- The allocations of `parse_cli` and `execute_benchmarks`; `none` when an assertion fails. -/
def allocate [Inhabited Mask] (main : Begin) (channels stress : List Begin)
    (s : DynamicThreadManager Mask) : Except Tailslayer.Fault (Option (Allocation Mask)) := do
  let (mainThreadCoreID, s) ← s.allocateProcessor' main
  let (success, channelCores, s) ← allocateEach (fun b s => s.allocateProcessor' b) channels s
  if success then
    let (success, stressThreads, _) ← allocateEach (fun b s => s.allocateThread b) stress s
    if success then return some ⟨mainThreadCoreID, channelCores, stressThreads⟩
    else return none
  else return none

/-- The processors of the threads that `run_arm` starts. -/
structure Arm (Mask : Type) where
  measurement : List (LogicalProcessor Mask)
  stress : List (LogicalProcessor Mask)
  deriving DecidableEq

/-- Stress threads take their processors from the back; `none` when none is left. -/
def startStressThreads : ℕ → List (LogicalProcessor Mask) → Option (List (LogicalProcessor Mask))
  | 0, _ => some []
  | n + 1, coresLeft =>
    match coresLeft.getLast? with
    | none => none
    | some p => (startStressThreads n coresLeft.dropLast).map (p :: ·)

def runArm (numChannels nStress : ℕ) (a : Allocation Mask) : Option (Arm Mask) :=
  -- a channel without a core would be an access outside `channelCores`
  if a.channelCores.length < numChannels then none
  else
    let stress := if a.stressThreads = [] then some []
      else startStressThreads nStress a.stressThreads
    stress.map (fun stress => ⟨a.channelCores.take numChannels, stress⟩)

variable {cfg : ProcessorConfigurationVector Mask} {s t : DynamicThreadManager Mask}
  {p q : LogicalProcessor Mask} {b : Begin}
  {R : LogicalProcessor Mask → LogicalProcessor Mask → Prop}

/-- The step takes processors out of the pool, unrelated under `R` to all that were out. -/
structure Takes (cfg : ProcessorConfigurationVector Mask)
    (R : LogicalProcessor Mask → LogicalProcessor Mask → Prop) (s t : DynamicThreadManager Mask)
    (ps : List (LogicalProcessor Mask)) : Prop where
  invariant : t.Invariant cfg
  shrinks : t.pool ⊆ s.pool
  mem : ∀ p ∈ ps, p ∈ cfg.proc ∧ p.globalID ∉ t.pool
  fresh : ∀ q ∈ cfg.proc, q.globalID ∉ s.pool → ∀ p ∈ ps, R q p
  pairwise : ps.Pairwise R

theorem Takes.nil (h : s.Invariant cfg) : Takes cfg R s s [] where
  invariant := h
  shrinks := Set.Subset.refl _
  mem := by simp
  fresh := by simp
  pairwise := .nil

/-- Later takings are fresh with respect to earlier ones. -/
theorem Takes.cons {u : DynamicThreadManager Mask} {ps : List (LogicalProcessor Mask)}
    (h : Takes cfg R s t [p]) (h' : Takes cfg R t u ps) : Takes cfg R s u (p :: ps) := by
  obtain ⟨hp, hout⟩ := h.mem p (by simp)
  refine ⟨h'.invariant, h'.shrinks.trans h.shrinks, ?_, ?_, ?_⟩
  · intro q hq
    rcases List.mem_cons.mp hq with rfl | hq
    · exact ⟨hp, fun hin => hout (h'.shrinks hin)⟩
    · exact h'.mem q hq
  · intro q hq hqs r hr
    rcases List.mem_cons.mp hr with rfl | hr
    · exact h.fresh q hq hqs r (by simp)
    · exact h'.fresh q hq (fun hin => hqs (h.shrinks hin)) r hr
  · exact List.pairwise_cons.mpr ⟨h'.fresh p hp hout, h'.pairwise⟩

section Allocation

variable [Inhabited Mask]

/-- Removing what a reply hands out leaves a smaller pool without it. -/
theorem pool_of_effect (hw : cfg.WellFormed) (h : s.Invariant cfg) {c : Call Mask}
    {r : Reply Mask} (hc : c.returned cfg = []) (he : Effect cfg s c r t) :
    t.pool ⊆ s.pool ∧ ∀ p ∈ r.handedOut, p.globalID ∈ s.pool ∧ p.globalID ∉ t.pool := by
  obtain ⟨hout, ht⟩ := moves_effect hw h he
  have hback : (movement cfg c r).back = ∅ := by
    ext i
    simp [movement, hc]
  rw [hback, Set.union_empty] at ht
  refine ⟨ht ▸ Set.sdiff_subset, ?_⟩
  intro p hp
  have hi : p.globalID ∈ (movement cfg c r).out := List.mem_map_of_mem hp
  exact ⟨hout hi, fun hin => (ht ▸ hin : p.globalID ∈ s.pool \ _).2 hi⟩

theorem allocateThread_takes (hw : cfg.WellFormed) (h : s.Invariant cfg)
    (ha : s.allocateThread b = .ok (p, t)) (hp : p.coreID ≠ 0xffffffff) :
    Takes cfg (fun q p => q.globalID ≠ p.globalID) s t [p] := by
  have hcall : s.call b .allocateThread = .ok (.thread p, t) := by
    simp [call, ha, bind, Except.bind, pure, Except.pure]
  obtain ⟨r, u, hr, he⟩ := call_effect hw h b .allocateThread trivial
  obtain ⟨rfl, rfl⟩ := Prod.mk.inj (Except.ok.inj (hcall.symm.trans hr))
  obtain ⟨hsub, htaken⟩ := pool_of_effect hw h rfl he
  have hmem : p ∈ cfg.proc := by
    cases he with
    | noThread _ => exact absurd rfl hp
    | threadOfPartial k l p hpc | threadOfFree k l p hpc => exact hpc
  rw [handedOut_thread hw hmem] at htaken
  obtain ⟨hin, hout⟩ := htaken p (by simp)
  refine ⟨invariant_effect hw h he, hsub, ?_, ?_, by simp⟩
  · intro q hq
    rw [List.mem_singleton] at hq
    exact hq ▸ ⟨hmem, hout⟩
  · intro q _ hqs r hr heq
    rw [List.mem_singleton] at hr
    subst r
    exact hqs (heq ▸ hin)

/-- `allocateProcessor()` picks the first thread of what `allocateProcessor(out)` hands out. -/
theorem allocateProcessor'_eq (ha : s.allocateProcessor' b = .ok (p, t)) :
    ∃ status out, s.call b .allocateProcessor = .ok (.processors status out, t) ∧
      (status = true → ∃ ps, out = p :: ps) ∧ (status = false → p = .sentinel) := by
  obtain ⟨⟨status, out, u⟩, hu, hp⟩ := Except.bind_eq_ok_iff.mp ha
  have hcall : s.call b .allocateProcessor = .ok (.processors status out, u) := by
    simp [call, hu, bind, Except.bind, pure, Except.pure]
  cases status with
  | false =>
    obtain ⟨rfl, rfl⟩ := Prod.mk.inj (Except.ok.inj hp)
    exact ⟨false, out, hcall, by simp, by simp⟩
  | true =>
    cases out with
    | nil => cases hp
    | cons q ps =>
      obtain ⟨rfl, rfl⟩ := Prod.mk.inj (Except.ok.inj hp)
      exact ⟨true, q :: ps, hcall, fun _ => ⟨ps, rfl⟩, by simp⟩

theorem invariant_allocateProcessor' (hw : cfg.WellFormed) (h : s.Invariant cfg)
    (ha : s.allocateProcessor' b = .ok (p, t)) : t.Invariant cfg := by
  obtain ⟨status, out, hcall, -, -⟩ := allocateProcessor'_eq ha
  obtain ⟨r, u, hr, he⟩ := call_effect hw h b .allocateProcessor trivial
  obtain ⟨rfl, rfl⟩ := Prod.mk.inj (Except.ok.inj (hcall.symm.trans hr))
  exact invariant_effect hw h he

/-- A channel gets a thread of a core of which no thread was out. -/
theorem allocateProcessor'_takes (hw : cfg.WellFormed) (h : s.Invariant cfg)
    (ha : s.allocateProcessor' b = .ok (p, t)) (hp : p.coreID ≠ 0xffffffff) :
    Takes cfg (fun q p => q.uniqueCoreID ≠ p.uniqueCoreID) s t [p] := by
  obtain ⟨status, out, hcall, htrue, hfalse⟩ := allocateProcessor'_eq ha
  obtain ⟨r, u, hr, he⟩ := call_effect hw h b .allocateProcessor trivial
  obtain ⟨rfl, rfl⟩ := Prod.mk.inj (Except.ok.inj (hcall.symm.trans hr))
  obtain ⟨hsub, htaken⟩ := pool_of_effect hw h rfl he
  have hinv := invariant_effect hw h he
  generalize hrep : Reply.processors status out = r at he
  cases he with
  | noCore _ =>
    obtain ⟨rfl, -⟩ := Reply.processors.inj hrep
    rw [hfalse rfl] at hp
    exact absurd rfl hp
  | core k hk =>
    obtain ⟨rfl, rfl⟩ := Reply.processors.inj hrep
    obtain ⟨ps, hps⟩ := htrue rfl
    obtain ⟨hmem, rfl⟩ := mem_coreProcs.mp (hps ▸ List.mem_cons_self : p ∈ cfg.coreProcs k)
    obtain ⟨-, hout⟩ := htaken p (hps ▸ List.mem_cons_self)
    refine ⟨hinv, hsub, ?_, ?_, by simp⟩
    · intro q hq
      rw [List.mem_singleton] at hq
      subst q
      exact ⟨hmem, hout⟩
    · intro q hq hqs r hr heq
      rw [List.mem_singleton] at hr
      subst r
      -- a free core has all its threads in the pool, those of `q`'s core included
      have hpool := (h.mem_free_iff hw ⟨p, hmem, rfl⟩).mp hk
      exact hqs (hpool _ (heq ▸ globalID_mem_threadsOf hq))

omit [Inhabited Mask] in
/-- A loop that succeeds takes what its rounds take. -/
theorem allocateEach_takes {allocate : Begin → DynamicThreadManager Mask →
      Except Tailslayer.Fault (LogicalProcessor Mask × DynamicThreadManager Mask)}
    (hall : ∀ b s p t, s.Invariant cfg → allocate b s = .ok (p, t) → p.coreID ≠ 0xffffffff →
      Takes cfg R s t [p]) {bs : List Begin} {ps : List (LogicalProcessor Mask)}
    (h : s.Invariant cfg) (ha : allocateEach allocate bs s = .ok (true, ps, t)) :
    Takes cfg R s t ps := by
  induction bs generalizing s ps with
  | nil =>
    obtain ⟨-, rfl, rfl⟩ : true = true ∧ [] = ps ∧ s = t := by simpa [allocateEach] using ha
    exact .nil h
  | cons b bs ih =>
    obtain ⟨⟨p, u⟩, hu, ha⟩ := Except.bind_eq_ok_iff.mp ha
    by_cases hp : p.coreID = 0xffffffff
    · simp [hp, pure, Except.pure] at ha
    · simp only [hp, if_false] at ha
      obtain ⟨⟨success, rest, v⟩, hv, ha⟩ := Except.bind_eq_ok_iff.mp ha
      obtain ⟨rfl, rfl, rfl⟩ : success = true ∧ p :: rest = ps ∧ v = t := by
        simpa [pure, Except.pure] using ha
      have hstep := hall b s p u h hu hp
      exact hstep.cons (ih hstep.invariant hv)

/-- What a program run is given: processors of the configuration, no thread twice, and for the
channels no core twice. -/
structure Allocation.Exclusive (cfg : ProcessorConfigurationVector Mask) (a : Allocation Mask) :
    Prop where
  mem : ∀ p ∈ a.channelCores ++ a.stressThreads, p ∈ cfg.proc
  threads : ((a.channelCores ++ a.stressThreads).map LogicalProcessor.globalID).Nodup
  cores : (a.channelCores.map LogicalProcessor.uniqueCoreID).Nodup

theorem exclusive_allocate (hw : cfg.WellFormed) {main : Begin} {channels stress : List Begin}
    {a : Allocation Mask} (h : s.Invariant cfg)
    (ha : allocate main channels stress s = .ok (some a)) : a.Exclusive cfg := by
  obtain ⟨⟨m, s₁⟩, hm, ha⟩ := Except.bind_eq_ok_iff.mp ha
  obtain ⟨⟨success, channelCores, s₂⟩, hc, ha⟩ := Except.bind_eq_ok_iff.mp ha
  cases success with
  | false => simp [pure, Except.pure] at ha
  | true =>
    obtain ⟨⟨success, stressThreads, s₃⟩, hs, ha⟩ := Except.bind_eq_ok_iff.mp ha
    cases success with
    | false => simp [pure, Except.pure] at ha
    | true =>
      obtain rfl : ⟨m, channelCores, stressThreads⟩ = a := by simpa [pure, Except.pure] using ha
      have h₁ := invariant_allocateProcessor' hw h hm
      have hchan := allocateEach_takes
        (fun b s p t h ha hp => allocateProcessor'_takes hw h ha hp) h₁ hc
      have hstress := allocateEach_takes
        (fun b s p t h ha hp => allocateThread_takes hw h ha hp) hchan.invariant hs
      refine ⟨?_, ?_, List.pairwise_map.mpr hchan.pairwise⟩
      · intro p hp
        rcases List.mem_append.mp hp with hp | hp
        · exact (hchan.mem p hp).1
        · exact (hstress.mem p hp).1
      · apply List.pairwise_map.mpr
        apply List.pairwise_append.mpr
        refine ⟨?_, hstress.pairwise, ?_⟩
        · exact hchan.pairwise.imp_of_mem (fun {p q} hp hq hne he =>
            hne (by rw [hw.globalID_inj (hchan.mem p hp).1 (hchan.mem q hq).1 he]))
        · intro p hp q hq
          exact hstress.fresh p (hchan.mem p hp).1 (hchan.mem p hp).2 q hq

/-- A manager of no processors believes in free cores, and `begin()` has nothing to offer. -/
theorem allocate_of_empty (he : cfg.proc = []) (main : Begin) (channels stress : List Begin) :
    allocate main channels stress (initial cfg) = .error .beginOfEmptyMap := by
  have hcount : (initial cfg).freeCoreCount = 0xffffffff := by
    change cfg.physicalCoreCount' = _
    simp [physicalCoreCount', he]
  have hmap : (initial cfg).freeCoreMap = ∅ := by
    change FiniteMap.mapValues InternalPair.threads (coreTable cfg ∅) ∪ ∅ = ∅
    rw [coreTable, he]
    rfl
  simp [allocate, allocateProcessor', allocateProcessor, hcount, hmap, Begin.first, bind,
    Except.bind]

end Allocation

theorem startStressThreads_perm {n : ℕ} {ps qs : List (LogicalProcessor Mask)}
    (h : startStressThreads n ps = some qs) : qs.Subperm ps := by
  induction n generalizing ps qs with
  | zero =>
    obtain rfl : [] = qs := by simpa [startStressThreads] using h
    exact List.nil_subperm
  | succ n ih =>
    cases hl : ps.getLast? with
    | none => simp [startStressThreads, hl] at h
    | some p =>
      obtain ⟨front, rfl⟩ := List.getLast?_eq_some_iff.mp hl
      simp only [startStressThreads, hl, List.dropLast_concat, Option.map_eq_some_iff] at h
      obtain ⟨rest, hrest, rfl⟩ := h
      have hcons : (p :: rest).Subperm (p :: front) := (List.subperm_cons p).mpr (ih hrest)
      exact hcons.trans (List.perm_append_singleton p front).symm.subperm

theorem runArm_subperm {numChannels nStress : ℕ} {a : Allocation Mask} {arm : Arm Mask}
    (h : runArm numChannels nStress a = some arm) :
    arm.measurement.Sublist a.channelCores ∧
      (arm.measurement ++ arm.stress).Subperm (a.channelCores ++ a.stressThreads) := by
  by_cases hn : a.channelCores.length < numChannels
  · simp [runArm, hn] at h
  · rw [runArm, if_neg hn] at h
    obtain ⟨stress, hs, rfl⟩ := Option.map_eq_some_iff.mp h
    have hsub : stress.Subperm a.stressThreads := by
      split at hs
      · obtain rfl := Option.some.inj hs
        exact List.nil_subperm
      · exact startStressThreads_perm hs
    have htake := List.take_sublist numChannels a.channelCores
    exact ⟨htake, htake.subperm.append hsub⟩

end Tailslayer.Benchmark
