import Tailslayer.Benchmark.ArmsServed

/-! The calls that obtain and release memory in a whole run of the benchmark's `main`. -/
namespace Tailslayer.Benchmark

open Blocks DynamicThreadManager Memory
open HedgedReader (Build)

variable {Mask : Type} [Inhabited Mask]

/-- A run that never reaches the end of `main`. -/
inductive Crash
  | setup (f : SetupFault)
  | execution (s : Stop)
  deriving DecidableEq, Repr

/-- `main` after `parse_cli`, with its exit status and its calls. `ready` is whether
`setup_environment` succeeds; `execute_benchmarks` obtains and releases no block. -/
def main (ready : Bool) (os : Windows) (virt2Phys : Virt2Phys) (fuel : ℕ) (build : Build)
    (orders : Orders) (config : AppConfig Mask) : Option (Except Crash (ℕ × List HeapCall)) :=
  if ready = false then some (.ok (1, destroyEnvironment .fresh))
  else (setupMemory os virt2Phys fuel config .fresh).map (fun result => do
    let (status, mem, calls) ← result.mapError .setup
    if status = false then return (1, calls ++ destroyEnvironment mem)
    else
      let _ ← (executeBenchmarks build orders config mem).mapError .execution
      return (0, calls ++ destroyEnvironment mem))

variable {ready : Bool} {os : Windows} {virt2Phys : Virt2Phys} {fuel : ℕ} {build : Build}
  {orders : Orders} {config : AppConfig Mask} {status : ℕ} {calls : List HeapCall}
  {mem : MemorySetup} {l : LargePage}

omit [Inhabited Mask] in
/-- The block is obtained, and the address of some replica is not translated. -/
def TranslationFails (ready : Bool) (os : Windows) (virt2Phys : Virt2Phys) (fuel : ℕ)
    (config : AppConfig Mask) : Prop :=
  ready = true ∧ ∃ l, allocateLargePageMin os fuel (request config) = some l ∧
    l.out.virtaddr ≠ 0 ∧ ∃ i : ℕ, (i : ℤ) < config.nChannels.toInt ∧
      ∃ a, replicaAddress config.channelOffset l.memBegin.vaddr i = .ok a ∧
        Unresolved virt2Phys a

theorem replay_destroyEnvironment (mem : MemorySetup) :
    replay (block mem.memory.virtaddr) (events (destroyEnvironment mem)) = some ∅ := by
  by_cases h : mem.memory.virtaddr = 0
  · simp [destroyEnvironment, h, block, events]
  · rw [destroyEnvironment, if_pos h]
    exact replay_freeLargePage mem.memory

/-- The address of a block that is no longer live is released again. -/
theorem replay_destroyEnvironment_released (h : mem.memory.virtaddr ≠ 0) :
    replay ∅ (events (destroyEnvironment mem)) = none := by
  rw [destroyEnvironment, if_pos h, freeLargePage, if_neg h]
  exact replay_released_empty mem.memory.virtaddr

/-- What `setup_memory` leaves: the block is live exactly when it succeeds, but its address is there
for `destroy_environment` in either case. -/
structure PagesSet (virt2Phys : Virt2Phys) (config : AppConfig Mask) (l : LargePage)
    (status : Bool) (mem : MemorySetup) (calls : List HeapCall) : Prop where
  live : replay ∅ (events calls) = some (if status then block l.out.virtaddr else ∅)
  address : mem.memory.virtaddr = l.out.virtaddr
  resolved : status = false ↔ l.out.virtaddr = 0 ∨ ∃ i : ℕ, (i : ℤ) < config.nChannels.toInt ∧
    ∃ a, replicaAddress config.channelOffset l.memBegin.vaddr i = .ok a ∧ Unresolved virt2Phys a

omit [Inhabited Mask] in
theorem pagesSet_setupPages {wanted : UInt64} {status : Bool} (hl : l.Allocated os fuel wanted)
    (h : setupPages virt2Phys config .fresh l = .ok (status, mem, calls)) :
    PagesSet virt2Phys config l status mem calls := by
  unfold setupPages at h
  split at h
  · next hnull =>
    cases h
    refine ⟨?_, hnull.symm, by simp [hnull]⟩
    rw [hl.live, hnull]
    rfl
  · next hne =>
    obtain ⟨⟨status', mem'⟩, hset, h⟩ := Except.bind_eq_ok_iff.mp h
    cases h
    have hreplicas := replicasSet_setupReplicaPage hset
    have haddr : mem.memory.virtaddr = l.out.virtaddr :=
      congrArg AllocationRequest.virtaddr hreplicas.memory
    refine ⟨?_, haddr, ?_⟩
    · rw [events_append, replay_append, hl.live, Option.bind_some]
      cases status with
      | true => rfl
      | false =>
        rw [← haddr]
        exact replay_freeLargePage mem.memory
    · rw [hreplicas.resolved]
      have hlen := hreplicas.length
      constructor
      · rintro ⟨a, ha, hun⟩
        obtain ⟨i, hi, rfl⟩ := List.mem_iff_getElem.mp ha
        exact Or.inr ⟨i, by omega, _, hreplicas.address i hi, hun⟩
      · rintro (hnull | ⟨i, hi, a, ha, hun⟩)
        · exact absurd hnull hne
        · have hi' : i < mem.replicas.length := by omega
          have heq := (hreplicas.address i hi').symm.trans ha
          exact ⟨a, Except.ok.inj heq ▸ List.getElem_mem hi', hun⟩

omit [Inhabited Mask] in
theorem translationFails_iff {ok : Bool} {calls' : List HeapCall}
    (hl : allocateLargePageMin os fuel (request config) = some l)
    (hset : PagesSet virt2Phys config l ok mem calls') :
    TranslationFails true os virt2Phys fuel config ↔ ok = false ∧ l.out.virtaddr ≠ 0 := by
  constructor
  · rintro ⟨-, l', hl', hne, hun⟩
    obtain rfl := Option.some.inj (hl.symm.trans hl')
    exact ⟨hset.resolved.mpr (Or.inr hun), hne⟩
  · rintro ⟨hok, hne⟩
    rcases hset.resolved.mp hok with hnull | hun
    · exact absurd hnull hne
    · exact ⟨rfl, l, hl, hne, hun⟩

omit [Inhabited Mask] in
/-- `destroy_environment` releases the block that `setup_memory` leaves, and one that it has
already released as well. -/
theorem releasedOnce_destroyed {ok : Bool} {calls' : List HeapCall}
    (hset : PagesSet virt2Phys config l ok mem calls') :
    ReleasedOnce (events (calls' ++ destroyEnvironment mem)) ↔
      ¬ (ok = false ∧ l.out.virtaddr ≠ 0) := by
  have hdone := replay_destroyEnvironment mem
  rw [hset.address] at hdone
  rw [ReleasedOnce, events_append, replay_append, hset.live, Option.bind_some]
  cases ok with
  | true => simp [hdone]
  | false =>
    by_cases hnull : l.out.virtaddr = 0
    · rw [hnull] at hdone
      have hblock : block 0 = ∅ := rfl
      rw [hblock] at hdone
      simpa [hnull] using hdone
    · have hagain : replay ∅ (events (destroyEnvironment mem)) = none :=
        replay_destroyEnvironment_released (hset.address ▸ hnull)
      simp [hagain, hnull]

/-- For every configuration, every outcome of the calls and every end of `main`: its blocks are
released once exactly when no translation of a replica's address fails. -/
theorem releasedOnce_iff
    (h : main ready os virt2Phys fuel build orders config = some (.ok (status, calls))) :
    ReleasedOnce (events calls) ↔ ¬ TranslationFails ready os virt2Phys fuel config := by
  unfold main at h
  cases ready with
  | false =>
    cases h
    constructor
    · rintro _ ⟨hready, -⟩
      cases hready
    · intro _
      rfl
  | true =>
    simp only [Bool.true_eq_false, if_false] at h
    obtain ⟨result, hresult, h⟩ := Option.map_eq_some_iff.mp h
    obtain ⟨l, hl, rfl⟩ := Option.map_eq_some_iff.mp hresult
    obtain ⟨⟨ok, mem, calls'⟩, hpages, h⟩ := Except.bind_eq_ok_iff.mp h
    have hset := pagesSet_setupPages (allocated_allocateLargePageMin hl)
      (Except.mapError_eq_ok_iff.mp hpages)
    have hcalls : calls = calls' ++ destroyEnvironment mem := by
      cases ok with
      | false =>
        cases h
        rfl
      | true =>
        obtain ⟨e, -, h⟩ := Except.bind_eq_ok_iff.mp h
        cases h
        rfl
    rw [hcalls, releasedOnce_destroyed hset, translationFails_iff hl hset]

/-- The default options, on a machine that translates no address of a replica. -/
theorem main_untranslated :
    main true (fortyGiB onePiece) (fun _ => none) 1025 .debug largest allArmsConfig =
      some (.ok (1, [.virtualAlloc 0x10000000000, .virtualFree 0x10000000000,
        .virtualFree 0x10000000000])) := by
  have hrequest : request allArmsConfig = .ofSize 0x80000000 := by decide
  rw [main, setupMemory, hrequest, allocateLargePageMin_onePiece]
  rfl

theorem releasedOnce_iff_untranslated :
    ReleasedOnce (events [.virtualAlloc 0x10000000000, .virtualFree 0x10000000000,
      .virtualFree 0x10000000000]) ↔
        ¬ TranslationFails true (fortyGiB onePiece) (fun _ => none) 1025 allArmsConfig :=
  releasedOnce_iff main_untranslated

/-- The block is released by `setup_memory` and again by `destroy_environment`. -/
theorem not_releasedOnce : ¬ ∀ (ready : Bool) (os : Windows) (virt2Phys : Virt2Phys) (fuel : ℕ)
    (build : Build) (orders : Orders) (config : AppConfig GroupAffinity) (status : ℕ)
    (calls : List HeapCall),
    main ready os virt2Phys fuel build orders config = some (.ok (status, calls)) →
    ReleasedOnce (events calls) := by
  intro h
  exact absurd (h _ _ _ _ _ _ _ _ _ main_untranslated) (by decide)

end Tailslayer.Benchmark
