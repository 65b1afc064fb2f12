import Tailslayer.Foundations.RoundUp
import Tailslayer.Foundations.XorShift
import Tailslayer.Benchmark.ArmsServed

/-! `stress_thread`: its generator never reaches zero, and its accesses stay in the stress page. -/
namespace Tailslayer.Benchmark

open Memory

/-- What the loop of `stress_thread` reads of its context. -/
structure StressContext where
  region : UInt64
  regionSize : UInt64
  deriving DecidableEq, Repr

/-- The state of the generator in front of the loop; it depends on the context's address. -/
def initialState (address : UInt64) : UInt64 := 0xdeadbeef12345678 ^^^ address

def nextState (state : UInt64) : UInt64 :=
  let state := state ^^^ state <<< 13
  let state := state ^^^ state >>> 7
  state ^^^ state <<< 17

def StressContext.target (context : StressContext) (state : UInt64) : UInt64 :=
  let mask := (context.regionSize - 1) &&& ~~~63
  context.region + (state &&& mask)

/-- The loop, left after some rounds: the last state, and the addresses flushed and read. -/
def stressThreadLoop (context : StressContext) : ℕ → UInt64 → UInt64 × List UInt64
  | 0, state => (state, [])
  | rounds + 1, state =>
    let state := nextState state
    let (last, targets) := stressThreadLoop context rounds state
    (last, context.target state :: targets)

/-- What `stress_thread` does between `go` and `stop`. -/
def stressAccesses (address : UInt64) (context : StressContext) (rounds : ℕ) :
    UInt64 × List UInt64 :=
  stressThreadLoop context rounds (initialState address)

/-- The contexts that `start_stress_threads` fills. -/
def stressContexts (withStress : Bool) (nStress : Int32) (stressRegion : UInt64) :
    List StressContext :=
  if withStress then List.replicate nStress.toInt.toNat ⟨stressRegion, SUPERPAGE_SIZE⟩ else []

/-- Large pages and blocks start at the beginning of a cache line. -/
structure LinesAligned (os : Windows) : Prop where
  page : 64 ∣ os.getLargePageMinimum.toNat
  block : ∀ memMul size, 64 ∣ (os.virtualAlloc memMul size).toNat

/-- Every byte of the cache lines accessed is in the stress page. -/
def Confined (stressPage : UInt64) (targets : List UInt64) : Prop :=
  ∀ target ∈ targets, ∀ b : ℕ, b / 64 = target.toNat / 64 →
    stressPage.toNat ≤ b ∧ b < stressPage.toNat + SUPERPAGE_SIZE.toNat

/-- The stress page lies in the region, behind the replica page. -/
structure StressPagePlaced (mem : MemorySetup) : Prop where
  inside : mem.physContigMem.vaddr.toNat ≤ mem.stressPage.toNat ∧
    mem.stressPage.toNat + SUPERPAGE_SIZE.toNat ≤
      mem.physContigMem.vaddr.toNat + mem.physContigMem.size.toNat
  behind : mem.replicaPage.toNat + SUPERPAGE_SIZE.toNat ≤ mem.stressPage.toNat
  aligned : 64 ∣ mem.stressPage.toNat

variable {Mask : Type} {config : AppConfig Mask} {os : Windows} {virt2Phys : Virt2Phys}
  {mem mem' outMem : MemorySetup} {l : LargePage} {calls : List HeapCall} {fuel : ℕ}
  {wanted stressPage state : UInt64}

theorem nextState_injective : Function.Injective nextState := by
  have hfirst := XorShift.injective_xor_shiftLeft (k := 13) (by decide)
  have hsecond := XorShift.injective_xor_shiftRight (k := 7) (by decide)
  have hthird := XorShift.injective_xor_shiftLeft (k := 17) (by decide)
  exact hthird.comp (hsecond.comp hfirst)

theorem nextState_ne_zero (h : state ≠ 0) : nextState state ≠ 0 := by
  intro h0
  exact h (nextState_injective (h0.trans (by decide)))

theorem stressThreadLoop_ne_zero (context : StressContext) (rounds : ℕ) (h : state ≠ 0) :
    (stressThreadLoop context rounds state).1 ≠ 0 := by
  induction rounds generalizing state with
  | zero => exact h
  | succ rounds ih => exact ih (nextState_ne_zero h)

theorem toNat_offset (state : UInt64) :
    (state &&& ((SUPERPAGE_SIZE - 1) &&& ~~~63)).toNat = state.toNat % 2 ^ 30 / 64 * 64 := by
  have hmask : ((SUPERPAGE_SIZE - 1) &&& ~~~63 : UInt64) =
      (SUPERPAGE_SIZE - 1) &&& ~~~((64 : UInt64) - 1) := rfl
  have hsuper : (SUPERPAGE_SIZE - 1).toNat = 2 ^ 30 - 1 := rfl
  rw [hmask, ← UInt64.and_assoc, RoundUp.toNat_and_not_pred (k := 6) rfl, UInt64.toNat_and,
    hsuper, Nat.and_two_pow_sub_one_eq_mod]
  rfl

theorem confined_target (hpage : 64 ∣ stressPage.toNat)
    (hfit : stressPage.toNat + SUPERPAGE_SIZE.toNat ≤ 2 ^ 64) (state : UInt64) :
    Confined stressPage [StressContext.target ⟨stressPage, SUPERPAGE_SIZE⟩ state] := by
  intro target ht b hb
  obtain rfl := List.mem_singleton.mp ht
  have hsuper : SUPERPAGE_SIZE.toNat = 2 ^ 30 := rfl
  have hoff := toNat_offset state
  have hmod := Nat.mod_lt state.toNat (Nat.two_pow_pos 30)
  have htarget : (StressContext.target ⟨stressPage, SUPERPAGE_SIZE⟩ state).toNat =
      stressPage.toNat + state.toNat % 2 ^ 30 / 64 * 64 := by
    rw [StressContext.target, UInt64.toNat_add, hoff]
    change (stressPage.toNat + _) % 2 ^ 64 = _
    omega
  omega

theorem confined_stressThreadLoop (hpage : 64 ∣ stressPage.toNat)
    (hfit : stressPage.toNat + SUPERPAGE_SIZE.toNat ≤ 2 ^ 64) (rounds : ℕ) (state : UInt64) :
    Confined stressPage (stressThreadLoop ⟨stressPage, SUPERPAGE_SIZE⟩ rounds state).2 := by
  induction rounds generalizing state with
  | zero =>
    intro target ht
    cases ht
  | succ rounds ih =>
    intro target ht
    rcases List.mem_cons.mp ht with rfl | ht
    · exact confined_target hpage hfit _ _ List.mem_cons_self
    · exact ih _ target ht

theorem dvd_vaddr_region {d : ℕ} {vaddr page : UInt64} (g : LongestRun.Segment UInt64)
    (hd : d ∣ 2 ^ 64) (hv : d ∣ vaddr.toNat) (hp : d ∣ page.toNat) :
    d ∣ (region vaddr page g).vaddr.toNat := by
  unfold region
  split
  · exact Nat.dvd_zero d
  · change d ∣ (vaddr + UInt64.ofNat g.start * page).toNat
    rw [UInt64.toNat_add, UInt64.toNat_mul]
    have hmul : d ∣ (UInt64.ofNat g.start).toNat * page.toNat % 2 ^ 64 :=
      (Nat.dvd_mod_iff hd).mpr (Nat.dvd_mul_left_of_dvd hp _)
    exact (Nat.dvd_mod_iff hd).mpr (Nat.dvd_add hv hmul)

/-- The region starts on a page of its block. -/
theorem aligned_memBegin (h : l.Allocated os fuel wanted) (hpage : os.PageSizeDocumented)
    (hlines : LinesAligned os) (hne : l.out.virtaddr ≠ 0) : 64 ∣ l.memBegin.vaddr.toNat := by
  obtain ⟨memMul, hsize, haddr, hscan, _⟩ := h.good hne
  rcases allocAttemptSize_cases hpage memMul with hzero | ⟨hp, N, hN⟩
  · rw [hsize, hzero] at hscan
    rw [eq_empty_of_scan hscan]
    exact Nat.dvd_zero 64
  · rw [← hsize] at hN
    rw [eq_best_of_scan hN hp hscan]
    exact dvd_vaddr_region _ (by decide) (haddr ▸ hlines.block memMul _) hlines.page

/-- A successful `setup_replica_page` leaves the pages as they were. -/
theorem pages_setupReplicaPage (h : setupReplicaPage virt2Phys config mem = .ok (true, mem')) :
    mem'.physContigMem = mem.physContigMem ∧ mem'.replicaPage = mem.replicaPage ∧
      mem'.stressPage = mem.stressPage ∧ mem'.memory = mem.memory := by
  unfold setupReplicaPage at h
  split at h
  · cases h
  · split at h
    · cases h
    · obtain ⟨replicas, -, h⟩ := Except.bind_eq_ok_iff.mp h
      obtain ⟨status, -, h⟩ := Except.bind_eq_ok_iff.mp h
      obtain ⟨rfl, rfl⟩ := Prod.mk.inj (Except.ok.inj h)
      exact ⟨rfl, rfl, rfl, rfl⟩

/-- The memory of a successful set-up comes from one allocation. -/
theorem setupMemory_success
    (h : setupMemory os virt2Phys fuel config outMem = some (.ok (true, mem, calls))) :
    ∃ l, allocateLargePageMin os fuel (request config) = some l ∧ l.out.virtaddr ≠ 0 ∧
      mem.memory = l.out ∧ mem.physContigMem = l.memBegin ∧
      mem.replicaPage = l.memBegin.vaddr ∧
      mem.stressPage = if config.withload then l.memBegin.vaddr + SUPERPAGE_SIZE else 0 := by
  obtain ⟨l, hl, h⟩ := Option.map_eq_some_iff.mp h
  refine ⟨l, hl, ?_⟩
  unfold setupPages at h
  split at h
  · cases h
  · next hne =>
    obtain ⟨⟨status, mem'⟩, hset, h⟩ := Except.bind_eq_ok_iff.mp h
    obtain ⟨rfl, hrest⟩ := Prod.mk.inj (Except.ok.inj h)
    obtain ⟨rfl, -⟩ := Prod.mk.inj hrest
    obtain ⟨hcontig, hreplica, hstress, hmem⟩ := pages_setupReplicaPage hset
    exact ⟨hne, hmem, hcontig, hreplica, hstress⟩

theorem stressPagePlaced (hpage : os.PageSizeDocumented) (hfit : os.BlocksFit)
    (hlines : LinesAligned os) (hload : config.withload = true)
    (h : setupMemory os virt2Phys fuel config outMem = some (.ok (true, mem, calls))) :
    StressPagePlaced mem ∧ mem.stressPage.toNat + SUPERPAGE_SIZE.toNat ≤ 2 ^ 64 := by
  obtain ⟨l, hl, hne, -, hcontig, hreplica, hstress⟩ := setupMemory_success h
  have hall := allocated_allocateLargePageMin hl
  have hsize : (request config).sizeInBytes.toNat = 2 ^ 31 := by
    rw [request, hload]
    rfl
  obtain ⟨hlarge, ⟨-, hinside⟩, hblock, -⟩ :=
    hall.region_spec hpage hfit (UInt64.lt_iff_toNat_lt.mpr (hsize ▸ by decide)) hne
  have haligned := aligned_memBegin hall hpage hlines hne
  have hsuper : SUPERPAGE_SIZE.toNat = 2 ^ 30 := rfl
  rw [UInt64.le_iff_toNat_le, hsize] at hlarge
  rw [hload, if_pos rfl] at hstress
  have hpos : mem.stressPage.toNat = l.memBegin.vaddr.toNat + 2 ^ 30 := by
    rw [hstress, UInt64.toNat_add, hsuper]
    omega
  refine ⟨⟨?_, ?_, ?_⟩, ?_⟩
  · rw [hcontig]
    omega
  · rw [hreplica]
    omega
  · omega
  · omega

/-- In every round of every stress arm, the generator is not at zero and the cache lines accessed
are in the stress page; that page is part of the contiguous region, behind the replica page. -/
theorem stress_confined (hpage : os.PageSizeDocumented) (hfit : os.BlocksFit)
    (hlines : LinesAligned os) {name : ArmName} (hrun : config.runs name = true)
    (hname : name.withload = true)
    (h : setupMemory os virt2Phys fuel config outMem = some (.ok (true, mem, calls)))
    {channelCores stressThreads : List (LogicalProcessor Mask)} {c : ArmCall Mask}
    (hcall : armCall mem channelCores stressThreads name = .ok c) {context : StressContext}
    (hcontext : context ∈ stressContexts name.withload config.nStress c.stressRegion)
    {address : UInt64} (hstate : initialState address ≠ 0) (rounds : ℕ) :
    (stressAccesses address context rounds).1 ≠ 0 ∧
      Confined mem.stressPage (stressAccesses address context rounds).2 ∧
      StressPagePlaced mem ∧
      ∃ l memMul, allocateLargePageMin os fuel (request config) = some l ∧
        mem.physContigMem = l.memBegin ∧
        l.memBegin.Contiguous (os.virt2Phys memMul) l.out.pageSize := by
  have hload : config.withload = true := by
    cases name with
    | singleStress =>
      change config.singleThreadWithload = true at hrun
      simp [Arms.withload, hrun]
    | hedgedStress =>
      change config.hedgedThreadsWithload = true at hrun
      simp [Arms.withload, hrun]
    | singleQuiet | hedgedQuiet => cases hname
  obtain ⟨hplaced, hroom⟩ := stressPagePlaced hpage hfit hlines hload h
  have hregion : c.stressRegion = mem.stressPage := by
    obtain ⟨channelAddrs, -, hc⟩ := Except.bind_eq_ok_iff.mp hcall
    cases hc
    exact if_pos hname
  have hctx : context = ⟨mem.stressPage, SUPERPAGE_SIZE⟩ := by
    rw [hregion, stressContexts, if_pos hname] at hcontext
    exact List.eq_of_mem_replicate hcontext
  subst hctx
  refine ⟨stressThreadLoop_ne_zero _ rounds hstate,
    confined_stressThreadLoop hplaced.aligned hroom rounds _, hplaced, ?_⟩
  obtain ⟨l, hl, hne, -, hcontig, -⟩ := setupMemory_success h
  have hwanted : 0 < (request config).sizeInBytes := by
    rw [request, hload]
    decide
  obtain ⟨-, -, -, memMul, hpages, -⟩ :=
    (allocated_allocateLargePageMin hl).region_spec hpage hfit hwanted hne
  exact ⟨l, memMul, hl, hcontig, hpages⟩

theorem linesAligned_fortyGiB : LinesAligned (fortyGiB onePiece) where
  page := by decide
  block := by
    intro memMul size
    simp only [fortyGiB]
    split <;> decide

theorem stress_confined_allArms :
    (stressAccesses 0x7ff000 ⟨0x10040000000, SUPERPAGE_SIZE⟩ 1000).1 ≠ 0 ∧
      Confined 0x10040000000
        (stressAccesses 0x7ff000 ⟨0x10040000000, SUPERPAGE_SIZE⟩ 1000).2 ∧
      StressPagePlaced twoReplicas ∧
      ∃ l memMul, allocateLargePageMin (fortyGiB onePiece) 1025 (request allArmsConfig) = some l ∧
        twoReplicas.physContigMem = l.memBegin ∧
        l.memBegin.Contiguous ((fortyGiB onePiece).virt2Phys memMul) l.out.pageSize := by
  have hcall : armCall twoReplicas [] [] .singleStress = .ok
      (⟨.singleStress, [0x10000000000], [], [], 0x10040000000⟩ : ArmCall GroupAffinity) := rfl
  have hrun : allArmsConfig.runs .singleStress = true := rfl
  exact stress_confined (pageSizeDocumented_fortyGiB _) (blocksFit_fortyGiB _)
    linesAligned_fortyGiB hrun rfl setupMemory_allArms hcall (by decide) (by decide) 1000

end Tailslayer.Benchmark
