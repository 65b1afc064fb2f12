import Tailslayer.Foundations.Run
import Tailslayer.HedgedReader.Acquisition
import Tailslayer.HedgedReader.PageBounds
import Tailslayer.Memory.Privilege

/-! Several readers in one process, over their whole lives: constructors, inserts and destructors in
any order, on one memory and one process token. -/
namespace Tailslayer.HedgedReader

open Memory Blocks ByteMemory
open LockMemory (Win32 setLockMemoryPrivilege)

/-- What the system answers while a reader is constructed. -/
structure Answers where
  token : Win32
  windows : Windows
  rescan : Virt2Phys
  fuel : ℕ

/-- A reader, and `m_alloc`. -/
structure Object where
  cfg : Config
  reader : HedgedReader cfg
  alloc : AllocationRequest

structure Process where
  lock : LockMemory.State
  mem : ByteMemory
  object : ℕ → Option Object
  calls : List HeapCall

inductive Operation
  | construct (name : ℕ) (cfg : Config) (answers : Answers)
  | insert (name : ℕ) (val : ℕ → UInt8)
  | destroy (name : ℕ) (token : Win32)

def Process.initial (mem : ByteMemory) : Process := ⟨.initial, mem, fun _ => none, []⟩

def Process.setObject (s : Process) (name : ℕ) (o : Option Object) : Process :=
  { s with object := Function.update s.object name o }

/-- The constructor with the calls that `setup_memory` makes; `none` if the fuel runs out. -/
def Process.construct (s : Process) (name : ℕ) (cfg : Config) (answers : Answers) :
    Option (Except Fault Process) :=
  let (privileged, lock) := setLockMemoryPrivilege answers.token true s.lock
  (acquireMemory answers.windows answers.fuel privileged answers.rescan).map fun acquired => do
    let os := acquired.region.map fun region => region.vaddr.toNat
    let (reader, mem) ← HedgedReader.construct .debug cfg os s.mem
    let s : Process := { s with lock := lock, mem := mem, calls := s.calls ++ acquired.calls }
    return s.setObject name (some ⟨cfg, reader, acquired.alloc⟩)

def Process.insert (s : Process) (name : ℕ) (o : Object) (val : ℕ → UInt8) :
    Except Fault Process := do
  let (reader, mem) ← o.reader.insert .debug s.lock.enabledLockMemoryPrivileges s.mem
    (fun i => val i)
  let s : Process := { s with mem := mem }
  return s.setObject name (some { o with reader := reader })

/-- The destructor, once its workers are joined. -/
def Process.destroy (s : Process) (name : ℕ) (o : Object) (token : Win32) : Process :=
  let (_, lock) := setLockMemoryPrivilege token false s.lock
  let s : Process := { s with lock := lock, calls := s.calls ++ freeLargePage o.alloc }
  s.setObject name none

/-- `none` when there is no such object, or already one of that name. -/
def Process.perform (s : Process) : Operation → Option (Except Fault Process)
  | .construct name cfg answers =>
    match s.object name with
    | none => s.construct name cfg answers
    | some _ => none
  | .insert name val => (s.object name).map fun o => s.insert name o val
  | .destroy name token => (s.object name).map fun o => .ok (s.destroy name o token)

def Process.Step (s : Process) (op : Operation) (t : Process) : Prop :=
  s.perform op = some (.ok t)

/-- Arguments for which a reader keeps to its page, without products that wrap. -/
structure Config.Sound (cfg : Config) : Prop where
  nonneg : 0 ≤ cfg.channelOffset
  noOverflow : cfg.NoOverflow
  memorySafe : MemorySafe cfg

/-- There are large pages, had only with the privilege enabled, and blocks do not overlap those in
use. -/
structure Answers.Documented (answers : Answers) (s : Process) : Prop where
  pageSize : answers.windows.LargePages
  blocksFit : answers.windows.BlocksFit
  fresh : ∀ memMul size, answers.windows.virtualAlloc memMul size ≠ 0 →
    ∀ name o, s.object name = some o → answers.windows.virtualAlloc memMul size ≠ o.alloc.virtaddr ∧
      ((answers.windows.virtualAlloc memMul size).toNat + size.toNat ≤ o.alloc.virtaddr.toNat ∨
        o.alloc.virtaddr.toNat + o.alloc.sizeInBytes.toNat ≤
          (answers.windows.virtualAlloc memMul size).toNat)
  privilege : (setLockMemoryPrivilege answers.token true s.lock).2.privilege ≠ .enabled →
    ∀ memMul size, answers.windows.virtualAlloc memMul size = 0

def Operation.Documented (s : Process) : Operation → Prop
  | .construct _ _ answers => answers.Documented s
  | _ => True

def Operation.Sound : Operation → Prop
  | .construct _ cfg _ => cfg.Sound
  | _ => True

/-- What the process is for: every name stands for the list of the values inserted under it. -/
abbrev Contents := ℕ → Option (List (ℕ → UInt8))

def Contents.apply (c : Contents) : Operation → Contents
  | .construct name _ _ => Function.update c name (some [])
  | .insert name val => Function.update c name ((c name).map (· ++ [val]))
  | .destroy name _ => Function.update c name none

variable {mem : ByteMemory} {s t : Process} {op : Operation} {name : ℕ} {cfg : Config}
  {answers : Answers} {o : Object}

/-- The contents after so many operations of a run. -/
def contents (E : Run Process.Step (Process.initial mem)) : ℕ → Contents
  | 0 => fun _ => none
  | n + 1 => (contents E n).apply (E.event n)

/-- The values as objects of the reader's type. -/
def Object.values (o : Object) (vals : List (ℕ → UInt8)) : List (Bytes o.cfg.sizeofT.toNat) :=
  vals.map fun val i => val i

/-! The page of a reader: all that it stores or loads lies inside. -/

theorem address_inPage (hc : cfg.ChecksHold) (hs : cfg.Sound) {r : HedgedReader cfg} {page : ℕ}
    (hr : r.SetUp page) (i : Fin cfg.N.toNat) {l : UInt64} (hl : l.toNat + 1 < r.capacity.toNat) :
    page ≤ r.address i l ∧ r.address i l + cfg.sizeofT.toNat ≤ page + 2 ^ 30 := by
  have hN : 0 < cfg.N.toNat := Nat.zero_lt_of_lt i.isLt
  have hcap := (describes_of_geometry hs.nonneg hr.geometry).capacity
  have hend := allEndBy_of_memorySafe hs.nonneg hc hr.geometry hN hs.memorySafe l.toNat
    (by rw [← hcap]; exact hl)
  apply (address_inPage_iff hs.nonneg hr i (UInt64.lt_iff_toNat_lt.mpr (by omega))).mpr
  exact (replicas_end_iff (toNat_toSizeT_lt hs.nonneg) hN).mpr hend i i.isLt

variable {r r' : HedgedReader cfg} {m m' : ByteMemory} {page : ℕ}

theorem Holds.frame {vals : List (Bytes cfg.sizeofT.toNat)} (hc : cfg.ChecksHold)
    (hs : cfg.Sound) (h : r.Holds m page vals) (hm : AgreeOn page (2 ^ 30) m m') :
    r.Holds m' page vals := by
  refine ⟨h.filled, ?_⟩
  intro w j hj
  have hcap := r.capacity.toNat_lt
  have hbound := h.filled.bound
  have hindex : (UInt64.ofNat j).toNat = j := by
    rw [UInt64.toNat_ofNat']
    exact Nat.mod_eq_of_lt (by omega)
  obtain ⟨hlo, hhi⟩ := address_inPage hc hs h.filled.setUp w (l := UInt64.ofNat j)
    (by rw [hindex]; omega)
  rw [← h.values w j hj]
  exact (hm.load_eq hlo hhi).symm

theorem agreeOn_insert {locked : Bool} {n lo k : ℕ} {val : Bytes cfg.sizeofT.toNat}
    (hc : cfg.ChecksHold) (hs : cfg.Sound) (hf : r.Filled page n)
    (hi : r.insert .debug locked m val = .ok (r', m'))
    (hapart : page + 2 ^ 30 ≤ lo ∨ lo + k ≤ page) : AgreeOn lo k m m' := by
  obtain ⟨hl, -, rfl⟩ := insert_ok hi
  have hroom := hf.index_succ_lt_iff.mp hl
  apply agreeOn_storeAll
  intro a ha
  obtain ⟨i, -, rfl⟩ := List.mem_map.mp ha
  have hin := address_inPage hc hs hf.setUp i (l := r.logicalIndex) (by rw [hf.index]; omega)
  omega

/-! The block of a reader: what `setup_memory` acquires, if the constructor returns. -/

variable {os : Windows} {fuel : ℕ} {privileged : Bool} {rescan : Virt2Phys} {a : Acquired}
  {region : PhysicalMemRegion}

theorem acquired_of_region (h : acquireMemory os fuel privileged rescan = some a)
    (hr : a.region = some region) : privileged = true ∧ ∃ l,
      allocateLargePageMin os fuel pageRequest = some l ∧ l.out.virtaddr ≠ 0 ∧
      findLargestPhysicalRegion rescan fuel l.out.virtaddr l.out.sizeInBytes l.out.pageSize 0 =
        some region ∧
      l.out.sizeInBytes ≤ region.size ∧ a = ⟨some region, l.out, l.calls⟩ := by
  rw [acquireMemory] at h
  split at h
  · cases h
    cases hr
  · next hpriv =>
    obtain ⟨l, hl, hrest⟩ := Option.bind_eq_some_iff.mp h
    refine ⟨by simpa using hpriv, l, hl, ?_⟩
    split at hrest
    · cases hrest
      cases hr
    · next hne =>
      obtain ⟨region', hscan, hend⟩ := Option.bind_eq_some_iff.mp hrest
      split at hend
      · cases hend
        cases hr
      · next hlarge =>
        cases hend
        cases hr
        exact ⟨hne, hscan, UInt64.not_lt.mp hlarge, rfl⟩

/-- The reader got the whole block, which holds its page. -/
theorem block_of_region (hpage : os.PageSizeDocumented) (hfit : os.BlocksFit)
    (h : acquireMemory os fuel privileged rescan = some a) (hr : a.region = some region) :
    region.vaddr = a.alloc.virtaddr ∧ 2 ^ 30 ≤ a.alloc.sizeInBytes.toNat ∧
      ∃ memMul, a.alloc.virtaddr = os.virtualAlloc memMul a.alloc.sizeInBytes ∧
        a.alloc.virtaddr ≠ 0 := by
  obtain ⟨-, l, hl, hne, hscan, hwhole, rfl⟩ := acquired_of_region h hr
  have ha := allocated_allocateLargePageMin hl
  obtain ⟨memMul, hsize, haddr, -, -⟩ := ha.good hne
  obtain ⟨hlarge, hinside, hblock, -⟩ := ha.region_spec hpage hfit (by decide) hne
  have hpos : 2 ^ 30 ≤ l.out.sizeInBytes.toNat := by
    have hle : 2 ^ 30 ≤ l.memBegin.size.toNat := UInt64.le_iff_toNat_le.mp hlarge
    have hend := hinside.2
    have hstart := hinside.1
    omega
  refine ⟨?_, hpos, memMul, by rw [hsize]; exact haddr, hne⟩
  change region.vaddr = l.out.virtaddr
  rcases allocAttemptSize_cases hpage memMul with hzero | ⟨hp, N, hN⟩
  · rw [hsize, hzero] at hpos
    exact absurd hpos (by decide)
  · rw [← hsize] at hN
    rw [ha.pageSize] at hscan
    have hbest := eq_best_of_scan hN hp hscan
    have hsome : region.size ≠ 0 := by
      intro hz
      rw [hz] at hwhole
      have hle : l.out.sizeInBytes.toNat ≤ 0 := UInt64.le_iff_toNat_le.mp hwhole
      omega
    rw [hbest] at hsome
    obtain ⟨hlo, hhi⟩ := inside_best hN hp hblock hsome
    rw [← hbest] at hlo hhi
    have hle : l.out.sizeInBytes.toNat ≤ region.size.toNat := UInt64.le_iff_toNat_le.mp hwhole
    exact UInt64.toNat_inj.mp (by omega)

/-- Every block that an allocation ever obtains is one that the system handed out. -/
theorem mem_calls_attemptEach {wanted : UInt64} {muls : List ℕ} {a₀ last : Attempt}
    (h : attemptEach os fuel wanted muls a₀ = some last) {v : UInt64}
    (hv : .virtualAlloc v ∈ last.calls) : .virtualAlloc v ∈ a₀.calls ∨
      ∃ memMul size, v = os.virtualAlloc memMul size := by
  induction muls generalizing a₀ with
  | nil =>
    cases h
    exact Or.inl hv
  | cons memMul muls ih =>
    obtain ⟨a₁, hstep, hrest⟩ := Option.bind_eq_some_iff.mp h
    obtain ⟨hspec, hcalls⟩ := attempt_spec hstep
    have hfirst : .virtualAlloc v ∈ a₁.calls → .virtualAlloc v ∈ a₀.calls ∨
        ∃ memMul size, v = os.virtualAlloc memMul size := by
      intro hmem
      rw [hcalls, List.mem_append, List.mem_cons] at hmem
      rcases hmem with hmem | hmem | hmem
      · exact Or.inl hmem
      · cases hmem
        exact Or.inr ⟨memMul, _, hspec.address⟩
      · split at hmem <;> simp at hmem
    split at hrest
    · rcases ih hrest with hmem | hmem
      · exact hfirst hmem
      · exact Or.inr hmem
    · cases hrest
      exact hfirst hv

theorem replay_acquired {others : Finset UInt64}
    (h : acquireMemory os fuel privileged rescan = some a) (hr : a.region = some region)
    (hnew : ∀ memMul size, os.virtualAlloc memMul size ≠ 0 →
      os.virtualAlloc memMul size ∉ others) :
    replay others (events a.calls) = some (others ∪ {a.alloc.virtaddr}) := by
  obtain ⟨-, l, hl, hne, -, -, rfl⟩ := acquired_of_region h hr
  have hlive := (allocated_allocateLargePageMin hl).live
  obtain ⟨last, hloop, he⟩ := Option.bind_eq_some_iff.mp hl
  cases he
  have hobtained : ∀ v, .obtained v ∈ events last.calls → v ∉ others := by
    intro v hv
    obtain ⟨call, hcall, he⟩ := List.mem_filterMap.mp hv
    cases call with
    | virtualFree v' => cases he
    | virtualAlloc v' =>
      simp only [HeapCall.event] at he
      split at he
      · cases he
      · next hv' =>
        cases he
        rcases mem_calls_attemptEach hloop hcall with hmem | ⟨memMul, size, rfl⟩
        · cases hmem
        · exact hnew memMul size hv'
  have hrun := (replay_union hlive (Finset.disjoint_empty_right others) hobtained).1
  rwa [Finset.union_empty, block, if_neg hne] at hrun

theorem lock_step (token : Win32) (enable : Bool) (lock : LockMemory.State) :
    LockMemory.Step lock ⟨token, enable, (setLockMemoryPrivilege token enable lock).1⟩
      (setLockMemoryPrivilege token enable lock).2 := rfl

theorem flag_of_enabled {token : Win32} {lock : LockMemory.State}
    (h : (setLockMemoryPrivilege token true lock).1 = true) :
    (setLockMemoryPrivilege token true lock).2.enabledLockMemoryPrivileges = true := by
  rcases LockMemory.step_cases (lock_step token true lock) with
    ⟨-, hf, -⟩ | ⟨heq, hflag, -⟩ | ⟨heq, -⟩ | ⟨heq, -⟩
  · exact absurd (hf.symm.trans h) Bool.false_ne_true
  · rwa [heq]
  · rw [heq]
  · rw [heq]

/-- No call clears the flag. -/
theorem flag_setLock {lock : LockMemory.State} (token : Win32) (enable : Bool)
    (h : lock.enabledLockMemoryPrivileges = true) :
    (setLockMemoryPrivilege token enable lock).2.enabledLockMemoryPrivileges = true := by
  rcases LockMemory.step_cases (lock_step token enable lock) with
    ⟨heq, -⟩ | ⟨heq, -⟩ | ⟨heq, -⟩ | ⟨heq, -⟩
  · rwa [heq]
  · rwa [heq]
  · rw [heq]
  · rw [heq]

theorem construct_step (h : s.Step (.construct name cfg answers) t) : s.object name = none ∧
    ∃ acquired region g cores, acquireMemory answers.windows answers.fuel true answers.rescan =
      some acquired ∧ acquired.region = some region ∧ cfg.ChecksHold ∧ cfg.geometry = .ok g ∧
      (setLockMemoryPrivilege answers.token true s.lock).1 = true ∧
      t = Process.setObject { s with
        lock := (setLockMemoryPrivilege answers.token true s.lock).2
        mem := fill region.vaddr.toNat 0x42 kHUGEPAGE_SIZE.toNat s.mem
        calls := s.calls ++ acquired.calls } name
          (some ⟨cfg, setUpReader g cores region.vaddr.toNat, acquired.alloc⟩) := by
  rw [Process.Step, Process.perform] at h
  cases hname : s.object name with
  | some o =>
    rw [hname] at h
    cases h
  | none =>
    rw [hname] at h
    obtain ⟨acquired, hacquired, hok⟩ := Option.map_eq_some_iff.mp h
    obtain ⟨⟨reader, mem⟩, hcon, he⟩ := Except.bind_eq_ok_iff.mp hok
    obtain ⟨hc, g, cores, page, hg, -, hpage, hr⟩ := construct_eq_ok_iff.mp hcon
    obtain ⟨region, hregion, rfl⟩ := Option.map_eq_some_iff.mp hpage
    obtain ⟨hpriv, -⟩ := acquired_of_region hacquired hregion
    rw [hpriv] at hacquired
    cases hr
    cases he
    exact ⟨rfl, acquired, region, g, cores, hacquired, hregion, hc, hg, hpriv, rfl⟩

theorem insert_step {val : ℕ → UInt8} (h : s.Step (.insert name val) t) :
    ∃ o reader mem, s.object name = some o ∧
      o.reader.insert .debug s.lock.enabledLockMemoryPrivileges s.mem (fun i => val i) =
        .ok (reader, mem) ∧
      t = Process.setObject { s with mem := mem } name (some { o with reader := reader }) := by
  obtain ⟨o, ho, hok⟩ := Option.map_eq_some_iff.mp h
  obtain ⟨⟨reader, mem⟩, hins, he⟩ := Except.bind_eq_ok_iff.mp hok
  cases he
  exact ⟨o, reader, mem, ho, hins, rfl⟩

theorem destroy_step {token : Win32} (h : s.Step (.destroy name token) t) :
    ∃ o, s.object name = some o ∧ t = s.destroy name o token := by
  obtain ⟨o, ho, he⟩ := Option.map_eq_some_iff.mp h
  cases he
  exact ⟨o, ho, rfl⟩

theorem insert_returns (s : Process) (name : ℕ) (val : ℕ → UInt8) {page : ℕ}
    (ho : s.object name = some o) (hflag : s.lock.enabledLockMemoryPrivileges = true)
    (hr : o.reader.SetUp page) (hpage : page ≠ 0)
    (hroom : o.reader.logicalIndex + 1 < o.reader.capacity) : ∃ t reader,
      s.Step (.insert name val) t ∧
        t.object = Function.update s.object name (some { o with reader := reader }) := by
  obtain ⟨⟨reader, mem'⟩, hins⟩ := insert_of_lt hr hpage hroom s.mem (fun i => val i)
  refine ⟨Process.setObject { s with mem := mem' } name (some { o with reader := reader }), reader,
    ?_, rfl⟩
  simp only [Process.Step, Process.perform, ho, Option.map_some, Process.insert, hflag, hins]
  rfl

theorem destroy_returns (s : Process) (name : ℕ) (token : Win32) (ho : s.object name = some o) :
    s.Step (.destroy name token) (s.destroy name o token) := by
  simp only [Process.Step, Process.perform, ho, Option.map_some]

theorem object_setObject {name' : ℕ} {new : Option Object} {res : Option Object}
    (h : (s.setObject name new).object name' = res) :
    name' = name ∧ new = res ∨ name' ≠ name ∧ s.object name' = res := by
  change Function.update s.object name new name' = res at h
  by_cases hn : name' = name
  · subst hn
    rw [Function.update_self] at h
    exact Or.inl ⟨rfl, h⟩
  · rw [Function.update_of_ne hn] at h
    exact Or.inr ⟨hn, h⟩

/-- Two replicas in chunks of 256 bytes. -/
def byteReplicas : Config where
  sizeofT := 1
  sizeofT_pos := byte_pos
  N := 2
  channelOffset := 256
  channelBit := 8
  numChannels := 2

theorem checksHold_byteReplicas : byteReplicas.ChecksHold := ⟨by decide, by decide⟩

theorem sound_byteReplicas : byteReplicas.Sound where
  nonneg := by decide
  noOverflow := by unfold Config.NoOverflow; decide
  memorySafe := (memorySafe_iff (by decide) checksHold_byteReplicas).mpr ⟨by decide, by decide,
    fitsPage_of_two_pow checksHold_byteReplicas (by decide) (by decide) (by decide)
      (s := 8) (by decide)⟩

/-- The first attempt obtains two pages of one gigabyte at `vaddr`. -/
def gigabytesAt (vaddr : UInt64) : Answers where
  token := .succeeding
  windows := {
    getLargePageMinimum := 0x40000000
    availablePhysicalMemory := fun _ => 42949672960
    virtualAlloc := fun memMul size => if memMul = 5 ∧ size = 0x80000000 then vaddr else 0
    virt2Phys := fun _ => some }
  rescan := some
  fuel := 3

def acquiredAt (vaddr : UInt64) : Acquired where
  region := some ⟨vaddr, vaddr, 0x80000000⟩
  alloc := ⟨vaddr, 0x80000000, 0x40000000, true⟩
  calls := [.virtualAlloc vaddr]

theorem documented_gigabytesAt {vaddr : UInt64} (hv : vaddr.toNat + 0x80000000 ≤ 2 ^ 64)
    (hflag : (setLockMemoryPrivilege .succeeding true s.lock).2.privilege = .enabled)
    (hfresh : ∀ name o, s.object name = some o → vaddr ≠ o.alloc.virtaddr ∧
      (vaddr.toNat + 0x80000000 ≤ o.alloc.virtaddr.toNat ∨
        o.alloc.virtaddr.toNat + o.alloc.sizeInBytes.toNat ≤ vaddr.toNat)) :
    (gigabytesAt vaddr).Documented s where
  pageSize := ⟨30, rfl⟩
  blocksFit := by
    intro memMul size hne
    simp only [gigabytesAt] at hne ⊢
    split at hne
    · next h =>
      rw [if_pos h, h.2]
      exact hv
    · exact (hne rfl).elim
  fresh := by
    intro memMul size hne name o ho
    simp only [gigabytesAt] at hne ⊢
    split at hne
    · next h =>
      rw [if_pos h, h.2]
      exact hfresh name o ho
    · exact (hne rfl).elim
  privilege := fun hne => (hne hflag).elim

theorem construct_returns (s : Process) (name : ℕ) (answers : Answers) {acquired : Acquired}
    (hname : s.object name = none)
    (hpriv : (setLockMemoryPrivilege answers.token true s.lock).1 = true)
    (hacq : acquireMemory answers.windows answers.fuel true answers.rescan = some acquired)
    (hregion : acquired.region = some region) (hc : cfg.ChecksHold) {g : Geometry}
    (hg : cfg.geometry = .ok g) {cores : Vector Int32 cfg.N.toNat}
    (hcores : cfg.setupReplicaCores = .ok cores) :
    ∃ t, s.Step (.construct name cfg answers) t ∧
      t.lock = (setLockMemoryPrivilege answers.token true s.lock).2 ∧
      t.object = Function.update s.object name
        (some ⟨cfg, setUpReader g cores region.vaddr.toNat, acquired.alloc⟩) := by
  have hcon : HedgedReader.construct .debug cfg (some region.vaddr.toNat) s.mem =
      .ok (setUpReader g cores region.vaddr.toNat,
        fill region.vaddr.toNat 0x42 kHUGEPAGE_SIZE.toNat s.mem) :=
    construct_eq_ok_iff.mpr ⟨hc, g, cores, region.vaddr.toNat, hg, hcores, rfl, rfl⟩
  refine ⟨Process.setObject { s with
    lock := (setLockMemoryPrivilege answers.token true s.lock).2
    mem := fill region.vaddr.toNat 0x42 kHUGEPAGE_SIZE.toNat s.mem
    calls := s.calls ++ acquired.calls } name
      (some ⟨cfg, setUpReader g cores region.vaddr.toNat, acquired.alloc⟩), ?_, ?_⟩
  · simp only [Process.Step, Process.perform, hname, Process.construct, hpriv, hacq, hregion,
      Option.map_some, hcon]
    rfl
  · exact ⟨rfl, rfl⟩

theorem acquireMemory_gigabytesAt_first :
    acquireMemory (gigabytesAt 0x10000000000).windows 3 true some =
      some (acquiredAt 0x10000000000) := by
  decide +kernel

theorem acquireMemory_gigabytesAt_second :
    acquireMemory (gigabytesAt 0x20000000000).windows 3 true some =
      some (acquiredAt 0x20000000000) := by
  decide +kernel

theorem twoReaders : ∃ E : Run Process.Step (Process.initial fun _ => 0), E.length = 4 ∧
    (∀ n, n < E.length → (E.event n).Documented (E.state n)) ∧
    (∀ n, n < E.length → (E.event n).Sound) ∧
    E.event 3 = .destroy 0 .succeeding ∧ contents E 4 1 = some [fun _ => 7] := by
  obtain ⟨g, hg⟩ : ∃ g, byteReplicas.geometry = .ok g := geometry_of_pos (by decide)
    checksHold_byteReplicas sound_byteReplicas.noOverflow (by decide)
  obtain ⟨cores, hcores⟩ : ∃ cores, byteReplicas.setupReplicaCores = .ok cores :=
    setupReplicaCores_ok (by decide)
  obtain ⟨s₁, h₁, hlock₁, hobject₁⟩ := construct_returns (.initial fun _ => 0) 0
    (gigabytesAt 0x10000000000) rfl rfl acquireMemory_gigabytesAt_first rfl
    checksHold_byteReplicas hg hcores
  obtain ⟨s₂, h₂, hlock₂, hobject₂⟩ := construct_returns s₁ 1 (gigabytesAt 0x20000000000)
    (by rw [hobject₁]; rfl) (by rw [hlock₁]; rfl) acquireMemory_gigabytesAt_second rfl
    checksHold_byteReplicas hg hcores
  have hroom : (0 : UInt64) + 1 < g.capacity := by
    rw [UInt64.lt_iff_toNat_lt, (describes_of_geometry sound_byteReplicas.nonneg hg).capacity]
    decide
  have hsecond : s₂.object 1 = some ⟨byteReplicas, setUpReader g cores 0x20000000000,
      (acquiredAt 0x20000000000).alloc⟩ := by
    rw [hobject₂]
    rfl
  have hflag : s₂.lock.enabledLockMemoryPrivileges = true := by
    rw [hlock₂, hlock₁]
    rfl
  obtain ⟨s₃, reader, h₃, hobject₃⟩ := insert_returns s₂ 1 (fun _ => 7) hsecond hflag
    (setUp_setUpReader hg cores 0x20000000000) (by decide) hroom
  have hfirst : s₃.object 0 = some ⟨byteReplicas, setUpReader g cores 0x10000000000,
      (acquiredAt 0x10000000000).alloc⟩ := by
    rw [hobject₃, hobject₂, hobject₁]
    rfl
  have h₄ := destroy_returns s₃ 0 .succeeding hfirst
  refine ⟨⟨4, fun n => match n with
      | 0 => .initial fun _ => 0
      | 1 => s₁
      | 2 => s₂
      | 3 => s₃
      | _ => s₃.destroy 0 ⟨byteReplicas, setUpReader g cores 0x10000000000,
          (acquiredAt 0x10000000000).alloc⟩ .succeeding,
    fun n => match n with
      | 0 => .construct 0 byteReplicas (gigabytesAt 0x10000000000)
      | 1 => .construct 1 byteReplicas (gigabytesAt 0x20000000000)
      | 2 => .insert 1 fun _ => 7
      | _ => .destroy 0 .succeeding, rfl, ?_⟩, rfl, ?_, ?_, rfl, rfl⟩
  · intro n hn
    match n, hn with
    | 0, _ => exact h₁
    | 1, _ => exact h₂
    | 2, _ => exact h₃
    | 3, _ => exact h₄
  · intro n hn
    match n, hn with
    | 0, _ => exact documented_gigabytesAt (by decide) rfl nofun
    | 1, _ =>
      refine documented_gigabytesAt (by decide) ?_ ?_
      · change (setLockMemoryPrivilege .succeeding true s₁.lock).2.privilege = .enabled
        rw [hlock₁]
        rfl
      · intro name o ho
        change s₁.object name = some o at ho
        rw [hobject₁] at ho
        by_cases hn : name = 0
        · subst hn
          cases ho
          exact ⟨show (0x20000000000 : UInt64) ≠ 0x10000000000 by decide,
            Or.inr (show 0x10000000000 + 0x80000000 ≤ 0x20000000000 by decide)⟩
        · rw [Function.update_of_ne hn] at ho
          cases ho
    | 2, _ => trivial
    | 3, _ => trivial
  · intro n hn
    match n, hn with
    | 0, _ => exact sound_byteReplicas
    | 1, _ => exact sound_byteReplicas
    | 2, _ => trivial
    | 3, _ => trivial

end Tailslayer.HedgedReader
