import Tailslayer.Benchmark.Affinity
import Tailslayer.Foundations.Phases
import Tailslayer.Foundations.ForkJoin
import Tailslayer.HedgedReader.Capacity

/-! The life of a `HedgedReader` in a debug build: inserts, the workers next to them, and the
destructor. Values are stored and read byte by byte. -/
namespace Tailslayer.HedgedReader

open Benchmark (setCurrentThreadProcessorID)
open ForkJoin (Command)
open Phases (lt_iff)
open ForkJoin.System (before_of_key)

variable {cfg : Config}

/-- Where a worker is in `worker_func`, and the bytes it has read. -/
inductive WorkerState
  | pinning
  | waiting
  | reading (index : UInt64) (bytes : List UInt8)
  | working
  | finished
  deriving DecidableEq, Repr

/-- A reader as its constructor leaves it, and what its user does with it: the inserts before and
after `start_workers`, what `wait_work` returns to each worker, if it returns, and whether
`final_work` returns. -/
structure Usage (cfg : Config) where
  page : ℕ
  oldMem : ByteMemory
  reader : HedgedReader cfg
  mem : ByteMemory
  constructed : construct .debug cfg (some page) oldMem = .ok (reader, mem)
  before : List (Bytes cfg.sizeofT.toNat)
  after : List (Bytes cfg.sizeofT.toNat)
  waitWork : Fin cfg.N.toNat → Option UInt64
  finalWork : Fin cfg.N.toNat → Bool

/-- The reader and its page, the masks that the workers installed, and the calls of `final_work`. -/
structure Shared (cfg : Config) where
  reader : HedgedReader cfg
  mem : ByteMemory
  live : Bool
  masks : List (Fin cfg.N.toNat × UInt64)
  worked : List (Fin cfg.N.toNat × List UInt8)

/-- `insert` step by step: the assertions, each byte of each replica, and the count. -/
inductive Action (cfg : Config)
  | enter (j : ℕ)
  | store (j : ℕ) (i : Fin cfg.N.toNat) (b : Fin cfg.sizeofT.toNat)
  | advance (j : ℕ)
  | free
  deriving DecidableEq

def Shared.masksOf (v : Shared cfg) (i : Fin cfg.N.toNat) : List UInt64 :=
  (v.masks.filter fun e => e.1 = i).map Prod.snd

def Shared.workedBy (v : Shared cfg) (i : Fin cfg.N.toNat) : List (List UInt8) :=
  (v.worked.filter fun e => e.1 = i).map Prod.snd

namespace Usage

def vals (usage : Usage cfg) : List (Bytes cfg.sizeofT.toNat) := usage.before ++ usage.after

def initial (usage : Usage cfg) : Shared cfg where
  reader := usage.reader
  mem := usage.mem
  live := true
  masks := []
  worked := []

/-- The byte belongs to the page. -/
def InPage (usage : Usage cfg) (a : ℕ) : Prop :=
  usage.page ≤ a ∧ a < usage.page + kHUGEPAGE_SIZE.toNat

instance (usage : Usage cfg) (a : ℕ) : Decidable (usage.InPage a) :=
  inferInstanceAs (Decidable (_ ∧ _))

/-- `worker_func`. A shift beyond the mask and a read outside of the page fault. -/
def worker (usage : Usage cfg) (i : Fin cfg.N.toNat) :
    WorkerState → Shared cfg → Option (WorkerState × Shared cfg)
  | .pinning, v =>
    (setCurrentThreadProcessorID (v.reader.cores.get i).toUInt32).map fun mask =>
      (.waiting, { v with masks := v.masks ++ [(i, mask)] })
  | .waiting, v => (usage.waitWork i).map fun index => (.reading index [], v)
  | .reading index bytes, v =>
    let a := v.reader.address i index + bytes.length
    if bytes.length = cfg.sizeofT.toNat then
      some (.working, { v with worked := v.worked ++ [(i, bytes)] })
    else if v.live = true ∧ usage.InPage a then some (.reading index (bytes ++ [v.mem a]), v)
    else none
  | .working, v => if usage.finalWork i then some (.finished, v) else none
  | .finished, _ => none

/-- The steps of `insert`, and the destructor's `freeLargePage`. A failed assertion ends the main
thread, and so does a store outside of the page. The privilege flag that `insert` asserts first has
been up since the constructor returned. -/
def act (usage : Usage cfg) : Action cfg → Shared cfg → Option (Shared cfg)
  | .enter _, v =>
    if v.reader.replicaPage ≠ 0 ∧ v.reader.logicalIndex + 1 < v.reader.capacity then some v
    else none
  | .store j i b, v => do
    let val ← usage.vals[j]?
    let a := v.reader.address i v.reader.logicalIndex + b
    if v.live = true ∧ usage.InPage a then
      some { v with mem := Function.update v.mem a (val b) }
    else none
  | .advance _, v =>
    some { v with reader := { v.reader with logicalIndex := v.reader.logicalIndex + 1 } }
  | .free, v => some { v with reader := { v.reader with replicaPage := 0 }, live := false }

/-- The bytes of a replica. -/
def stores (cfg : Config) (j : ℕ) (i : Fin cfg.N.toNat) : List (Action cfg) :=
  (List.finRange cfg.sizeofT.toNat).map fun b => .store j i b

def insertActions (cfg : Config) (j : ℕ) : List (Action cfg) :=
  .enter j :: (List.finRange cfg.N.toNat).flatMap (stores cfg j) ++ [.advance j]

def insertSteps (cfg : Config) (j : ℕ) :
    List (Command (Fin cfg.N.toNat) (Action cfg)) :=
  (insertActions cfg j).map .act

/-- A number of inserts from the given one on. -/
def inserts (cfg : Config) (first n : ℕ) :
    List (Command (Fin cfg.N.toNat) (Action cfg)) :=
  (List.range n).flatMap fun j => insertSteps cfg (first + j)

def startWorkers (cfg : Config) : List (Command (Fin cfg.N.toNat) (Action cfg)) :=
  (List.finRange cfg.N.toNat).map .spawn

/-- `~HedgedReader` -/
def destructor (cfg : Config) : List (Command (Fin cfg.N.toNat) (Action cfg)) :=
  (List.finRange cfg.N.toNat).map .join ++ [.act .free]

def main (usage : Usage cfg) : List (Command (Fin cfg.N.toNat) (Action cfg)) :=
  inserts cfg 0 usage.before.length ++ startWorkers cfg ++
    inserts cfg usage.before.length usage.after.length ++ destructor cfg

def ended : WorkerState → Bool
  | .finished => true
  | .pinning | .waiting | .reading _ _ | .working => false

/-- The inserts after `start_workers` come after the group of the workers. -/
def group (usage : Usage cfg) (j : ℕ) : ℕ := if j < usage.before.length then j else j + 1

/-- The part of the program, the replica, and the byte. -/
def key (usage : Usage cfg) : Command (Fin cfg.N.toNat) (Action cfg) → ℕ ×ₗ ℕ ×ₗ ℕ
  | .act (.enter j) => toLex (usage.group j, toLex (0, 0))
  | .act (.store j i b) => toLex (usage.group j, toLex (i.val + 1, b.val))
  | .act (.advance j) => toLex (usage.group j, toLex (cfg.N.toNat + 1, 0))
  | .spawn i => toLex (usage.before.length, toLex (0, i.val))
  | .join i => toLex (usage.vals.length + 1, toLex (0, i.val))
  | .act .free => toLex (usage.vals.length + 1, toLex (1, 0))

variable {usage : Usage cfg}

theorem group_of_lt {j : ℕ} (h : j < usage.before.length) : usage.group j = j := if_pos h

theorem group_of_le {j : ℕ} (h : usage.before.length ≤ j) : usage.group j = j + 1 :=
  if_neg (Nat.not_lt.mpr h)

theorem group_lt_iff {j j' : ℕ} : usage.group j < usage.group j' ↔ j < j' := by
  unfold group
  split <;> split <;> omega

theorem group_le {j : ℕ} (h : j < usage.vals.length) : usage.group j ≤ usage.vals.length := by
  unfold group
  split <;> omega

theorem phases_insertSteps (usage : Usage cfg) (j : ℕ) :
    Phases usage.key (usage.group j) 0 (cfg.N.toNat + 2) (insertSteps cfg j) := by
  have hstores : Phases usage.key (usage.group j) 1 (1 + cfg.N.toNat)
      ((List.finRange cfg.N.toNat).flatMap fun i => (stores cfg j i).map Command.act) := by
    refine Phases.flatMap_finRange fun i => ?_
    rw [stores, List.map_map, Nat.add_comm 1]
    exact Phases.map_finRange usage.key fun _ => rfl
  have hadvance : Phases usage.key (usage.group j) (1 + cfg.N.toNat) (cfg.N.toNat + 2)
      [.act (.advance j)] := by
    rw [Nat.add_comm 1]
    exact Phases.single usage.key rfl
  have hsplit : insertSteps cfg j = [.act (.enter j)] ++
      ((List.finRange cfg.N.toNat).flatMap fun i => (stores cfg j i).map Command.act) ++
        [.act (.advance j)] := by
    simp [insertSteps, insertActions, List.map_flatMap]
  rw [hsplit]
  exact ((Phases.single usage.key rfl).append hstores (by omega) (by omega)).append hadvance
    (by omega) (by omega)

theorem sorted_main (usage : Usage cfg) :
    usage.main.Pairwise (fun x y => usage.key x < usage.key y) := by
  have hbefore : Groups usage.key 0 (0 + usage.before.length)
      (inserts cfg 0 usage.before.length) := by
    refine Groups.flatMap_range fun j hj => ?_
    have hphases := (phases_insertSteps usage (0 + j)).groups
    rwa [group_of_lt (by omega)] at hphases
  have hstart : Groups usage.key (0 + usage.before.length) (usage.before.length + 1)
      (startWorkers cfg) := by
    rw [Nat.zero_add]
    exact (Phases.map_finRange usage.key fun _ => rfl).groups
  have hafter : Groups usage.key (usage.before.length + 1)
      (usage.before.length + 1 + usage.after.length)
      (inserts cfg usage.before.length usage.after.length) := by
    refine Groups.flatMap_range fun j hj => ?_
    have hphases := (phases_insertSteps usage (usage.before.length + j)).groups
    rwa [group_of_le (by omega), Nat.add_right_comm] at hphases
  have hdestructor : Phases usage.key (usage.vals.length + 1) 0 2 (destructor cfg) :=
    (Phases.map_finRange usage.key fun _ => rfl).append (Phases.single usage.key rfl)
      (by omega) (by omega)
  have hlast : Groups usage.key (usage.before.length + 1 + usage.after.length)
      (usage.vals.length + 1 + 1) (destructor cfg) := by
    have hlen : usage.vals.length + 1 = usage.before.length + 1 + usage.after.length := by
      rw [vals, List.length_append, Nat.add_right_comm]
    exact hlen ▸ hdestructor.groups
  exact (((hbefore.append hstart (by omega) (by omega)).append hafter (by omega)
    (by omega)).append hlast (by omega) (by simp [vals]; omega)).1

/-- The commands of the program. -/
def Issues (usage : Usage cfg) : Command (Fin cfg.N.toNat) (Action cfg) → Prop
  | .act (.enter j) | .act (.store j _ _) | .act (.advance j) => j < usage.vals.length
  | .spawn _ | .join _ | .act .free => True

theorem mem_insertSteps {j : ℕ} {x : Command (Fin cfg.N.toNat) (Action cfg)} :
    x ∈ insertSteps cfg j ↔ x = .act (.enter j) ∨ x = .act (.advance j) ∨
      ∃ i b, x = .act (.store j i b) := by
  rw [insertSteps, List.mem_map]
  simp only [insertActions, stores, List.mem_append, List.mem_cons, List.mem_flatMap,
    List.mem_map, List.mem_finRange, true_and, List.not_mem_nil, or_false]
  constructor
  · rintro ⟨a, (rfl | ⟨i, b, rfl⟩) | rfl, rfl⟩
    · exact .inl rfl
    · exact .inr (.inr ⟨i, b, rfl⟩)
    · exact .inr (.inl rfl)
  · rintro (rfl | rfl | ⟨i, b, rfl⟩)
    · exact ⟨_, .inl (.inl rfl), rfl⟩
    · exact ⟨_, .inr rfl, rfl⟩
    · exact ⟨_, .inl (.inr ⟨i, b, rfl⟩), rfl⟩

/-- The inserts of the program are those of the values. -/
theorem mem_inserts {x : Command (Fin cfg.N.toNat) (Action cfg)} :
    x ∈ inserts cfg 0 usage.before.length ∨
        x ∈ inserts cfg usage.before.length usage.after.length ↔
      ∃ j < usage.vals.length, x ∈ insertSteps cfg j := by
  simp only [inserts, List.mem_flatMap, List.mem_range, Nat.zero_add, vals, List.length_append]
  constructor
  · rintro (⟨j, hj, hx⟩ | ⟨j, hj, hx⟩)
    · exact ⟨j, by omega, hx⟩
    · exact ⟨usage.before.length + j, by omega, hx⟩
  · rintro ⟨j, hj, hx⟩
    rcases Nat.lt_or_ge j usage.before.length with hlt | hge
    · exact .inl ⟨j, hlt, hx⟩
    · refine .inr ⟨j - usage.before.length, by omega, ?_⟩
      rwa [Nat.add_sub_cancel' hge]

theorem mem_main {x : Command (Fin cfg.N.toNat) (Action cfg)} :
    x ∈ usage.main ↔ usage.Issues x := by
  have hsplit : x ∈ usage.main ↔ (∃ j < usage.vals.length, x ∈ insertSteps cfg j) ∨
      x ∈ startWorkers cfg ∨ x ∈ destructor cfg := by
    rw [← mem_inserts]
    simp only [main, List.mem_append]
    tauto
  rw [hsplit]
  simp only [mem_insertSteps]
  rcases x with i | i | (j | ⟨j, i, b⟩ | j | _) <;> simp [startWorkers, destructor, Issues]

theorem worker_of_ended (usage : Usage cfg) (i : Fin cfg.N.toNat) (x : WorkerState)
    (v : Shared cfg) (h : ended x = true) : usage.worker i x v = none := by
  cases x with
  | finished => rfl
  | pinning | waiting | reading | working => cases h

def system (usage : Usage cfg) : ForkJoin.System (Fin cfg.N.toNat) (Action cfg)
    (Shared cfg) (fun _ => WorkerState) where
  program := usage.main
  act := usage.act
  entry _ := .pinning
  ended _ := ended
  work := usage.worker
  nodup := (sorted_main usage).imp fun h he => absurd (he ▸ h) (lt_irrefl _)
  work_of_ended := usage.worker_of_ended

abbrev State (cfg : Config) : Type :=
  ForkJoin.State (Fin cfg.N.toNat) (Shared cfg) (fun _ => WorkerState)

/-- The states of all interleavings of the main thread and the workers. -/
abbrev Reaches (usage : Usage cfg) : State cfg → Prop := usage.system.Reaches usage.initial

/-- The commands of the main thread that are done. -/
abbrev executed (usage : Usage cfg) (s : State cfg) :
    List (Command (Fin cfg.N.toNat) (Action cfg)) :=
  usage.system.executed s

inductive WorkerEffect (usage : Usage cfg) (i : Fin cfg.N.toNat) (v : Shared cfg) :
    WorkerState → WorkerState → Shared cfg → Prop
  | pins {mask : UInt64}
    (installed : setCurrentThreadProcessorID (v.reader.cores.get i).toUInt32 = some mask) :
    WorkerEffect usage i v .pinning .waiting { v with masks := v.masks ++ [(i, mask)] }
  | waits {index : UInt64} (returns : usage.waitWork i = some index) :
    WorkerEffect usage i v .waiting (.reading index []) v
  | reads {index : UInt64} {bytes : List UInt8} (more : bytes.length ≠ cfg.sizeofT.toNat)
    (live : v.live = true) (inPage : usage.InPage (v.reader.address i index + bytes.length)) :
    WorkerEffect usage i v (.reading index bytes)
      (.reading index (bytes ++ [v.mem (v.reader.address i index + bytes.length)])) v
  | works {index : UInt64} {bytes : List UInt8} (complete : bytes.length = cfg.sizeofT.toNat) :
    WorkerEffect usage i v (.reading index bytes) .working
      { v with worked := v.worked ++ [(i, bytes)] }
  | returns (done : usage.finalWork i = true) : WorkerEffect usage i v .working .finished v

inductive ActionEffect (usage : Usage cfg) (v : Shared cfg) : Action cfg → Shared cfg → Prop
  | enter {j : ℕ} (page : v.reader.replicaPage ≠ 0)
    (room : v.reader.logicalIndex + 1 < v.reader.capacity) : ActionEffect usage v (.enter j) v
  | store {j : ℕ} {i : Fin cfg.N.toNat} {b : Fin cfg.sizeofT.toNat}
    {val : Bytes cfg.sizeofT.toNat} (value : usage.vals[j]? = some val) (live : v.live = true)
    (inPage : usage.InPage (v.reader.address i v.reader.logicalIndex + b)) :
    ActionEffect usage v (.store j i b) { v with
      mem := Function.update v.mem (v.reader.address i v.reader.logicalIndex + b) (val b) }
  | advance {j : ℕ} : ActionEffect usage v (.advance j)
      { v with reader := { v.reader with logicalIndex := v.reader.logicalIndex + 1 } }
  | free : ActionEffect usage v .free
      { v with reader := { v.reader with replicaPage := 0 }, live := false }

variable {i : Fin cfg.N.toNat} {v u : Shared cfg} {pc pc' : WorkerState} {a : Action cfg}

theorem effect_of_worker (h : usage.system.work i pc v = some (pc', u)) :
    usage.WorkerEffect i v pc pc' u := by
  change usage.worker i pc v = _ at h
  cases pc with
  | pinning =>
    obtain ⟨mask, hmask, h⟩ := Option.map_eq_some_iff.mp h
    cases h
    exact .pins hmask
  | waiting =>
    obtain ⟨index, hindex, h⟩ := Option.map_eq_some_iff.mp h
    cases h
    exact .waits hindex
  | reading index bytes =>
    simp only [worker] at h
    split at h
    · next hcomplete =>
      cases h
      exact .works hcomplete
    · next hmore =>
      split at h
      · next haccess =>
        cases h
        exact .reads hmore haccess.1 haccess.2
      · cases h
  | working =>
    simp only [worker] at h
    split at h
    · next hdone =>
      cases h
      exact .returns hdone
    · cases h
  | finished => cases h

theorem effect_of_act (h : usage.system.act a v = some u) : usage.ActionEffect v a u := by
  change usage.act a v = _ at h
  cases a with
  | enter j =>
    simp only [act] at h
    split at h
    · next hchecks =>
      cases h
      exact .enter hchecks.1 hchecks.2
    · cases h
  | store j i b =>
    obtain ⟨val, hval, h⟩ := Option.bind_eq_some_iff.mp h
    simp only at h
    split at h
    · next haccess =>
      cases h
      exact .store hval haccess.1 haccess.2
    · cases h
  | advance j =>
    cases h
    exact .advance
  | free =>
    cases h
    exact .free

/-! Without a worker in between, the steps of an insert are `insert`. -/

theorem foldlM_stores {j : ℕ} {val : Bytes cfg.sizeofT.toNat} (hval : usage.vals[j]? = some val)
    (hlive : v.live = true) (hpage : ∀ b : Fin cfg.sizeofT.toNat,
      usage.InPage (v.reader.address i v.reader.logicalIndex + b)) :
    (stores cfg j i).foldlM (fun v a => usage.act a v) v = some { v with
      mem := ByteMemory.store (v.reader.address i v.reader.logicalIndex) val v.mem } := by
  have hbytes : ∀ (bs : List (Fin cfg.sizeofT.toNat)) (m : ByteMemory),
      (bs.map fun b => Action.store j i b).foldlM (fun v a => usage.act a v) { v with mem := m } =
        some { v with mem := bs.foldl (fun m (b : Fin cfg.sizeofT.toNat) =>
          Function.update m (v.reader.address i v.reader.logicalIndex + b) (val b)) m } := by
    intro bs
    induction bs with
    | nil => exact fun m => rfl
    | cons b bs ih =>
      intro m
      have hstore : usage.act (.store j i b) { v with mem := m } = some { v with
          mem := Function.update m (v.reader.address i v.reader.logicalIndex + b) (val b) } := by
        simp only [act, hval, Option.bind_eq_bind, Option.bind_some, hlive, hpage b, and_self,
          if_true]
      rw [List.map_cons, List.foldlM_cons, hstore]
      exact ih _
  rw [ByteMemory.store_eq_foldl]
  exact hbytes _ v.mem

theorem foldlM_replicas {j : ℕ} {val : Bytes cfg.sizeofT.toNat}
    (hval : usage.vals[j]? = some val) (is : List (Fin cfg.N.toNat)) (hlive : v.live = true)
    (hpage : ∀ i, ∀ b : Fin cfg.sizeofT.toNat,
      usage.InPage (v.reader.address i v.reader.logicalIndex + b)) :
    (is.flatMap (stores cfg j)).foldlM (fun v a => usage.act a v) v = some { v with
      mem := ByteMemory.storeAll (is.map fun i => v.reader.address i v.reader.logicalIndex)
        val v.mem } := by
  induction is generalizing v with
  | nil => rfl
  | cons i is ih =>
    rw [List.flatMap_cons, List.foldlM_append, foldlM_stores hval hlive (hpage i)]
    exact ih hlive hpage

theorem foldlM_insertActions {j : ℕ} {val : Bytes cfg.sizeofT.toNat}
    (hval : usage.vals[j]? = some val) (hlive : v.live = true)
    (hpage : ∀ i, ∀ b : Fin cfg.sizeofT.toNat,
      usage.InPage (v.reader.address i v.reader.logicalIndex + b))
    {r : HedgedReader cfg} {m : ByteMemory}
    (h : v.reader.insert .debug true v.mem val = .ok (r, m)) :
    (insertActions cfg j).foldlM (fun v a => usage.act a v) v =
      some { v with reader := r, mem := m } := by
  obtain ⟨hroom, rfl, rfl⟩ := insert_ok h
  have hne : v.reader.replicaPage ≠ 0 := by
    obtain ⟨_, -, h⟩ := Except.bind_eq_ok_iff.mp h
    obtain ⟨_, hcheck, -⟩ := Except.bind_eq_ok_iff.mp h
    exact check_eq_ok_iff.mp hcheck
  have henter : usage.act (.enter j) v = some v := if_pos ⟨hne, hroom⟩
  rw [insertActions, List.foldlM_append, List.foldlM_cons, henter, Option.bind_eq_bind,
    Option.bind_some, foldlM_replicas hval _ hlive hpage]
  rfl

end Usage

end Tailslayer.HedgedReader
