import Tailslayer.Foundations.ByteMemory

/-! `HedgedReader` (`hedged_reader.hpp`): geometry, page setup, inserts and reads. -/
namespace Tailslayer

/-- The implicit conversion of an `int` to `size_t`. -/
def toSizeT (x : Int32) : UInt64 := x.toInt64.toUInt64

def kHUGEPAGE_SIZE : UInt64 := (1 : UInt64) <<< 30

def kCORE_MEAS_B : UInt64 := 2

def kCORE_MEAS_A : Int32 := 1

namespace HedgedReader

/-- The template arguments of the reader and the arguments of its constructor. -/
structure Config where
  sizeofT : UInt64
  sizeofT_pos : 0 < sizeofT
  N : UInt64
  channelOffset : Int32
  channelBit : Int32
  numChannels : UInt64

/-- Whether `assert` is compiled in; `release` is a build with `NDEBUG`. -/
inductive Build
  | debug
  | release
  deriving DecidableEq, Repr

/-- A failed assertion, or an operation without defined behaviour. -/
inductive Fault
  | assertion (text : String)
  | divisionByZero
  | ctzOfZero
  | coreOutOfBounds
  | nullDereference
  deriving DecidableEq, Repr

def check (build : Build) (p : Prop) [Decidable p] (text : String) : Except Fault Unit :=
  if build = .debug ∧ ¬ p then .error (.assertion text) else .ok ()

def divide (a b : UInt64) : Except Fault UInt64 :=
  if b = 0 then .error .divisionByZero else .ok (a / b)

/-- `__builtin_ctzll` -/
def ctz (x : UInt64) : Except Fault UInt64 :=
  if x = 0 then .error .ctzOfZero else .ok ⟨x.toBitVec.ctz⟩

/-- What the constructor precomputes for the hot path. -/
structure Geometry where
  capacity : UInt64
  chunkShift : UInt64
  chunkMask : UInt64
  strideInElements : UInt64
  deriving DecidableEq, Repr

def Config.geometry (cfg : Config) : Except Fault Geometry := do
  let elementsPerChunk ← divide (toSizeT cfg.channelOffset) cfg.sizeofT
  let strideBytes := cfg.numChannels * toSizeT cfg.channelOffset
  let maxStrides ← divide kHUGEPAGE_SIZE strideBytes
  let shift ← ctz elementsPerChunk
  let strideInElements ← divide (cfg.numChannels * toSizeT cfg.channelOffset) cfg.sizeofT
  return {
    capacity := maxStrides * elementsPerChunk
    chunkShift := shift
    chunkMask := elementsPerChunk - 1
    strideInElements := strideInElements }

/-- `m_cores` is written at index 0 whatever `N` is. -/
def Config.setupReplicaCores (cfg : Config) : Except Fault (Vector Int32 cfg.N.toNat) :=
  if cfg.N = 0 then .error .coreOutOfBounds
  else .ok (Vector.ofFn (fun i =>
    if i.val = 0 then kCORE_MEAS_A
    else if i.val = 1 then
      if 1 < cfg.numChannels then kCORE_MEAS_B.toInt64.toInt32 else 0
    else (kCORE_MEAS_B + UInt64.ofNat i - 1).toInt64.toInt32))

end HedgedReader

/-- Pointers are addresses, with the null pointer as zero. -/
structure HedgedReader (cfg : HedgedReader.Config) extends HedgedReader.Geometry where
  replicaPage : ℕ
  logicalIndex : UInt64
  replicas : Vector ℕ cfg.N.toNat
  cores : Vector Int32 cfg.N.toNat
  deriving DecidableEq

namespace HedgedReader

variable {cfg : Config}

/-- `os` is the start of the contiguous region if all system calls succeed. -/
def setupMemory (r : HedgedReader cfg) (os : Option ℕ) (mem : ByteMemory) :
    Bool × HedgedReader cfg × ByteMemory :=
  match os with
  | none => (false, r, mem)
  | some vaddr =>
    let mem := ByteMemory.fill vaddr 0x42 kHUGEPAGE_SIZE.toNat mem
    (true, { r with
      replicaPage := vaddr
      replicas := Vector.ofFn (fun i =>
        vaddr + (UInt64.ofNat i * toSizeT cfg.channelOffset).toNat) }, mem)

/-- The constructor. Its last assertion carries the call that sets up the memory. -/
def construct (build : Build) (cfg : Config) (os : Option ℕ) (mem : ByteMemory) :
    Except Fault (HedgedReader cfg × ByteMemory) := do
  check build (toSizeT cfg.channelOffset % cfg.sizeofT = 0)
    "Channel offset must be a multiple of sizeof(T)"
  check build (cfg.N ≤ cfg.numChannels) "Can't have more replicas than memory channels"
  let geometry ← cfg.geometry
  let cores ← cfg.setupReplicaCores
  let r : HedgedReader cfg := { geometry with
    replicaPage := 0
    logicalIndex := 0
    replicas := Vector.replicate _ 0
    cores := cores }
  match build with
  | .release => return (r, mem)
  | .debug =>
    let (status, r, mem) := r.setupMemory os mem
    check build (status = true) "HedgedReader Couldn't Setup Memory Region\n"
    return (r, mem)

def size (r : HedgedReader cfg) : UInt64 := r.logicalIndex

/-- `get_next_logical_index_address` -/
def address (r : HedgedReader cfg) (replicaIdx : Fin cfg.N.toNat) (logicalIndex : UInt64) : ℕ :=
  let chunkIdx := logicalIndex >>> r.chunkShift
  let offsetInChunk := logicalIndex &&& r.chunkMask
  let elementOffset := chunkIdx * r.strideInElements + offsetInChunk
  r.replicas[replicaIdx] + elementOffset.toNat * cfg.sizeofT.toNat

/-- The stores of one insert, replica by replica. -/
def storeReplicas (r : HedgedReader cfg) (val : Bytes cfg.sizeofT.toNat) (mem : ByteMemory) :
    Except Fault ByteMemory :=
  (List.finRange cfg.N.toNat).foldlM (fun mem i =>
    if r.replicas[i] = 0 then .error .nullDereference
    else .ok (ByteMemory.store (r.address i r.logicalIndex) val mem)) mem

/-- `locked` is `g_enabledLockMemoryPrivileges`. -/
def insert (build : Build) (locked : Bool) (r : HedgedReader cfg) (mem : ByteMemory)
    (val : Bytes cfg.sizeofT.toNat) : Except Fault (HedgedReader cfg × ByteMemory) := do
  check build (locked = true) "Memory Must Not be swapped out to disk\n"
  check build (r.replicaPage ≠ 0) "Memory Allocation Must be successful\n"
  check build (r.logicalIndex + 1 < r.capacity) "Tried to insert out of bounds"
  let mem ← r.storeReplicas val mem
  return ({ r with logicalIndex := r.logicalIndex + 1 }, mem)

/-- A sequence of inserts. -/
def insertAll (build : Build) (locked : Bool) (r : HedgedReader cfg) (mem : ByteMemory)
    (vals : List (Bytes cfg.sizeofT.toNat)) : Except Fault (HedgedReader cfg × ByteMemory) :=
  vals.foldlM (fun s val => s.1.insert build locked s.2 val) (r, mem)

/-- `worker_func`: the processor it pins itself to, and the value it hands to `final_work`. -/
def workerFunc (r : HedgedReader cfg) (mem : ByteMemory) (workerIdx : Fin cfg.N.toNat)
    (readIndex : UInt64) : Int32 × Bytes cfg.sizeofT.toNat :=
  (r.cores[workerIdx], ByteMemory.load _ (r.address workerIdx readIndex) mem)

end HedgedReader

/-- `compute_channel` (`utilities.hpp`) -/
def computeChannel (physAddr : UInt64) (channelBit : Int32) : Int32 :=
  ((physAddr >>> toSizeT channelBit) &&& 1).toInt64.toInt32

end Tailslayer
