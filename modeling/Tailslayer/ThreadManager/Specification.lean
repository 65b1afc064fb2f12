import Tailslayer.Foundations.FiniteMap
import Tailslayer.Foundations.Run
import Tailslayer.Processor

/-! The operations of `DynamicThreadManager` (`proc.hpp`, `proc.cpp`), with their faults. -/
namespace Tailslayer

open FiniteMap

abbrev ThreadIdxList := List UInt32

abbrev ProcMap := Map UInt64 ThreadIdxList

/-- `InternalPair`: a core's thread count next to the indices of its threads. -/
structure InternalPair where
  threadCount : UInt32
  threads : ThreadIdxList
  deriving DecidableEq, Repr, Inhabited

/-- The accesses that would be undefined behaviour. -/
inductive Fault
  | beginOfEmptyMap
  | backOfEmptyList
  | indexOutsideMap
  deriving DecidableEq, Repr

/-- One resolution of the unspecified order of `unordered_map`: the entry `begin()` picks. -/
structure Begin where
  pick : ProcMap → UInt64
  pick_mem : ∀ m, m ≠ ∅ → pick m ∈ m

def Begin.first (b : Begin) (m : ProcMap) : Except Fault UInt64 :=
  if m = ∅ then .error .beginOfEmptyMap else .ok (b.pick m)

/-- `m_map.data()[idx]` -/
def ProcessorConfigurationVector.at {Mask : Type} (cfg : ProcessorConfigurationVector Mask)
    (idx : UInt32) : Except Fault (LogicalProcessor Mask) :=
  match cfg.proc[idx.toNat]? with
  | some p => .ok p
  | none => .error .indexOutsideMap

@[ext] structure DynamicThreadManager (Mask : Type) where
  map : ProcessorConfigurationVector Mask
  coreToThreadMapIdx : Map UInt64 InternalPair
  partiallyFreeCoreMap : ProcMap
  freeCoreMap : ProcMap
  freeThreadCount : UInt32
  freeCoreCount : UInt32

namespace DynamicThreadManager

variable {Mask : Type}

/-- A default-constructed manager; its two counters are indeterminate until initialization. -/
def fresh (threads cores : UInt32) : DynamicThreadManager Mask where
  map := ⟨[], 0, 0, 0⟩
  coreToThreadMapIdx := ∅
  partiallyFreeCoreMap := ∅
  freeCoreMap := ∅
  freeThreadCount := threads
  freeCoreCount := cores

/-- The body of the loop that assigns threads to their unique core. -/
def InternalPair.pushThread (core : InternalPair) (i : ℕ) : InternalPair :=
  { core with threads := core.threads ++ [UInt32.ofNat i] }

/-- The result of the two loops over `m_coreToThreadMapIdx`. -/
def coreTable (cfg : ProcessorConfigurationVector Mask) (m : Map UInt64 InternalPair) :
    Map UInt64 InternalPair :=
  mapValues (fun core => { core with threadCount := UInt32.ofNat core.threads.length })
    (collect (fun p => p.1.uniqueCoreID) (fun core p => InternalPair.pushThread core p.2)
      cfg.proc.zipIdx m)

/-- `initialize(existingConfig)`: the overload that copies a given configuration. -/
def initializeFrom (s : DynamicThreadManager Mask)
    (existingConfig : ProcessorConfigurationVector Mask) : Bool × DynamicThreadManager Mask :=
  if s.map.proc ≠ [] then (false, s)
  else
    let cores := coreTable existingConfig s.coreToThreadMapIdx
    (true, { s with
      map := existingConfig
      coreToThreadMapIdx := cores
      freeCoreMap := mapValues InternalPair.threads cores ∪ s.freeCoreMap
      freeThreadCount := existingConfig.logicalCoreCount
      freeCoreCount := existingConfig.physicalCoreCount' })

def freeThreads (s : DynamicThreadManager Mask) : UInt32 := s.freeThreadCount

def freeCores (s : DynamicThreadManager Mask) : UInt32 := s.freeCoreCount

/-- `allocateProcessor(out)`: hands out every thread of one completely free core. -/
def allocateProcessor (b : Begin) (s : DynamicThreadManager Mask)
    (out : List (LogicalProcessor Mask)) :
    Except Fault (Bool × List (LogicalProcessor Mask) × DynamicThreadManager Mask) :=
  if s.freeCoreCount = 0 then .ok (false, out, s)
  else do
    let key ← b.first s.freeCoreMap
    let (out, freeThreadCount) ← (value key s.freeCoreMap).foldlM
      (fun acc mapIdx => do
        let p ← s.map.at mapIdx
        return (acc.1 ++ [p], acc.2 - 1)) (out, s.freeThreadCount)
    return (true, out, { s with
      freeCoreMap := s.freeCoreMap.erase key
      freeThreadCount := freeThreadCount
      freeCoreCount := s.freeCoreCount - 1 })

/-- `allocateProcessor()`: the first thread of the core, or the sentinel. -/
def allocateProcessor' [Inhabited Mask] (b : Begin) (s : DynamicThreadManager Mask) :
    Except Fault (LogicalProcessor Mask × DynamicThreadManager Mask) := do
  let (status, result, s) ← s.allocateProcessor b []
  if status then
    match result with
    | [] => .error .indexOutsideMap
    | p :: _ => return (p, s)
  else return (.sentinel, s)

def freeProcessor [Inhabited Mask] (s : DynamicThreadManager Mask) (coreID : UInt32)
    (packageID : UInt16) : DynamicThreadManager Mask :=
  let tmp : LogicalProcessor Mask := ⟨0xffffffff, coreID, packageID, 1, default⟩
  let tmpID := tmp.uniqueCoreID
  if size s.freeCoreMap = size s.coreToThreadMapIdx ∨ tmpID ∈ s.freeCoreMap then s
  else
    let core := value tmpID s.coreToThreadMapIdx
    { s with
      coreToThreadMapIdx := touch tmpID s.coreToThreadMapIdx
      partiallyFreeCoreMap := s.partiallyFreeCoreMap.erase tmpID
      freeCoreMap := s.freeCoreMap.insert tmpID core.threads
      freeThreadCount := s.freeThreadCount + core.threadCount
      freeCoreCount := s.freeCoreCount + 1 }

/-- The part of `allocateThread` that moves a free core to the partially free ones. -/
def openCore (b : Begin) (s : DynamicThreadManager Mask) :
    Except Fault (DynamicThreadManager Mask) := do
  let key ← b.first s.freeCoreMap
  return { s with
    partiallyFreeCoreMap := s.partiallyFreeCoreMap.insert key (value key s.freeCoreMap)
    freeCoreMap := s.freeCoreMap.erase key
    freeCoreCount := s.freeCoreCount - 1 }

/-- The part of `allocateThread` that takes the last index of a partially free core. -/
def takeThread (b : Begin) (s : DynamicThreadManager Mask) :
    Except Fault (LogicalProcessor Mask × DynamicThreadManager Mask) := do
  let key ← b.first s.partiallyFreeCoreMap
  match (value key s.partiallyFreeCoreMap).getLast? with
  | none => .error .backOfEmptyList
  | some idx =>
    let popped := adjust key List.dropLast s.partiallyFreeCoreMap
    let left := if (value key popped).length = 0 then popped.erase key else popped
    let p ← s.map.at idx
    return (p, { s with
      partiallyFreeCoreMap := left
      freeThreadCount := s.freeThreadCount - 1 })

def allocateThread [Inhabited Mask] (b : Begin) (s : DynamicThreadManager Mask) :
    Except Fault (LogicalProcessor Mask × DynamicThreadManager Mask) :=
  if s.freeThreadCount = 0 then .ok (.sentinel, s)
  else if s.partiallyFreeCoreMap = ∅ then
    if s.freeCoreMap = ∅ then .ok (.sentinel, s)
    else do
      let s ← s.openCore b
      s.takeThread b
  else s.takeThread b

/-- Some stored index falls outside the processors the release loops compare against. -/
def StoresOutside (s : DynamicThreadManager Mask) (m : ProcMap) : Prop :=
  AnyValue (fun threads => ∃ i ∈ threads, s.map.proc.length ≤ i.toNat) m

/-- The test of the release loops: some stored index is that of the given processor. -/
def StoresThread (s : DynamicThreadManager Mask) (m : ProcMap) (id : UInt32) : Prop :=
  AnyValue (fun threads => ∃ i ∈ threads,
    (s.map.proc[i.toNat]?).map LogicalProcessor.globalID = some id) m

instance (s : DynamicThreadManager Mask) (m : ProcMap) : Decidable (s.StoresOutside m) :=
  inferInstanceAs (Decidable (AnyValue _ m))

instance (s : DynamicThreadManager Mask) (m : ProcMap) (id : UInt32) :
    Decidable (s.StoresThread m id) :=
  inferInstanceAs (Decidable (AnyValue _ m))

def freeThread (s : DynamicThreadManager Mask) (id : LogicalProcessor Mask) :
    Except Fault (DynamicThreadManager Mask) :=
  -- an index outside the map is a fault wherever the loops would meet it
  if s.StoresOutside s.partiallyFreeCoreMap ∨ s.StoresOutside s.freeCoreMap then
    .error .indexOutsideMap
  else if s.StoresThread s.partiallyFreeCoreMap id.globalID ∨
      s.StoresThread s.freeCoreMap id.globalID then .ok s
  else
    let key := id.uniqueCoreID
    let partially := adjust key (· ++ [id.globalID]) s.partiallyFreeCoreMap
    let core := value key s.coreToThreadMapIdx
    let s := { s with
      coreToThreadMapIdx := touch key s.coreToThreadMapIdx
      partiallyFreeCoreMap := partially
      freeThreadCount := s.freeThreadCount + 1 }
    if (value key partially).length = core.threadCount.toNat then .ok { s with
      partiallyFreeCoreMap := partially.erase key
      freeCoreMap := s.freeCoreMap.insert key core.threads
      freeCoreCount := s.freeCoreCount + 1 }
    else .ok s

/-! The calls a client makes and what it gets back. -/

inductive Call (Mask : Type)
  | allocateProcessor
  | allocateThread
  | freeThread (id : LogicalProcessor Mask)
  | freeProcessor (coreID : UInt32) (packageID : UInt16)
  deriving DecidableEq, Repr

inductive Reply (Mask : Type)
  | processors (status : Bool) (out : List (LogicalProcessor Mask))
  | thread (p : LogicalProcessor Mask)
  | released
  deriving DecidableEq, Repr

def call [Inhabited Mask] (b : Begin) (s : DynamicThreadManager Mask) :
    Call Mask → Except Fault (Reply Mask × DynamicThreadManager Mask)
  | .allocateProcessor => do
    let (status, out, s) ← s.allocateProcessor b []
    return (.processors status out, s)
  | .allocateThread => do
    let (p, s) ← s.allocateThread b
    return (.thread p, s)
  | .freeThread id => do
    let s ← s.freeThread id
    return (.released, s)
  | .freeProcessor coreID packageID => .ok (.released, s.freeProcessor coreID packageID)

/-- A call together with the resolution of `begin()` it met and the reply it got. -/
structure Event (Mask : Type) where
  order : Begin
  call : Call Mask
  reply : Reply Mask

end DynamicThreadManager

end Tailslayer
