import Tailslayer.Foundations.Enrollment
import Tailslayer.Foundations.WordBits
import Tailslayer.Processor

/-! Topology detection on Windows: `ProcessCurrentConfiguration` (`proc.hpp`, `proc.cpp`). -/
namespace Tailslayer

open FiniteMap

structure GroupPair where
  group : UInt16
  groupMask : UInt64
  deriving DecidableEq, Repr

/-- The comparison of a pair with an affinity mask: same group, and some bit in common. -/
def GroupPair.Overlaps (k : GroupPair) (mask : GroupAffinity) : Prop :=
  k.group = mask.group ∧ k.groupMask &&& mask.mask ≠ 0

instance (k : GroupPair) (mask : GroupAffinity) : Decidable (k.Overlaps mask) :=
  inferInstanceAs (Decidable (_ ∧ _))

inductive Relationship
  | processorCore
  | processorPackage
  | other (code : UInt32)
  deriving DecidableEq, Repr

/-- The members of `SYSTEM_LOGICAL_PROCESSOR_INFORMATION_EX` that the parser reads. -/
structure NativeRecord where
  relationship : Relationship
  size : UInt32
  groupCount : UInt16
  groupMask : ℕ → GroupAffinity

def NativeRecord.key (r : NativeRecord) (g : ℕ) : GroupPair :=
  ⟨(r.groupMask g).group, (r.groupMask g).mask⟩

/-- `recordAt` is what a cast of the buffer's address plus a byte offset yields. -/
structure NativeBuffer where
  size : UInt32
  recordAt : ℕ → NativeRecord

/-- What the operating system answers to the calls of the parser. -/
structure NativeSystem where
  sizeQueried : Bool
  insufficientBuffer : Bool
  bufSizeBytes : UInt32
  configuration : Option (ℕ → NativeRecord)
  processAffinityMask : Option UInt64
  currentGroup : UInt16
  processGroups : List UInt16

namespace NativeSystem

/-- The first query fails on purpose, with an error that tells the size. -/
def getProcessorNativeConfiguration (sys : NativeSystem) : Option NativeBuffer :=
  if !sys.sizeQueried && !sys.insufficientBuffer then none
  else sys.configuration.map (fun recordAt => ⟨sys.bufSizeBytes, recordAt⟩)

def isGroupAllowed (sys : NativeSystem) (procAffinityMask : UInt64) (group : UInt16)
    (bitmask : UInt64) : Bool :=
  let allowed := sys.processGroups.contains group
  if group = sys.currentGroup then allowed && bitmask &&& procAffinityMask != 0 else allowed

end NativeSystem

/-- The variables of the first loop; a `Enrollment` is an id map next to its `next…Id`. -/
structure RecordScan where
  curptr : ℕ
  byteOffset : UInt32
  coreInfoOffset : List UInt32
  pkgInfoOffset : List UInt32
  coreMap : Enrollment GroupPair
  packageMap : Enrollment GroupPair

namespace RecordScan

def start : RecordScan := ⟨0, 0, [], [], .start, .start⟩

def record (s : RecordScan) (r : NativeRecord) : RecordScan :=
  let s := match r.relationship with
    | .processorCore => { s with
        coreInfoOffset := s.coreInfoOffset ++ [s.byteOffset]
        coreMap := s.coreMap.enroll (r.key 0) }
    | .processorPackage => { s with
        pkgInfoOffset := s.pkgInfoOffset ++ [s.byteOffset]
        packageMap := s.packageMap.enroll (r.key 0) }
    | .other _ => s
  { s with
    curptr := s.curptr + r.size.toNat
    byteOffset := s.byteOffset + r.size }

/-- The loop over the buffer; `none` means that the fuel ran out. -/
def run (buffer : NativeBuffer) : ℕ → RecordScan → Option RecordScan
  | 0, _ => none
  | fuel + 1, s =>
    if s.byteOffset < buffer.size then run buffer fuel (s.record (buffer.recordAt s.curptr))
    else some s

end RecordScan

/-- The loops over a core's groups and their 64 bits, skipping the bits that are not set. -/
def coreProcessors (sys : NativeSystem) (procAffinityMask : UInt64) (coreID : UInt32)
    (r : NativeRecord) : List (LogicalProcessor GroupAffinity) :=
  (List.range r.groupCount.toNat).flatMap fun g =>
    (WordBits.bits (r.key g).groupMask).map fun bit => {
      globalID := 0xffffffff
      coreID := coreID
      pkgID := 0xffff
      usable :=
        if sys.isGroupAllowed procAffinityMask (r.key g).group (WordBits.bit bit) then 1 else 0
      affinityMask := ⟨WordBits.bit bit, (r.key g).group⟩ }

/-- The loop over a package's groups, for one processor. -/
def assignPackage (pkgID : UInt32) (r : NativeRecord) (lp : LogicalProcessor GroupAffinity) :
    LogicalProcessor GroupAffinity :=
  (List.range r.groupCount.toNat).foldl (fun lp g => { lp with
    pkgID := if (r.key g).Overlaps lp.affinityMask then pkgID.toUInt16 else lp.pkgID }) lp

namespace ProcessorConfigurationVector

def processCurrentConfiguration (sys : NativeSystem) (fuel : ℕ)
    (cfg : ProcessorConfigurationVector GroupAffinity) :
    Option (Bool × ProcessorConfigurationVector GroupAffinity) :=
  match sys.getProcessorNativeConfiguration with
  | none => some (false, cfg)
  | some buffer =>
    match sys.processAffinityMask with
    | none => some (false, cfg)
    | some procAffinityMask => do
      let s ← RecordScan.run buffer fuel .start
      let read := fun offset : UInt32 => buffer.recordAt offset.toNat
      let proc := cfg.proc ++ s.coreInfoOffset.flatMap (fun offset =>
        coreProcessors sys procAffinityMask (s.coreMap.id ((read offset).key 0)) (read offset))
      let proc := s.pkgInfoOffset.foldl (fun proc offset =>
        proc.map (assignPackage (s.packageMap.id ((read offset).key 0)) (read offset))) proc
      let proc := proc.mapIdx (fun i lp => { lp with globalID := UInt32.ofNat i })
      return (true, {
        proc := proc
        threadCount := UInt32.ofNat proc.length
        physicalCoreCount := s.coreMap.next
        corePackageCount := s.packageMap.next.toUInt16 })

/-- `initialize()`: the previous processors are cleared first. -/
def initializeCurrent (sys : NativeSystem) (fuel : ℕ)
    (cfg : ProcessorConfigurationVector GroupAffinity) :
    Option (Bool × ProcessorConfigurationVector GroupAffinity) :=
  processCurrentConfiguration sys fuel { cfg with proc := [] }

end ProcessorConfigurationVector

/-! What a well-formed buffer holds. -/

/-- The buffer is a sequence of records of positive sizes, from an offset to its end. -/
inductive NativeBuffer.Holds (buffer : NativeBuffer) : ℕ → List NativeRecord → Prop
  | done : Holds buffer buffer.size.toNat []
  | record {offset : ℕ} {records : List NativeRecord}
      (positive : 0 < (buffer.recordAt offset).size.toNat)
      (rest : Holds buffer (offset + (buffer.recordAt offset).size.toNat) records) :
      Holds buffer offset (buffer.recordAt offset :: records)

namespace NativeRecord

variable (r : NativeRecord) (records : List NativeRecord)

/-- The (group, mask) entries of a record. -/
def entries : List GroupAffinity := (List.range r.groupCount.toNat).map r.groupMask

/-- The record lists a processor, that is, a bit of a group. -/
def Lists (group : UInt16) (bit : ℕ) : Prop :=
  ∃ e ∈ r.entries, e.group = group ∧ e.mask.toNat.testBit bit

def cores : List NativeRecord := records.filter (fun r => r.relationship = .processorCore)

def packages : List NativeRecord := records.filter (fun r => r.relationship = .processorPackage)

end NativeRecord

/-- Two entries that list no common processor. -/
def GroupAffinity.Apart (e e' : GroupAffinity) : Prop :=
  ¬ (e.group = e'.group ∧ e.mask &&& e'.mask ≠ 0)

/-- Records that list at least one processor each, and no processor twice. -/
structure NativeRecord.Partition (records : List NativeRecord) : Prop where
  nonempty : ∀ r ∈ records, r.entries ≠ []
  nonzero : ∀ r ∈ records, ∀ e ∈ r.entries, e.mask ≠ 0
  apart : (records.flatMap NativeRecord.entries).Pairwise GroupAffinity.Apart

/-- The promises of a well-formed `RelationAll` buffer. -/
structure NativeRecord.WellFormed (records : List NativeRecord) : Prop where
  cores : NativeRecord.Partition (NativeRecord.cores records)
  packages : NativeRecord.Partition (NativeRecord.packages records)
  corePackage : ∀ r ∈ NativeRecord.cores records, ∃ p ∈ NativeRecord.packages records,
    ∀ group bit, r.Lists group bit → p.Lists group bit
  packageCount : (NativeRecord.packages records).length < 65535

end Tailslayer
