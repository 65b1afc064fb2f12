import Mathlib.Tactic.Common
import Tailslayer.Topology.Specification

/-! The first loop finds every core and package record of a well-formed buffer. -/
namespace Tailslayer

open NativeRecord

/-- What a cast at a recorded offset yields. -/
def NativeBuffer.read (buffer : NativeBuffer) (offset : UInt32) : NativeRecord :=
  buffer.recordAt offset.toNat

theorem NativeBuffer.Holds.cons {buffer : NativeBuffer} {offset : ℕ} {r : NativeRecord}
    {records : List NativeRecord} (hr : buffer.recordAt offset = r) (hpos : 0 < r.size.toNat)
    (hrest : buffer.Holds (offset + r.size.toNat) records) :
    buffer.Holds offset (r :: records) := by
  subst hr
  exact .record hpos hrest

theorem NativeBuffer.Holds.le_size {buffer : NativeBuffer} {offset : ℕ}
    {records : List NativeRecord} (h : buffer.Holds offset records) :
    offset ≤ buffer.size.toNat := by
  induction h with
  | done => exact Nat.le_refl _
  | record positive rest ih => omega

/-! Every list of records of positive sizes is laid out in some buffer. -/

namespace NativeBuffer

def totalSize (records : List NativeRecord) : ℕ := (records.map (fun r => r.size.toNat)).sum

/-- The record found at a distance from the first one. -/
def seek : List NativeRecord → ℕ → NativeRecord
  | [], _ => ⟨.other 0, 0, 0, fun _ => default⟩
  | r :: records, offset => if offset = 0 then r else seek records (offset - r.size.toNat)

def layout (records : List NativeRecord) : NativeBuffer where
  size := UInt32.ofNat (totalSize records)
  recordAt := seek records

theorem seek_append {front records : List NativeRecord} (hp : ∀ r ∈ front, 0 < r.size.toNat)
    (offset : ℕ) : seek (front ++ records) (totalSize front + offset) = seek records offset := by
  induction front with
  | nil => simp [totalSize]
  | cons r front ih =>
    have hr := hp r List.mem_cons_self
    have hsize : totalSize (r :: front) = r.size.toNat + totalSize front := by simp [totalSize]
    have hne : totalSize (r :: front) + offset ≠ 0 := by omega
    have hsub : totalSize (r :: front) + offset - r.size.toNat = totalSize front + offset := by
      omega
    rw [List.cons_append, seek, if_neg hne, hsub]
    exact ih (fun r hr => hp r (List.mem_cons_of_mem _ hr))

theorem holds_suffix (front : List NativeRecord) {records : List NativeRecord}
    (hp : ∀ r ∈ front ++ records, 0 < r.size.toNat)
    (hs : totalSize (front ++ records) < 2 ^ 32) :
    (layout (front ++ records)).Holds (totalSize front) records := by
  induction records generalizing front with
  | nil =>
    have hsize : (layout (front ++ [])).size.toNat = totalSize front := by
      rw [List.append_nil] at hs ⊢
      simp only [layout, UInt32.toNat_ofNat']
      exact Nat.mod_eq_of_lt hs
    rw [← hsize]
    exact .done
  | cons r records ih =>
    have hfront : ∀ r ∈ front, 0 < r.size.toNat := fun r hr => hp r (by simp [hr])
    have hread : (layout (front ++ r :: records)).recordAt (totalSize front) = r :=
      seek_append hfront 0
    have hsplit : front ++ r :: records = (front ++ [r]) ++ records := by simp
    have hnext : totalSize (front ++ [r]) = totalSize front + r.size.toNat := by
      simp [totalSize]
    have hrest : (layout (front ++ r :: records)).Holds (totalSize front + r.size.toNat)
        records := by
      rw [hsplit] at hp hs ⊢
      rw [← hnext]
      exact ih _ hp hs
    exact .cons hread (hp r (by simp)) hrest

theorem holds_layout {records : List NativeRecord} (hp : ∀ r ∈ records, 0 < r.size.toNat)
    (hs : totalSize records < 2 ^ 32) : (layout records).Holds 0 records :=
  holds_suffix [] hp hs

end NativeBuffer

namespace NativeRecord

variable {r : NativeRecord} {records : List NativeRecord}

theorem cores_cons : cores (r :: records) =
    if r.relationship = .processorCore then r :: cores records else cores records := by
  by_cases h : r.relationship = .processorCore <;> simp [cores, h]

theorem packages_cons : packages (r :: records) =
    if r.relationship = .processorPackage then r :: packages records else packages records := by
  by_cases h : r.relationship = .processorPackage <;> simp [packages, h]

end NativeRecord

namespace RecordScan

variable {buffer : NativeBuffer} {offset fuel : ℕ} {records : List NativeRecord}
  {s : RecordScan} {r : NativeRecord}

@[simp] theorem record_curptr : (s.record r).curptr = s.curptr + r.size.toNat := by
  cases h : r.relationship <;> simp [record, h]

@[simp] theorem record_byteOffset : (s.record r).byteOffset = s.byteOffset + r.size := by
  cases h : r.relationship <;> simp [record, h]

theorem record_cores :
    (s.record r).coreInfoOffset =
        s.coreInfoOffset ++ (if r.relationship = .processorCore then [s.byteOffset] else []) ∧
      (s.record r).coreMap =
        if r.relationship = .processorCore then s.coreMap.enroll (r.key 0) else s.coreMap := by
  cases h : r.relationship <;> simp [record, h]

theorem record_packages :
    (s.record r).pkgInfoOffset =
        s.pkgInfoOffset ++ (if r.relationship = .processorPackage then [s.byteOffset] else []) ∧
      (s.record r).packageMap =
        if r.relationship = .processorPackage then s.packageMap.enroll (r.key 0)
        else s.packageMap := by
  cases h : r.relationship <;> simp [record, h]

/-- The byte offset is the pointer's distance as long as it does not wrap around. -/
theorem byteOffset_record (hs : s.byteOffset.toNat = s.curptr)
    (h : s.curptr + r.size.toNat < 2 ^ 32) :
    (s.record r).byteOffset.toNat = (s.record r).curptr := by
  rw [record_byteOffset, record_curptr, UInt32.toNat_add, hs]
  exact Nat.mod_eq_of_lt h

/-- Over a buffer of records the loop handles each of them once, in order. -/
theorem run_of_holds (h : buffer.Holds s.curptr records) (hs : s.byteOffset.toNat = s.curptr)
    (hf : records.length < fuel) : run buffer fuel s = some (records.foldl record s) := by
  generalize ho : s.curptr = offset at h
  induction h generalizing s fuel with
  | done =>
    obtain ⟨fuel, rfl⟩ : ∃ n, fuel = n + 1 := ⟨fuel - 1, by omega⟩
    have hend : ¬ s.byteOffset < buffer.size := by
      rw [UInt32.lt_iff_toNat_lt]
      omega
    simp [run, hend]
  | @record offset records positive rest ih =>
    obtain ⟨fuel, rfl⟩ : ∃ n, fuel = n + 1 := ⟨fuel - 1, by omega⟩
    have hle := rest.le_size
    have hlt := buffer.size.toNat_lt
    have hin : s.byteOffset < buffer.size := by
      rw [UInt32.lt_iff_toNat_lt]
      omega
    rw [List.length_cons] at hf
    rw [run, if_pos hin, ho, List.foldl_cons]
    apply ih
    · exact byteOffset_record hs (by omega)
    · omega
    · rw [record_curptr, ho]

/-- The recorded offsets lead back to the core and package records, in order. -/
theorem read_offsets (h : buffer.Holds s.curptr records)
    (hs : s.byteOffset.toNat = s.curptr) :
    (records.foldl record s).coreInfoOffset.map buffer.read =
        s.coreInfoOffset.map buffer.read ++ cores records ∧
      (records.foldl record s).pkgInfoOffset.map buffer.read =
        s.pkgInfoOffset.map buffer.read ++ packages records := by
  generalize ho : s.curptr = offset at h
  induction h generalizing s with
  | done => simp [cores, packages]
  | @record offset records positive rest ih =>
    have hle := rest.le_size
    have hlt := buffer.size.toNat_lt
    have hread : buffer.read s.byteOffset = buffer.recordAt offset := by
      rw [NativeBuffer.read, hs, ho]
    obtain ⟨hcores, hpackages⟩ := ih (s := s.record (buffer.recordAt offset))
      (byteOffset_record hs (by omega)) (by rw [record_curptr, ho])
    rw [List.foldl_cons, hcores, hpackages, record_cores.1, record_packages.1, cores_cons,
      packages_cons]
    constructor
    · split <;> simp [hread]
    · split <;> simp [hread]

/-- The id maps number the first entries of the core and package records. -/
theorem foldl_maps (records : List NativeRecord) (s : RecordScan) :
    (records.foldl record s).coreMap =
        ((cores records).map (NativeRecord.key · 0)).foldl Enrollment.enroll s.coreMap ∧
      (records.foldl record s).packageMap =
        ((packages records).map (NativeRecord.key · 0)).foldl Enrollment.enroll s.packageMap := by
  induction records generalizing s with
  | nil => simp [cores, packages]
  | cons r records ih =>
    obtain ⟨hcores, hpackages⟩ := ih (s.record r)
    rw [List.foldl_cons, hcores, hpackages, record_cores.2, record_packages.2, cores_cons,
      packages_cons]
    constructor
    · split <;> simp
    · split <;> simp

end RecordScan

end Tailslayer
