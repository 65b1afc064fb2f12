import Mathlib.Algebra.Group.Nat.Defs
import Mathlib.Data.List.Basic

/-! Logical processors and processor configurations (`proc.hpp`). -/
namespace Tailslayer

/-- `GROUP_AFFINITY`, the affinity mask of Windows; its reserved words are always zero. -/
structure GroupAffinity where
  mask : UInt64
  group : UInt16
  deriving DecidableEq, Repr, Inhabited

/-- `Mask` is `NativeAffinityMask`: the platform's affinity mask. -/
structure LogicalProcessor (Mask : Type) where
  globalID : UInt32
  coreID : UInt32
  pkgID : UInt16
  usable : UInt8
  affinityMask : Mask
  deriving DecidableEq, Repr

namespace LogicalProcessor

variable {Mask : Type}

def uniqueCoreID (p : LogicalProcessor Mask) : UInt64 :=
  p.coreID.toUInt64 ||| (p.pkgID.toUInt64 <<< 32)

/-- What a failed allocation returns. -/
def sentinel [Inhabited Mask] : LogicalProcessor Mask where
  globalID := 0xffffffff
  coreID := 0xffffffff
  pkgID := 0xffff
  usable := 0
  affinityMask := default

theorem uniqueCoreID_toNat (p : LogicalProcessor Mask) :
    p.uniqueCoreID.toNat = p.coreID.toNat + p.pkgID.toNat * 2 ^ 32 := by
  have hc := p.coreID.toNat_lt
  have hp := p.pkgID.toNat_lt
  have hs : (p.pkgID.toUInt64 <<< (32 : UInt64)).toNat = p.pkgID.toNat <<< 32 := by
    rw [UInt64.toNat_shiftLeft]
    simp only [UInt16.toNat_toUInt64, Nat.shiftLeft_eq]
    apply Nat.mod_eq_of_lt
    change p.pkgID.toNat * 2 ^ 32 < 2 ^ 64
    omega
  rw [uniqueCoreID, UInt64.toNat_or, hs, UInt32.toNat_toUInt64, Nat.or_comm,
    ← Nat.shiftLeft_add_eq_or_of_lt hc, Nat.shiftLeft_eq]
  omega

/-- The key of a core is exactly the pair of its core and package numbers. -/
theorem uniqueCoreID_inj {p q : LogicalProcessor Mask} :
    p.uniqueCoreID = q.uniqueCoreID ↔ p.coreID = q.coreID ∧ p.pkgID = q.pkgID := by
  constructor
  · intro h
    have hn := congrArg UInt64.toNat h
    rw [uniqueCoreID_toNat, uniqueCoreID_toNat] at hn
    have hp := p.coreID.toNat_lt
    have hq := q.coreID.toNat_lt
    exact ⟨UInt32.toNat_inj.mp (by omega), UInt16.toNat_inj.mp (by omega)⟩
  · rintro ⟨hc, hp⟩
    simp [uniqueCoreID, hc, hp]

end LogicalProcessor

structure ProcessorConfigurationVector (Mask : Type) where
  proc : List (LogicalProcessor Mask)
  threadCount : UInt32
  physicalCoreCount : UInt32
  corePackageCount : UInt16
  deriving DecidableEq, Repr

namespace ProcessorConfigurationVector

variable {Mask : Type}

def logicalCoreCount (cfg : ProcessorConfigurationVector Mask) : UInt32 :=
  if cfg.proc = [] then 0xffffffff else cfg.threadCount

/-- The accessor `physicalCoreCount()`, as opposed to the field. -/
def physicalCoreCount' (cfg : ProcessorConfigurationVector Mask) : UInt32 :=
  if cfg.proc = [] then 0xffffffff else cfg.physicalCoreCount

def packageCount (cfg : ProcessorConfigurationVector Mask) : UInt32 :=
  if cfg.proc = [] then 0xffffffff else cfg.corePackageCount.toUInt32

end ProcessorConfigurationVector

end Tailslayer
