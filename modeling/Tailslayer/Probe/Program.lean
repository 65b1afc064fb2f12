import Tailslayer.Memory.LargePage
import Tailslayer.Memory.Privilege
import Tailslayer.Probe.Detection

/-! The `main` of `trefi_probe.cpp`, with all its exits. -/
namespace Tailslayer.Probe

open Binary64 Blocks LockMemory Memory

def kHUGEPAGE_2M : UInt64 := (1 : UInt64) <<< 21

/-- What the option parser hands over, if it raises no exception. -/
structure CommandLine extends Options where
  help : Bool
  nProbes : Int32
  trefiUs : ℚ

/-- The answers of the system: to both calls of `SetLockMemoryPrivilege`, to the allocation, and the
time stamps read around each probe of the calibration and of the probing loop. -/
structure Machine where
  acquire : Win32
  release : Win32
  pages : SingleWindows
  tscGhz : ℚ
  calibration : ℕ → UInt64 × UInt64
  probes : ℕ → UInt64 × UInt64

def Machine.alloc (machine : Machine) : LargePageMax :=
  allocateLargePage machine.pages (.ofSize kHUGEPAGE_2M)

/-- How a run ends. The areas are those that it writes or reads, by address and size; the rows are
those of the CSV output. -/
structure Outcome where
  status : ℕ
  privilege : LockMemory.State
  calls : List MaxCall
  areas : List (UInt64 × ℕ)
  rows : List Spike
  verdict : Option Double.Verdict

def freePage (out : AllocationRequest) : List MaxCall :=
  if out.virtaddr = 0 then [] else [.virtualFree out.virtaddr]

/-- An exit before there is anything to clean up. -/
def Outcome.early (status : ℕ) (privilege : LockMemory.State) (calls : List MaxCall) : Outcome :=
  ⟨status, privilege, calls, [], [], none⟩

/-- `none` where the conversion of the threshold is undefined. -/
def main (line : Option CommandLine) (machine : Machine) (s : LockMemory.State) : Option Outcome :=
  match line with
  | none => some (.early 1 s [])
  | some line =>
    if line.help then some (.early 0 s [])
    else
      let (acquired, s) := setLockMemoryPrivilege machine.acquire true s
      if acquired = false then some (.early 1 s [])
      else
        let alloc := machine.alloc
        if alloc.out.virtaddr = 0 then some (.early 1 s alloc.calls)
        else
          let calib := (List.range kCALIB_PROBES).map fun i =>
            (machine.calibration i).2 - (machine.calibration i).1
          (calibrate line.toOptions calib).map fun calibration =>
            let recording := probing calibration.threshold
              ((List.range line.nProbes.toInt.toNat).map machine.probes)
            let (released, s) := setLockMemoryPrivilege machine.release false s
            { status := if released then 0 else 1
              privilege := s
              calls := alloc.calls ++ freePage alloc.out
              areas := [(alloc.out.virtaddr, kHUGEPAGE_2M.toNat), (alloc.out.virtaddr, 1)]
              rows := recording.recorded
              verdict := some (recording.verdict (fl (fl (line.trefiUs * 1000) * machine.tscGhz))) }

/-- The area lies in a block that the calls obtained. -/
def InBlock (calls : List MaxCall) (area : UInt64 × ℕ) : Prop :=
  ∃ size virtaddr, Obtained calls size virtaddr ∧ virtaddr ≠ 0 ∧ virtaddr ≤ area.1 ∧
    area.1.toNat + area.2 ≤ virtaddr.toNat + size.toNat

/-- What holds at every exit. -/
structure CleanExit (line : Option CommandLine) (o : Outcome) : Prop where
  blocks : ReleasedOnce (maxEvents o.calls)
  areas : ∀ area ∈ o.areas, InBlock o.calls area
  measured : o.verdict.isSome = true ↔ maxEvents o.calls ≠ []
  status : o.status = 0 ↔ (∃ l, line = some l ∧ l.help = true) ∨
    o.verdict.isSome = true ∧ o.privilege.privilege = .removed
  privilege : o.privilege.privilege = .disabled ∨ o.privilege.privilege = .removed ∨
    o.privilege.privilege = .enabled ∧ o.status = 1

variable {line : Option CommandLine} {machine : Machine} {o : Outcome} {calls : List MaxCall}
  {s : LockMemory.State}

/-- From the start of the process, the privilege is acquired or left alone. -/
theorem acquire_cases (os : Win32) :
    setLockMemoryPrivilege os true .initial = (false, .initial) ∨
      setLockMemoryPrivilege os true .initial = (true, ⟨true, .enabled⟩) := by
  obtain ⟨openProcessToken, lookupPrivilegeValue, adjustTokenPrivileges⟩ := os
  cases openProcessToken <;> cases lookupPrivilegeValue <;> cases adjustTokenPrivileges <;>
    simp [setLockMemoryPrivilege, State.initial, Privilege.adjust]

/-- What was acquired is given back or kept. -/
theorem release_cases (os : Win32) :
    setLockMemoryPrivilege os false ⟨true, .enabled⟩ = (false, ⟨true, .enabled⟩) ∨
      setLockMemoryPrivilege os false ⟨true, .enabled⟩ = (true, ⟨true, .removed⟩) := by
  obtain ⟨openProcessToken, lookupPrivilegeValue, adjustTokenPrivileges⟩ := os
  cases openProcessToken <;> cases lookupPrivilegeValue <;> cases adjustTokenPrivileges <;>
    simp [setLockMemoryPrivilege, Privilege.adjust]

/-- The exits: an error of the parser, the help, no privilege, no block, and the measurement. -/
inductive Exits (machine : Machine) : Option CommandLine → Outcome → Prop
  | parsing : Exits machine none (.early 1 .initial [])
  | help {l : CommandLine} (help : l.help = true) : Exits machine (some l) (.early 0 .initial [])
  | noPrivilege {l : CommandLine} (help : l.help = false) :
    Exits machine (some l) (.early 1 .initial [])
  | noBlock {l : CommandLine} (help : l.help = false)
    (null : machine.alloc.out.virtaddr = 0) :
    Exits machine (some l) (.early 1 ⟨true, .enabled⟩ machine.alloc.calls)
  | measured {l : CommandLine} {o : Outcome} (help : l.help = false)
    (block : machine.alloc.out.virtaddr ≠ 0)
    (calls : o.calls = machine.alloc.calls ++ freePage machine.alloc.out)
    (areas : o.areas = [(machine.alloc.out.virtaddr, kHUGEPAGE_2M.toNat),
      (machine.alloc.out.virtaddr, 1)])
    (verdict : o.verdict.isSome = true)
    (ending : o.status = 1 ∧ o.privilege = ⟨true, .enabled⟩ ∨
      o.status = 0 ∧ o.privilege = ⟨true, .removed⟩) : Exits machine (some l) o

theorem exits_of_main (h : main line machine .initial = some o) : Exits machine line o := by
  unfold main at h
  cases line with
  | none =>
    cases h
    exact .parsing
  | some l =>
    simp only at h
    cases hhelp : l.help with
    | true =>
      rw [if_pos hhelp] at h
      cases h
      exact .help hhelp
    | false =>
      rw [if_neg (by simp [hhelp])] at h
      rcases acquire_cases machine.acquire with hacq | hacq
      · rw [hacq] at h
        cases h
        exact .noPrivilege hhelp
      · simp only [hacq, Bool.true_eq_false, if_false] at h
        split at h
        · next hnull =>
          cases h
          exact .noBlock hhelp hnull
        · next hblock =>
          obtain ⟨cal, -, rfl⟩ := Option.map_eq_some_iff.mp h
          refine .measured hhelp hblock rfl rfl rfl ?_
          rcases release_cases machine.release with hrel | hrel
          · left
            simp [hrel]
          · right
            simp [hrel]

theorem inBlock_of_le {alloc : LargePageMax} (hsound : alloc.Sound kHUGEPAGE_2M)
    (hne : alloc.out.virtaddr ≠ 0) {n : ℕ} (hn : n ≤ kHUGEPAGE_2M.toNat) :
    InBlock (alloc.calls ++ calls) (alloc.out.virtaddr, n) := by
  refine ⟨alloc.out.sizeInBytes, alloc.out.virtaddr, ?_, hne, UInt64.le_refl _, ?_⟩
  · rcases hsound.size hne with h | h
    · exact Or.inl (List.mem_append_left _ h)
    · exact Or.inr (List.mem_append_left _ h)
  · have hle := UInt64.le_iff_toNat_le.mp (hsound.enough hne)
    change alloc.out.virtaddr.toNat + n ≤ _
    omega

/-- At every exit of the probe, whatever the options and the answers of the system: every block was
released once; all that was written and read lies in a block; a block was obtained just when there
is a verdict; the exit status is zero just for the help, or for a verdict with the privilege given
back; and the privilege is only left enabled with an exit status of one. -/
theorem main_cleanExit (hpages : machine.pages.Documented)
    (h : main line machine .initial = some o) : CleanExit line o := by
  have hevents := maxEvents_allocateLargePage machine.pages (.ofSize kHUGEPAGE_2M)
  cases exits_of_main h with
  | parsing =>
    exact ⟨rfl, by simp [Outcome.early], by simp [Outcome.early, maxEvents],
      by simp [Outcome.early], Or.inl rfl⟩
  | help hhelp =>
    exact ⟨rfl, by simp [Outcome.early], by simp [Outcome.early, maxEvents],
      by simp [Outcome.early, hhelp], Or.inl rfl⟩
  | noPrivilege hhelp =>
    exact ⟨rfl, by simp [Outcome.early], by simp [Outcome.early, maxEvents],
      by simp [Outcome.early, hhelp], Or.inl rfl⟩
  | noBlock hhelp hnull =>
    have hnone : maxEvents machine.alloc.calls = [] := hevents.trans (if_pos hnull)
    refine ⟨?_, by simp [Outcome.early], by simp [Outcome.early, hnone],
      by simp [Outcome.early, hhelp], Or.inr (Or.inr ⟨rfl, rfl⟩)⟩
    change replay ∅ (maxEvents machine.alloc.calls) = some ∅
    rw [hnone]
    rfl
  | measured hhelp hblock hcalls hareas hverdict hending =>
    have hsound : machine.alloc.Sound kHUGEPAGE_2M :=
      sound_allocateLargePage hpages (by decide)
    have hboth : maxEvents o.calls =
        [.obtained machine.alloc.out.virtaddr, .released machine.alloc.out.virtaddr] := by
      rw [hcalls, maxEvents_append, freePage, if_neg hblock]
      rw [Machine.alloc] at hblock ⊢
      rw [hevents, if_neg hblock]
      simp [maxEvents, MaxCall.event, hblock]
    refine ⟨?_, ?_, by simp [hverdict, hboth], ?_, ?_⟩
    · rw [ReleasedOnce, hboth]
      simp [replay, step]
    · rw [hareas, hcalls]
      intro area harea
      rcases List.mem_cons.mp harea with rfl | harea
      · exact inBlock_of_le hsound hblock (Nat.le_refl _)
      · obtain rfl := List.mem_singleton.mp harea
        exact inBlock_of_le hsound hblock (by decide)
    · rcases hending with ⟨hs, hp⟩ | ⟨hs, hp⟩
      · simp [hs, hp, hhelp]
      · simp [hs, hp, hverdict]
    · rcases hending with ⟨hs, hp⟩ | ⟨hs, hp⟩
      · exact Or.inr (Or.inr ⟨by rw [hp], hs⟩)
      · exact Or.inr (Or.inl (by rw [hp]))

/-- A machine that grants everything, with a block of one large page, and refreshes that are seen
by every probe. -/
def grantsAll : Machine where
  acquire := ⟨true, true, true⟩
  release := ⟨true, true, true⟩
  pages := {
    getLargePageMinimum := 0x200000
    virtualAlloc2 := fun _ => 0
    virtualAlloc := fun size => if size = 0x200000 then 0x10000000000 else 0 }
  tscGhz := 3
  calibration := fun _ => (0, 60)
  probes := fun i => (UInt64.ofNat (23400 * i), UInt64.ofNat (23400 * i) + 600)

def hundredProbes : CommandLine := ⟨⟨200, 2⟩, false, 100, 7.8⟩

theorem documented_grantsAll : grantsAll.pages.Documented where
  pageSize := Or.inr ⟨21, by decide, rfl⟩
  notEmpty := ⟨rfl, rfl⟩

theorem main_cleanExit_hundredProbes :
    ∃ o, main (some hundredProbes) grantsAll .initial = some o ∧ o.status = 0 ∧
      CleanExit (some hundredProbes) o :=
  ⟨_, rfl, rfl, main_cleanExit documented_grantsAll rfl⟩

end Tailslayer.Probe
