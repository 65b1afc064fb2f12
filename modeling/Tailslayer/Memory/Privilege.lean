import Tailslayer.Foundations.Run

/-! `SetLockMemoryPrivilege` (`utilities.hpp`) and the process token it adjusts. -/
namespace Tailslayer.LockMemory

/-- `SeLockMemoryPrivilege` in the process token. -/
inductive Privilege
  | disabled
  | enabled
  | removed
  deriving DecidableEq, Repr

/-- `SE_PRIVILEGE_ENABLED` and `SE_PRIVILEGE_REMOVED` -/
inductive Attributes
  | enabled
  | removed
  deriving DecidableEq, Repr

/-- Which of the Win32 calls succeed. -/
structure Win32 where
  openProcessToken : Bool
  lookupPrivilegeValue : Bool
  adjustTokenPrivileges : Bool
  deriving DecidableEq, Repr

structure State where
  enabledLockMemoryPrivileges : Bool
  privilege : Privilege
  deriving DecidableEq, Repr

/-- The token before any call. -/
def State.initial : State := ⟨false, .disabled⟩

/-- A successful `AdjustTokenPrivileges`; the flag is `ERROR_NOT_ALL_ASSIGNED`. -/
def Privilege.adjust : Privilege → Attributes → Privilege × Bool
  | .removed, _ => (.removed, true)
  | _, .enabled => (.enabled, false)
  | _, .removed => (.removed, false)

def setLockMemoryPrivilege (os : Win32) (enable : Bool) (s : State) : Bool × State :=
  if s.enabledLockMemoryPrivileges && enable then (true, s)
  else if !os.openProcessToken then (false, s)
  else if !os.lookupPrivilegeValue then (false, s)
  else if !os.adjustTokenPrivileges then (false, s)
  else
    let (privilege, notAllAssigned) := s.privilege.adjust (if enable then .enabled else .removed)
    let s := { s with privilege := privilege }
    if notAllAssigned then (false, s)
    else (true, { s with enabledLockMemoryPrivileges := true })

/-- A call with the outcomes it met and the value it returned. -/
structure Event where
  os : Win32
  enable : Bool
  result : Bool
  deriving DecidableEq, Repr

def Step (s : State) (e : Event) (t : State) : Prop :=
  setLockMemoryPrivilege e.os e.enable s = (e.result, t)

/-- A disabling call that no Win32 call stops. -/
def Removes (e : Event) : Prop :=
  e.enable = false ∧ e.os.openProcessToken = true ∧ e.os.lookupPrivilegeValue = true ∧
    e.os.adjustTokenPrivileges = true

/-- The flag agrees with the token. -/
def Agrees (s : State) : Prop := s.enabledLockMemoryPrivileges = true ↔ s.privilege = .enabled

/-- After the call the flag tells the truth, and so does the value of an enabling call. -/
def Truthful (e : Event) (t : State) : Prop :=
  Agrees t ∧ (e.enable = true → e.result = true → t.privilege = .enabled)

variable {s t : State} {e : Event}

/-- What a call can do. -/
theorem step_cases (h : Step s e t) :
    (t = s ∧ e.result = false ∧ (Removes e → s.privilege = .removed)) ∨
    (t = s ∧ s.enabledLockMemoryPrivileges = true ∧ e.enable = true) ∨
    (t = ⟨true, .enabled⟩ ∧ e.enable = true ∧ s.privilege ≠ .removed) ∨
    (t = ⟨true, .removed⟩ ∧ Removes e ∧ s.privilege ≠ .removed) := by
  obtain ⟨os, enable, result⟩ := e
  obtain ⟨flag, privilege⟩ := s
  simp only [Step, setLockMemoryPrivilege] at h
  split at h
  · next hflag =>
    cases h
    simp_all
  · split at h
    · cases h
      simp_all [Removes]
    · split at h
      · cases h
        simp_all [Removes]
      · split at h
        · cases h
          simp_all [Removes]
        · cases privilege <;> cases enable <;> simp_all [Privilege.adjust, Removes]

theorem agrees_initial : Agrees State.initial := by
  simp [Agrees, State.initial]

/-- From a truthful state only a removal leads astray. -/
theorem truthful_step (hr : s.privilege ≠ .removed) (ha : Agrees s) (h : Step s e t) :
    Truthful e t ↔ ¬ Removes e := by
  rcases step_cases h with ⟨rfl, hf, hrem⟩ | ⟨rfl, hflag, hen⟩ | ⟨rfl, hen, -⟩ | ⟨rfl, hrem, -⟩
  · exact iff_of_true ⟨ha, by simp [hf]⟩ (fun he => hr (hrem he))
  · exact iff_of_true ⟨ha, fun _ _ => ha.mp hflag⟩ (by simp [Removes, hen])
  · exact iff_of_true ⟨by simp [Agrees], fun _ _ => rfl⟩ (by simp [Removes, hen])
  · exact iff_of_false (fun ht => by simp [Truthful, Agrees] at ht) (fun hn => hn hrem)

theorem not_removed_step (hr : s.privilege ≠ .removed) (hn : ¬ Removes e) (h : Step s e t) :
    t.privilege ≠ .removed := by
  rcases step_cases h with ⟨rfl, -⟩ | ⟨rfl, -⟩ | ⟨rfl, -⟩ | ⟨-, hrem, -⟩
  · exact hr
  · exact hr
  · simp
  · exact (hn hrem).elim

/-- A run without removals keeps the flag and the token in agreement. -/
theorem agrees_of_guard (E : Run Step State.initial)
    (hg : ∀ n, n < E.length → ¬ Removes (E.event n)) :
    ∀ n, n ≤ E.length → (E.state n).privilege ≠ .removed ∧ Agrees (E.state n) :=
  Run.invariant_of_guard (I := fun s => s.privilege ≠ .removed ∧ Agrees s)
    (G := fun _ e => ¬ Removes e) ⟨by simp [State.initial], agrees_initial⟩
    (fun _ _ _ h hn hs => ⟨not_removed_step h.1 hn hs,
      ((truthful_step h.1 h.2 hs).mpr hn).1⟩) E hg

theorem agrees_of_truthful (E : Run Step State.initial)
    (ht : ∀ n, n < E.length → Truthful (E.event n) (E.state (n + 1))) :
    ∀ n, n ≤ E.length → (E.state n).privilege ≠ .removed ∧ Agrees (E.state n) := by
  intro n
  induction n with
  | zero =>
    intro _
    rw [E.initial]
    exact ⟨by simp [State.initial], agrees_initial⟩
  | succ n ih =>
    intro hn
    obtain ⟨hr, ha⟩ := ih (by omega)
    have hs := E.step n hn
    exact ⟨not_removed_step hr ((truthful_step hr ha hs).mp (ht n hn)) hs, (ht n hn).1⟩

/-- A run is truthful exactly when none of its calls removes the privilege. -/
theorem truthful_run_iff (E : Run Step State.initial) :
    (∀ n, n < E.length → Truthful (E.event n) (E.state (n + 1))) ↔
      ∀ n, n < E.length → ¬ Removes (E.event n) := by
  constructor
  · intro ht n hn
    obtain ⟨hr, ha⟩ := agrees_of_truthful E ht n (by omega)
    exact (truthful_step hr ha (E.step n hn)).mp (ht n hn)
  · intro hg n hn
    obtain ⟨hr, ha⟩ := agrees_of_guard E hg n (by omega)
    exact (truthful_step hr ha (E.step n hn)).mpr (hg n hn)

/-- All calls of the operating system succeed. -/
def Win32.succeeding : Win32 := ⟨true, true, true⟩

/-- A reader's constructor enables the privilege, and its destructor disables it. -/
def enabledThenDisabled : Run Step State.initial :=
  ((Run.start ⟨.succeeding, true, true⟩ State.initial).extend ⟨.succeeding, true, true⟩
    ⟨true, .enabled⟩ rfl).extend ⟨.succeeding, false, true⟩ ⟨true, .removed⟩ rfl

/-- The privilege is gone, but the flag still says that it is enabled. -/
theorem not_truthful_run : ¬ ∀ E : Run Step State.initial, ∀ n, n < E.length →
    Truthful (E.event n) (E.state (n + 1)) := by
  intro hall
  have h := (hall enabledThenDisabled 1 (by decide)).1
  simp [Agrees, enabledThenDisabled, Run.extend, Run.start] at h

end Tailslayer.LockMemory
