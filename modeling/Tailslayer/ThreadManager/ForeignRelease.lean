import Tailslayer.Foundations.Outcome
import Tailslayer.ThreadManager.Ownership

/-! Releases of processors and cores that the configuration does not have. -/
namespace Tailslayer.DynamicThreadManager

open FiniteMap ProcessorConfigurationVector

variable {Mask : Type} {cfg : ProcessorConfigurationVector Mask}
  {s t : DynamicThreadManager Mask} {b : Begin} {c : Call Mask} {r : Reply Mask}

/-! No call replaces the configuration. -/

theorem map_allocateProcessor {status : Bool} {out out' : List (LogicalProcessor Mask)}
    (h : s.allocateProcessor b out = .ok (status, out', t)) : t.map = s.map := by
  unfold allocateProcessor at h
  split at h
  · cases h
    rfl
  · obtain ⟨key, _, h⟩ := Except.bind_eq_ok_iff.mp h
    obtain ⟨acc, _, h⟩ := Except.bind_eq_ok_iff.mp h
    cases h
    rfl

theorem map_takeThread {p : LogicalProcessor Mask} (h : s.takeThread b = .ok (p, t)) :
    t.map = s.map := by
  obtain ⟨key, _, h⟩ := Except.bind_eq_ok_iff.mp h
  split at h
  · cases h
  · obtain ⟨p, _, h⟩ := Except.bind_eq_ok_iff.mp h
    cases h
    rfl

theorem map_freeThread {p : LogicalProcessor Mask} (h : s.freeThread p = .ok t) :
    t.map = s.map := by
  unfold freeThread at h
  split at h
  · cases h
  · split at h
    · cases h
      rfl
    · simp only at h
      split at h <;> cases h <;> rfl

/-- A foreign thread is never found among the free ones, and so always counted as returned. -/
theorem freeThread_foreign {id : LogicalProcessor Mask} (hm : s.map = cfg)
    (hf : ∀ p ∈ cfg.proc, p.globalID ≠ id.globalID) : s.freeThread id ≠ .ok s := by
  have hst : ∀ m : ProcMap, ¬ s.StoresThread m id.globalID := by
    rintro m hs
    obtain ⟨k, l, hl, i, hi, he⟩ := anyValue_iff.mp hs
    simp only [hm, Option.map_eq_some_iff] at he
    obtain ⟨p, hp, he⟩ := he
    exact hf p (List.mem_of_getElem? hp) he
  intro h
  have hcount : ∀ u : DynamicThreadManager Mask, s.freeThread id = .ok u →
      u.freeThreadCount = s.freeThreadCount + 1 := by
    intro u hu
    simp only [freeThread, hst, or_self, if_false] at hu
    split at hu
    · cases hu
    · split at hu <;> cases hu <;> rfl
  have hs := hcount s h
  grind

section Calls

variable [Inhabited Mask]

theorem map_allocateThread {p : LogicalProcessor Mask} (h : s.allocateThread b = .ok (p, t)) :
    t.map = s.map := by
  unfold allocateThread at h
  split at h
  · cases h
    rfl
  · split at h
    · split at h
      · cases h
        rfl
      · obtain ⟨u, hu, h⟩ := Except.bind_eq_ok_iff.mp h
        obtain ⟨key, _, hu⟩ := Except.bind_eq_ok_iff.mp hu
        cases hu
        exact (map_takeThread h).trans rfl
    · exact map_takeThread h

theorem map_freeProcessor (s : DynamicThreadManager Mask) (coreID : UInt32) (packageID : UInt16) :
    (s.freeProcessor coreID packageID).map = s.map := by
  simp only [freeProcessor]
  split <;> rfl

theorem map_call (h : s.call b c = .ok (r, t)) : t.map = s.map := by
  cases c with
  | allocateProcessor =>
    obtain ⟨⟨status, out, u⟩, hu, h⟩ := Except.bind_eq_ok_iff.mp h
    cases h
    exact map_allocateProcessor hu
  | allocateThread =>
    obtain ⟨⟨p, u⟩, hu, h⟩ := Except.bind_eq_ok_iff.mp h
    cases h
    exact map_allocateThread hu
  | freeThread id =>
    obtain ⟨u, hu, h⟩ := Except.bind_eq_ok_iff.mp h
    cases h
    exact map_freeThread hu
  | freeProcessor coreID packageID =>
    cases h
    exact map_freeProcessor s coreID packageID

/-- The call releases something that was never allocated. -/
def Foreign (cfg : ProcessorConfigurationVector Mask) : Call Mask → Prop
  | .allocateProcessor => False
  | .allocateThread => False
  | .freeThread id => ∀ p ∈ cfg.proc, p.globalID ≠ id.globalID
  | .freeProcessor coreID packageID => ∀ p ∈ cfg.proc, ¬ (p.coreID = coreID ∧ p.pkgID = packageID)

/-- The call runs into the early return of `freeProcessor`. -/
def ReturnsEarly (s : DynamicThreadManager Mask) : Call Mask → Prop
  | .freeProcessor coreID packageID =>
    size s.freeCoreMap = size s.coreToThreadMapIdx ∨
      (⟨0xffffffff, coreID, packageID, 1, default⟩ : LogicalProcessor Mask).uniqueCoreID ∈
        s.freeCoreMap
  | _ => False

/-- Steps of any client, whatever it releases. -/
def AnyStep (s : DynamicThreadManager Mask) (e : Event Mask) (t : DynamicThreadManager Mask) :
    Prop :=
  s.call e.order e.call = .ok (e.reply, t)

/-- Steps of a client whose foreign releases all return early. -/
def HarmlessStep (cfg : ProcessorConfigurationVector Mask) (s : DynamicThreadManager Mask)
    (e : Event Mask) (t : DynamicThreadManager Mask) : Prop :=
  (Allowed cfg e.call ∨ Foreign cfg e.call ∧ ReturnsEarly s e.call) ∧ AnyStep s e t

/-- Allocations hand out processors of the configuration only, and no core without any. -/
structure AllocatesWithin (cfg : ProcessorConfigurationVector Mask)
    (s : DynamicThreadManager Mask) : Prop where
  processor : ∀ b, ∃ status out t, s.call b .allocateProcessor = .ok (.processors status out, t) ∧
    (status = true → out ≠ []) ∧ ∀ p ∈ out, p ∈ cfg.proc
  thread : ∀ b, ∃ p t, s.call b .allocateThread = .ok (.thread p, t) ∧
    (p = .sentinel ∨ p ∈ cfg.proc)

theorem map_run (E : Run (@AnyStep Mask _) (initial cfg)) :
    ∀ n, n ≤ E.length → (E.state n).map = cfg :=
  Run.invariant (I := fun s => s.map = cfg) rfl
    (fun _ _ _ h hs => (map_call hs).trans h) E

/-- A foreign core is inserted as a free one, unless the call returns early. -/
theorem freeProcessor_eq_iff (s : DynamicThreadManager Mask) (coreID : UInt32)
    (packageID : UInt16) :
    s.freeProcessor coreID packageID = s ↔ s.ReturnsEarly (.freeProcessor coreID packageID) := by
  simp only [freeProcessor, ReturnsEarly]
  split
  · next h => simp only [h]
  · next h =>
    refine iff_of_false ?_ h
    intro he
    have hcount := congrArg freeCoreCount he
    simp only at hcount
    grind

theorem foreign_harmless_iff (hm : s.map = cfg) (hf : Foreign cfg c) :
    s.call b c = .ok (.released, s) ↔ s.ReturnsEarly c := by
  cases c with
  | allocateProcessor => exact hf.elim
  | allocateThread => exact hf.elim
  | freeThread id =>
    refine iff_of_false ?_ (fun h => h)
    intro h
    obtain ⟨u, hu, h⟩ := Except.bind_eq_ok_iff.mp h
    cases h
    exact freeThread_foreign hm hf hu
  | freeProcessor coreID packageID =>
    rw [← freeProcessor_eq_iff]
    simp [call]

/-- What a failed allocation returns is foreign. -/
theorem foreign_sentinel (hw : cfg.WellFormed) : Foreign cfg (.freeThread .sentinel) :=
  fun _ hp => hw.ne_sentinel hp

theorem invariant_harmlessStep (hw : cfg.WellFormed) (h : s.Invariant cfg) {e : Event Mask}
    (hs : HarmlessStep cfg s e t) : t.Invariant cfg := by
  obtain ⟨ha | ⟨hf, hr⟩, hcall⟩ := hs
  · exact invariant_effect hw h (step_effect hw h ⟨ha, hcall⟩)
  · have hsame : s.call e.order e.call = .ok (.released, s) :=
      (foreign_harmless_iff h.map hf).mpr hr
    obtain ⟨-, rfl⟩ := Prod.mk.inj (Except.ok.inj (hsame.symm.trans hcall))
    exact h

theorem allocatesWithin (hw : cfg.WellFormed) (h : s.Invariant cfg) : s.AllocatesWithin cfg where
  processor := by
    intro b
    obtain ⟨r, t, hcall, he⟩ := call_effect hw h b .allocateProcessor trivial
    cases he with
    | noCore _ => exact ⟨false, [], s, hcall, by simp, by simp⟩
    | core k hk =>
      refine ⟨true, cfg.coreProcs k, _, hcall, ?_, fun p hp => (mem_coreProcs.mp hp).1⟩
      rintro - hnil
      have hne := threadsOf_ne_nil.mpr (h.isCore_free hk)
      exact hne (by simp [threadsOf, hnil])
  thread := by
    intro b
    obtain ⟨r, t, hcall, he⟩ := call_effect hw h b .allocateThread trivial
    cases he with
    | noThread _ => exact ⟨.sentinel, s, hcall, Or.inl rfl⟩
    | threadOfPartial k l p hp | threadOfFree k l p hp => exact ⟨p, _, hcall, Or.inr hp⟩

/-- In every state that any calls lead to, a foreign release changes nothing exactly when it runs
into the early return of `freeProcessor`; and clients whose foreign releases all do so are only
ever given processors of the configuration. -/
theorem foreignRelease_harmless_iff (hw : cfg.WellFormed) :
    (∀ (E : Run AnyStep (initial cfg)) (n : ℕ), n ≤ E.length → ∀ b c, Foreign cfg c →
      ((E.state n).call b c = .ok (.released, E.state n) ↔ (E.state n).ReturnsEarly c)) ∧
    ∀ (E : Run (HarmlessStep cfg) (initial cfg)) (n : ℕ), n ≤ E.length →
      (E.state n).AllocatesWithin cfg := by
  constructor
  · intro E n hn b c hf
    exact foreign_harmless_iff (map_run E n hn) hf
  · intro E n hn
    have h := Run.invariant (I := fun s => s.Invariant cfg) (invariant_initial hw)
      (fun _ _ _ h hs => invariant_harmlessStep hw h hs) E n hn
    exact allocatesWithin hw h

end Calls

theorem foreignRelease_harmless_iff_fourThreads :
    (∀ (E : Run AnyStep (initial fourThreads)) (n : ℕ), n ≤ E.length → ∀ b c,
      Foreign fourThreads c →
      ((E.state n).call b c = .ok (.released, E.state n) ↔ (E.state n).ReturnsEarly c)) ∧
    ∀ (E : Run (HarmlessStep fourThreads) (initial fourThreads)) (n : ℕ), n ≤ E.length →
      (E.state n).AllocatesWithin fourThreads :=
  foreignRelease_harmless_iff fourThreads_wellFormed

/-- The sentinel of a failed allocation, released while all four threads are free. -/
theorem not_foreignRelease_harmless : ¬ ∀ (cfg : ProcessorConfigurationVector GroupAffinity),
    cfg.WellFormed → ∀ (E : Run AnyStep (initial cfg)) (n : ℕ), n ≤ E.length → ∀ b c,
      Foreign cfg c → (E.state n).call b c = .ok (.released, E.state n) := by
  intro hall
  have hf := foreign_sentinel fourThreads_wellFormed
  have h := hall fourThreads fourThreads_wellFormed
    (Run.start ⟨Begin.largest, .allocateThread, .released⟩ _) 0 le_rfl Begin.largest
    (.freeThread .sentinel) hf
  exact (foreign_harmless_iff rfl hf).mp h

end Tailslayer.DynamicThreadManager
