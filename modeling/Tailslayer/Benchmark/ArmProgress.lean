import Tailslayer.Benchmark.ArmReports

/-! When the arms come to their end under every weakly fair scheduler. -/
namespace Tailslayer.Benchmark

open ForkJoin (Command)
open Phases (lt_iff)
open ForkJoin.System (ended_of_joined next_not_mem spawned_iff)

theorem Shared.write_of_lt {v : Shared} {array : ℕ × ℕ} {i : ℕ} {xs : List Sample}
    (hxs : v.samples array = some xs) (hi : i < xs.length) (f : Sample → Sample) :
    ∃ u, v.write array i f = some u :=
  ⟨_, write_eq_some_iff.mpr ⟨xs, xs[i], hxs, List.getElem?_eq_getElem hi, rfl⟩⟩

namespace Session

variable {session : Session} {s : State} {w : Worker} {k c i j : ℕ} {v u : Shared} {a : Action}

/-- How many steps a thread is from its end, once it no longer has to wait. -/
def remaining (session : Session) : (w : Worker) → w.Local → ℕ
  | .measurement _ _, pc =>
    match pc with
    | MeasurementThread.pinning => 2 * session.numSamples + WARMUP_ITERS + 5
    | MeasurementThread.waiting => 2 * session.numSamples + WARMUP_ITERS + 4
    | MeasurementThread.warmup i => 2 * session.numSamples + (WARMUP_ITERS - i) + 3
    | MeasurementThread.timestamp i => 2 * (session.numSamples - i) + 1
    | MeasurementThread.latency i => 2 * (session.numSamples - i)
    | MeasurementThread.gaveUp | MeasurementThread.finished => 0
  | .stress _ _, pc =>
    match pc with
    | StressThread.pinning => 3
    | StressThread.waiting => 2
    | StressThread.running _ => 1
    | StressThread.gaveUp | StressThread.finished => 0
  | .process k c, pc =>
    match pc with
    | ProcessThread.reading => (session.channelReports k c).length + 1
    | ProcessThread.reporting rest => rest.length

/-- At the join of a measurement thread the signal is up, and the array is there. -/
theorem measurement_proceeds (h : session.Reaches s)
    (hnext : session.executeBenchmarks[s.done]? = some (.join (.measurement k c)))
    {z : MeasurementThread} (hz : s.worker (.measurement k c) = some z)
    (hrunning : z.ended = false) :
    ∃ z' v, session.measurementThread k c s.shared z = some (z', v) ∧
      session.remaining (.measurement k c) z' < session.remaining (.measurement k c) z := by
  obtain ⟨hk, hc⟩ := issues_of_next hnext
  have hsignal : s.shared.measureSignal = true := by
    refine (measureSignal_iff h).mpr ⟨k, ?_, ?_⟩
    · exact executed_of_next hnext hk (by simp [lt_iff, key])
    · intro hreset
      have hlt := key_lt_of_next hnext hreset
      simp [lt_iff, key] at hlt
  obtain ⟨xs, hxs⟩ : ∃ xs, s.shared.samples (k, c) = some xs := by
    refine (allocated_iff h hk hc).mpr ⟨?_, ?_⟩
    · exact executed_of_next hnext ⟨hk, hc⟩ (by simp [lt_iff, key])
    · intro hfree
      have hlt := key_lt_of_next hnext hfree
      simp [lt_iff, key] at hlt
  have hlen := length_samples h hxs
  obtain ⟨hplace, -⟩ := (knows_recorded session).worker h hz
  cases z with
  | pinning =>
    refine ⟨_, _, rfl, ?_⟩
    split <;> simp [remaining]
  | waiting =>
    refine ⟨_, _, rfl, ?_⟩
    rw [hsignal]
    simp [remaining]
  | warmup i =>
    refine ⟨_, _, rfl, ?_⟩
    split <;> simp [remaining] <;> omega
  | timestamp i =>
    by_cases hi : i < session.numSamples
    · obtain ⟨u, hu⟩ := Shared.write_of_lt hxs (hlen ▸ hi)
        fun s => { s with timestamp := (session.clock k c i).1 }
      refine ⟨.latency i, u, ?_, by simp [remaining]⟩
      simp only [measurementThread, if_pos hi, hu]
      rfl
    · refine ⟨.finished, s.shared, ?_, by simp [remaining]⟩
      simp only [measurementThread, if_neg hi]
  | latency i =>
    have hi : i < session.numSamples := hplace.2
    obtain ⟨u, hu⟩ := Shared.write_of_lt hxs (hlen ▸ hi)
      fun s => { s with latency := (session.clock k c i).2 - (session.clock k c i).1 }
    refine ⟨.timestamp (i + 1), u, ?_, ?_⟩
    · simp only [measurementThread, hu]
      rfl
    · simp only [remaining]
      omega
  | gaveUp | finished => cases hrunning

/-- At the join of a stress thread, it has been told to go and to stop. -/
theorem stress_proceeds (h : session.Reaches s)
    (hnext : session.executeBenchmarks[s.done]? = some (.join (.stress k j)))
    {z : StressThread} (hrunning : z.ended = false) :
    ∃ z' v, session.stressThread k j s.shared z = some (z', v) ∧
      session.remaining (.stress k j) z' < session.remaining (.stress k j) z := by
  obtain ⟨hk, hload, -⟩ := issues_of_next hnext
  have hgo : s.shared.go k = true :=
    (go_iff h).mpr (executed_of_next hnext ⟨hk, hload⟩ (by simp [lt_iff, key]))
  have hstop : s.shared.stop k = true :=
    (stop_iff h).mpr (executed_of_next hnext ⟨hk, hload⟩ (by simp [lt_iff, key]))
  cases z with
  | pinning =>
    refine ⟨_, _, rfl, ?_⟩
    split <;> simp [remaining]
  | waiting =>
    refine ⟨_, _, rfl, ?_⟩
    rw [hgo]
    simp [remaining]
  | running state =>
    refine ⟨_, _, rfl, ?_⟩
    rw [hstop]
    simp [remaining]
  | gaveUp | finished => cases hrunning

theorem process_proceeds (h : session.Reaches s) {z : ProcessThread}
    (hz : s.worker (.process k c) = some z) (hrunning : z.ended = false) :
    ∃ z' v, session.processThread k c s.shared z = some (z', v) ∧
      session.remaining (.process k c) z' < session.remaining (.process k c) z := by
  cases z with
  | reading =>
    have hxs := samples_of_processing h ⟨_, hz, rfl⟩
    refine ⟨.reporting (session.channelReports k c), s.shared, ?_, by simp [remaining]⟩
    simp only [processThread, hxs, Option.bind_eq_bind, Option.bind_some, processThread_expected]
    rfl
  | reporting rest =>
    cases rest with
    | nil => cases hrunning
    | cons r rest => exact ⟨.reporting rest, _, rfl, by simp [remaining]⟩

/-- The sample arrays can be allocated, there is a core for every channel, and where there is one
stress thread to take, there are as many as the arm starts. -/
structure Served (session : Session) : Prop where
  memory : ∀ k < session.arms.length, ∀ c < (session.arm k).numChannels,
    session.malloc k c = true
  cores : ∀ k < session.arms.length, (session.arm k).numChannels ≤ (session.arm k).numCores
  stress : ∀ k < session.arms.length, (session.arm k).withStress = true →
    (session.arm k).numStress ≤ (session.arm k).stressCores

/-- No action of the main thread faults. -/
theorem act_proceeds (hserved : session.Served) (h : session.Reaches s)
    (hnext : session.executeBenchmarks[s.done]? = some (.act a)) :
    ∃ v, session.act a s.shared = some v := by
  cases a with
  | allocate k c =>
    obtain ⟨hk, hc⟩ := issues_of_next hnext
    exact ⟨_, if_pos ⟨hserved.memory k hk c hc, hc.trans_le (hserved.cores k hk)⟩⟩
  | takeStress k j =>
    obtain ⟨hk, hload, hj⟩ := issues_of_next hnext
    exact ⟨_, if_pos (hj.trans_le (hserved.stress k hk hload))⟩
  | go | signal | stop | reset => exact ⟨_, rfl⟩
  | pair k =>
    simp only [act, channels_of_next_pair h hnext, processHedgedData_expected.1,
      Option.bind_eq_bind, Option.bind_some]
    exact ⟨_, rfl⟩
  | report k i =>
    obtain ⟨hk, hi⟩ := issues_of_next hnext
    have hpair : .act (.pair k) ∈ session.executed s :=
      executed_of_next hnext hk (by simp [lt_iff, key])
    have hget : ∃ r, (s.shared.pairReports k)[i]? = some r := by
      rw [pairReports_of_executed h hpair]
      exact ⟨_, List.getElem?_eq_getElem (processHedgedData_expected.2 ▸ hi)⟩
    obtain ⟨r, hr⟩ := hget
    simp only [act, hr, Option.bind_eq_bind, Option.bind_some]
    exact ⟨_, rfl⟩
  | free k c =>
    obtain ⟨hk, hc⟩ := issues_of_next hnext
    have hdone : .act (.allocate k c) ∈ session.executed s :=
      executed_of_next hnext ⟨hk, hc⟩ (by simp [lt_iff, key])
    obtain ⟨xs, hxs⟩ := (allocated_iff h hk hc).mpr ⟨hdone, next_not_mem hnext⟩
    simp only [act, hxs, Option.bind_eq_bind, Option.bind_some]
    exact ⟨_, rfl⟩

theorem Served.progresses (hserved : session.Served) :
    session.system.Progresses Shared.initial session.remaining where
  forked := by
    intro w hw
    have hissued := mem_executeBenchmarks.mp hw
    refine before_of_key_lt ?_ hissued ?_
    · cases w <;> exact hissued
    · cases w <;> simp [lt_iff, key]
  act := fun s a h hnext => act_proceeds hserved h hnext
  join := by
    intro s w z h hnext hz hrunning
    cases w with
    | measurement k c => exact measurement_proceeds h hnext hz hrunning
    | stress k j => exact stress_proceeds h hnext hrunning
    | process k c => exact process_proceeds h hz hrunning

/-- Nothing is left of the arms. -/
structure CleanedUp (session : Session) (s : State) : Prop where
  threads : ∀ w, ¬ session.Active s w
  arrays : ∀ array, s.shared.samples array = none
  signal : s.shared.measureSignal = false

theorem cleanedUp_of_finished (h : session.Reaches s) (hf : session.system.Finished s) :
    session.CleanedUp s := by
  have hall : ∀ x, x ∈ session.executed s ↔ session.Issues x := by
    intro x
    rw [executed, hf.executed]
    exact mem_executeBenchmarks
  refine ⟨?_, ?_, ?_⟩
  · intro w hw
    obtain ⟨hspawn, hjoin⟩ := hw.between h
    exact hjoin ((hall _).mpr (issues_join (issues_of_executed hspawn)))
  · rintro ⟨k, c⟩
    refine Option.eq_none_iff_forall_ne_some.mpr fun xs hxs => ?_
    obtain ⟨before, a, after, he, rfl, -⟩ :=
      ((latch_allocated session k c).iff_executed (by simp [Shared.initial]) h).mp ⟨xs, hxs⟩
    change session.executed s = _ at he
    have hallocated : .act (.allocate k c) ∈ session.executed s :=
      he ▸ List.mem_append_right _ List.mem_cons_self
    obtain ⟨hk, hc⟩ := issues_of_executed hallocated
    obtain ⟨-, hfree⟩ := (allocated_iff h hk hc).mp ⟨xs, hxs⟩
    exact hfree ((hall _).mpr ⟨hk, hc⟩)
  · rw [Bool.eq_false_iff]
    intro hsignal
    obtain ⟨k, hup, hreset⟩ := (measureSignal_iff h).mp hsignal
    have hk : k < session.arms.length := issues_of_executed hup
    exact hreset ((hall _).mpr hk)

/-- Who gets through all arms was served. -/
theorem served_of_finished (h : session.Reaches s) (hf : session.system.Finished s) :
    session.Served := by
  have hacts : ∀ a, session.Issues (.act a) → ∃ v u, session.act a v = some u := by
    intro a ha
    refine ForkJoin.System.acts_of_executed h ?_
    rw [hf.executed]
    exact mem_executeBenchmarks.mpr ha
  have hallocated : ∀ k < session.arms.length, ∀ c < (session.arm k).numChannels,
      session.malloc k c = true ∧ c < (session.arm k).numCores := by
    intro k hk c hc
    obtain ⟨v, u, hact⟩ := hacts (.allocate k c) ⟨hk, hc⟩
    cases effect_of_act hact with
    | allocate hmemory hcore => exact ⟨hmemory, hcore⟩
  refine ⟨fun k hk c hc => (hallocated k hk c hc).1, ?_, ?_⟩
  · intro k hk
    by_contra hlt
    exact lt_irrefl _ (hallocated k hk _ (Nat.lt_of_not_le hlt)).2
  · intro k hk hload
    by_contra hlt
    obtain ⟨v, u, hact⟩ := hacts (.takeStress k (session.arm k).stressCores)
      ⟨hk, hload, Nat.lt_of_not_le hlt⟩
    cases effect_of_act hact with
    | takeStress hleft => exact lt_irrefl _ hleft

theorem served_twoChannels : twoChannels.Served where
  memory := fun _ _ _ _ => rfl
  cores := by decide
  stress := by decide

theorem served_refused : refused.Served where
  memory := fun _ _ _ _ => rfl
  cores := by decide
  stress := by decide

/-- The end can be reached. -/
theorem Served.exists_finished (hserved : session.Served) :
    ∃ s, session.Reaches s ∧ session.system.Finished s :=
  ForkJoin.System.exists_finished hserved.progresses

end Session

end Tailslayer.Benchmark
