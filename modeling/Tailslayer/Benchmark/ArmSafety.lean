import Tailslayer.Benchmark.ArmOrder

/-! Every interleaving of the arms' threads: when a measurement runs, what runs next to it, and who
may touch the sample arrays. -/
namespace Tailslayer.Benchmark

open ForkJoin (Command)
open Phases (lt_iff)
open ForkJoin.System (Latch)

/-- The thread is past the barrier and still measures. -/
def MeasurementThread.Measuring : MeasurementThread → Prop
  | .warmup _ | .timestamp _ | .latency _ => True
  | .pinning | .waiting | .gaveUp | .finished => False

namespace Shared

variable {v u : Shared} {array : ℕ × ℕ} {i : ℕ} {f : Sample → Sample}

theorem write_eq_some_iff : v.write array i f = some u ↔ ∃ s x, v.samples array = some s ∧
    s[i]? = some x ∧
    u = { v with samples := Function.update v.samples array (some (s.set i (f x))) } := by
  unfold write
  cases hs : v.samples array with
  | none => simp
  | some s =>
    cases hx : s[i]? with
    | none => simp [hx]
    | some x => simp [hx, eq_comm]

theorem samples_of_write (h : v.write array i f = some u) : ∃ s x, v.samples array = some s ∧
    s[i]? = some x ∧ u.samples array = some (s.set i (f x)) := by
  obtain ⟨s, x, hs, hx, rfl⟩ := write_eq_some_iff.mp h
  exact ⟨s, x, hs, hx, Function.update_self _ _ _⟩

end Shared

namespace Session

variable {session : Session} {s : State} {w : Worker} {k c i j : ℕ} {v u : Shared} {a : Action}
  {x y : Command Worker Action}

/-- All that a step of a thread does to what is shared. -/
theorem work_cases {z z' : w.Local} (h : session.system.work w z v = some (z', u)) : u = v ∨
    (∃ k c i f, w = .measurement k c ∧ v.write (k, c) i f = some u) ∨
    ∃ k c r, w = .process k c ∧ u = v.report ⟨k, some c⟩ r := by
  change session.work w z v = _ at h
  cases w with
  | measurement k c =>
    cases z with
    | pinning | waiting | warmup =>
      cases h
      exact .inl rfl
    | timestamp i =>
      simp only [work, measurementThread] at h
      split at h
      · obtain ⟨u', hu, h⟩ := Option.bind_eq_some_iff.mp h
        cases h
        exact .inr (.inl ⟨k, c, i, _, rfl, hu⟩)
      · cases h
        exact .inl rfl
    | latency i =>
      obtain ⟨u', hu, h⟩ := Option.bind_eq_some_iff.mp h
      cases h
      exact .inr (.inl ⟨k, c, i, _, rfl, hu⟩)
    | gaveUp | finished => cases h
  | stress k j =>
    cases z with
    | pinning | waiting | running =>
      cases h
      exact .inl rfl
    | gaveUp | finished => cases h
  | process k c =>
    cases z with
    | reading =>
      obtain ⟨s, -, h⟩ := Option.bind_eq_some_iff.mp h
      obtain ⟨reports, -, h⟩ := Option.bind_eq_some_iff.mp h
      cases h
      exact .inl rfl
    | reporting rest =>
      cases rest with
      | nil => cases h
      | cons r rest =>
        cases h
        exact .inr (.inr ⟨k, c, r, rfl, rfl⟩)

/-- The flags and the main thread's reports are not the threads' business, nor is which arrays
there are. -/
theorem frame_work {z z' : w.Local} (h : session.system.work w z v = some (z', u)) :
    u.measureSignal = v.measureSignal ∧ u.go = v.go ∧ u.stop = v.stop ∧
      u.pairReports = v.pairReports ∧
      ∀ array, (∃ s, u.samples array = some s) ↔ ∃ s, v.samples array = some s := by
  rcases work_cases h with rfl | ⟨k, c, i, f, -, hw⟩ | ⟨k, c, r, -, rfl⟩
  · exact ⟨rfl, rfl, rfl, rfl, fun _ => Iff.rfl⟩
  · obtain ⟨s, x, hs, -, rfl⟩ := Shared.write_eq_some_iff.mp hw
    refine ⟨rfl, rfl, rfl, rfl, ?_⟩
    intro array
    by_cases ha : array = (k, c)
    · subst ha
      simp [hs]
    · simp [Function.update_of_ne ha]
  · exact ⟨rfl, rfl, rfl, rfl, fun _ => Iff.rfl⟩

/-- All that an action of the main thread does. -/
inductive ActionEffect (session : Session) (v : Shared) : Action → Shared → Prop
  | allocate {k c : ℕ} (memory : session.malloc k c = true) (core : c < (session.arm k).numCores) :
    ActionEffect session v (.allocate k c)
      { v with
        samples :=
          Function.update v.samples (k, c) (some (List.replicate session.numSamples ⟨0, 0⟩)) }
  | takeStress {k j : ℕ} (left : j < (session.arm k).stressCores) :
    ActionEffect session v (.takeStress k j) v
  | go (k : ℕ) : ActionEffect session v (.go k) { v with go := Function.update v.go k true }
  | signal (k : ℕ) : ActionEffect session v (.signal k) { v with measureSignal := true }
  | stop (k : ℕ) : ActionEffect session v (.stop k) { v with stop := Function.update v.stop k true }
  | pair {k : ℕ} {channelSamples : List (List Sample)} {reports : List Stats.Report}
    (read : (List.range (session.arm k).numChannels).mapM (fun c => v.samples (k, c)) =
      some channelSamples)
    (process : session.stats.processHedgedData (session.arm k).name channelSamples
      session.numSamples = some reports) :
    ActionEffect session v (.pair k)
      { v with pairReports := Function.update v.pairReports k reports }
  | report {k i : ℕ} {r : Stats.Report} (next : (v.pairReports k)[i]? = some r) :
    ActionEffect session v (.report k i) (v.report ⟨k, none⟩ r)
  | free {k c : ℕ} {s : List Sample} (allocated : v.samples (k, c) = some s) :
    ActionEffect session v (.free k c)
      { v with samples := Function.update v.samples (k, c) none }
  | reset (k : ℕ) : ActionEffect session v (.reset k) { v with measureSignal := false }

theorem effect_of_act (h : session.act a v = some u) : session.ActionEffect v a u := by
  cases a with
  | allocate k c =>
    simp only [act] at h
    split at h
    · next hgranted =>
      cases h
      exact .allocate hgranted.1 hgranted.2
    · cases h
  | takeStress k j =>
    simp only [act] at h
    split at h
    · next hleft =>
      cases h
      exact .takeStress hleft
    · cases h
  | go k =>
    cases h
    exact .go k
  | signal k =>
    cases h
    exact .signal k
  | stop k =>
    cases h
    exact .stop k
  | pair k =>
    obtain ⟨channelSamples, hread, h⟩ := Option.bind_eq_some_iff.mp h
    obtain ⟨reports, hprocess, h⟩ := Option.bind_eq_some_iff.mp h
    cases h
    exact .pair hread hprocess
  | report k i =>
    obtain ⟨r, hr, h⟩ := Option.bind_eq_some_iff.mp h
    cases h
    exact .report hr
  | free k c =>
    obtain ⟨s, hs, h⟩ := Option.bind_eq_some_iff.mp h
    cases h
    exact .free hs
  | reset k =>
    cases h
    exact .reset k

theorem latch_signal (session : Session) : session.system.Latch (fun v => v.measureSignal = true)
    (fun a => ∃ k, a = .signal k) (fun a => ∃ k, a = .reset k) where
  act := by
    intro a v u h
    cases effect_of_act h <;> simp [Shared.report]
  work := by
    intro w z v z' u h
    rw [(frame_work h).1]

theorem update_true_iff {flag : ℕ → Bool} :
    Function.update flag j true k = true ↔ j = k ∨ flag k = true := by
  by_cases hj : k = j
  · simp [hj]
  · simp [Function.update_of_ne hj, Ne.symm hj]

theorem latch_go (session : Session) (k : ℕ) :
    session.system.Latch (fun v => v.go k = true) (· = .go k) (fun _ => False) where
  act := by
    intro a v u h
    cases effect_of_act h <;> simp [Shared.report, update_true_iff]
  work := by
    intro w z v z' u h
    rw [(frame_work h).2.1]

theorem latch_stop (session : Session) (k : ℕ) :
    session.system.Latch (fun v => v.stop k = true) (· = .stop k) (fun _ => False) where
  act := by
    intro a v u h
    cases effect_of_act h <;> simp [Shared.report, update_true_iff]
  work := by
    intro w z v z' u h
    rw [(frame_work h).2.2.1]

theorem latch_allocated (session : Session) (k c : ℕ) :
    session.system.Latch (fun v => ∃ s, v.samples (k, c) = some s) (· = .allocate k c)
      (· = .free k c) where
  act := by
    intro a v u h
    cases effect_of_act h with
    | @allocate k' c' =>
      by_cases he : (k, c) = (k', c')
      · obtain ⟨rfl, rfl⟩ := Prod.mk.inj he
        simp
      · have hne : ¬ (k' = k ∧ c' = c) := fun hh => he (by rw [hh.1, hh.2])
        simp [Function.update_of_ne he, hne]
    | @free k' c' s hs =>
      by_cases he : (k, c) = (k', c')
      · obtain ⟨rfl, rfl⟩ := Prod.mk.inj he
        simp
      · have hne : ¬ (k' = k ∧ c' = c) := fun hh => he (by rw [hh.1, hh.2])
        simp [Function.update_of_ne he, hne]
    | takeStress | go | signal | stop | pair | report | reset => simp [Shared.report]
  work := by
    intro w z v z' u h
    exact (frame_work h).2.2.2.2 (k, c)

theorem go_iff (h : session.Reaches s) :
    s.shared.go k = true ↔ .act (.go k) ∈ session.executed s :=
  (latch_go session k).iff_set (by simp [Shared.initial]) h

theorem stop_iff (h : session.Reaches s) :
    s.shared.stop k = true ↔ .act (.stop k) ∈ session.executed s :=
  (latch_stop session k).iff_set (by simp [Shared.initial]) h

/-- A channel's array is there from its allocation to its release. -/
theorem allocated_iff (h : session.Reaches s) (hk : k < session.arms.length)
    (hc : c < (session.arm k).numChannels) : (∃ xs, s.shared.samples (k, c) = some xs) ↔
      .act (.allocate k c) ∈ session.executed s ∧ .act (.free k c) ∉ session.executed s :=
  (latch_allocated session k c).iff_set_not_cleared
    (before_of_key_lt ⟨hk, hc⟩ ⟨hk, hc⟩ (by simp [lt_iff, key])) (by simp [Shared.initial]) h

/-- The signal is up between `signal` and `reset` of one arm. -/
theorem measureSignal_iff (h : session.Reaches s) : s.shared.measureSignal = true ↔
    ∃ k, .act (.signal k) ∈ session.executed s ∧ .act (.reset k) ∉ session.executed s := by
  rw [(latch_signal session).iff_executed (by simp [Shared.initial]) h]
  have hsorted : (session.executed s).Pairwise (fun x y => key x < key y) :=
    (sorted_executeBenchmarks session).sublist (List.take_sublist _ _)
  constructor
  · rintro ⟨before, a, after, he, ⟨k, rfl⟩, hclear⟩
    change session.executed s = _ at he
    refine ⟨k, he ▸ List.mem_append_right _ List.mem_cons_self, ?_⟩
    intro hreset
    rw [he] at hreset hsorted
    rcases List.mem_append.mp hreset with hr | hr
    · have hlt := (List.pairwise_append.mp hsorted).2.2 _ hr _ List.mem_cons_self
      simp [lt_iff, key] at hlt
    · rcases List.mem_cons.mp hr with hr | hr
      · cases hr
      · exact hclear _ hr ⟨k, rfl⟩
  · rintro ⟨k, hsignal, hreset⟩
    obtain ⟨before, after, he⟩ := List.append_of_mem hsignal
    refine ⟨before, .signal k, after, he, ⟨k, rfl⟩, ?_⟩
    rintro b hb ⟨j, rfl⟩
    change session.executed s = _ at he
    have hj : .act (.reset j) ∈ session.executed s :=
      he ▸ List.mem_append_right _ (List.mem_cons_of_mem _ hb)
    rw [he] at hsorted
    have hlt := (List.pairwise_cons.mp (List.pairwise_append.mp hsorted).2.1).1 _ hb
    have hk : k < session.arms.length := issues_of_executed hsignal
    rcases Nat.lt_trichotomy k j with hkj | rfl | hkj
    · exact hreset (executed_of_key_lt hj hk (by simp [lt_iff, key, hkj]))
    · exact hreset hj
    · simp [lt_iff, key] at hlt
      omega

theorem issues_join (h : session.Issues (.spawn w)) : session.Issues (.join w) := by
  cases w <;> exact h

/-- The main thread has not got past the join. -/
theorem not_join_lt (h : session.Reaches s) (ha : session.Active s w)
    (hx : x ∈ session.executed s) : ¬ key (.join w) < key x := by
  obtain ⟨hspawn, hjoin⟩ := ha.between h
  intro hlt
  exact hjoin (executed_of_key_lt hx (issues_join (issues_of_executed hspawn)) hlt)

theorem next_of_active (h : session.Reaches s) (ha : session.Active s w)
    (hnext : session.executeBenchmarks[s.done]? = some x) :
    key (.spawn w) < key x ∧ ¬ key (.join w) < key x := by
  obtain ⟨hspawn, hjoin⟩ := ha.between h
  refine ⟨key_lt_of_next hnext hspawn, fun hlt => hjoin ?_⟩
  exact executed_of_next hnext (issues_join (issues_of_executed hspawn)) hlt

theorem active_of_measuring {pc : MeasurementThread} (hx : s.worker (.measurement k c) = some pc)
    (hm : pc.Measuring) : session.Active s (.measurement k c) := by
  refine ⟨pc, hx, ?_⟩
  cases pc with
  | warmup | timestamp | latency => rfl
  | pinning | waiting | gaveUp | finished => cases hm

/-- The pinning or the priority of the stress thread is refused. -/
def stressGivesUp (session : Session) (k j : ℕ) : Bool :=
  (stressThreadStatus (session.stressAnswers k j)).givesUp

/-- A thread measures under the signal, and a stress thread that ended was told to stop or gave
up. -/
def Informed (session : Session) : (w : Worker) → w.Local → Shared → Prop
  | .measurement _ _, pc, v => MeasurementThread.Measuring pc → v.measureSignal = true
  | .stress k j, pc, v => StressThread.ended pc = true →
    v.stop k = true ∨ pc = StressThread.gaveUp ∧ session.stressGivesUp k j = true
  | .process _ _, _, _ => True

theorem informed_congr {z : w.Local} (hi : session.Informed w z v)
    (hsignal : u.measureSignal = v.measureSignal) (hstop : u.stop = v.stop) :
    session.Informed w z u := by
  cases w with
  | measurement => exact fun hm => hsignal ▸ hi hm
  | stress => exact fun hf => hstop ▸ hi hf
  | process => trivial

theorem knows_informed (session : Session) :
    session.system.Knows Shared.initial session.Informed where
  spawn := by
    intro s w _ _
    cases w with
    | measurement => exact fun hm => hm.elim
    | stress => exact fun hf => nomatch hf
    | process => trivial
  act := by
    intro s a w z v h hnext hz hi hact
    cases w with
    | measurement k c =>
      intro hm
      have hsignal := hi hm
      have hbetween := next_of_active h (active_of_measuring hz hm) hnext
      cases effect_of_act hact with
      | reset j =>
        -- the signal goes down after the joins of its arm, and before the next arm's threads
        simp [lt_iff, key] at hbetween
        omega
      | signal => rfl
      | allocate | takeStress | go | stop | pair | report | free => exact hsignal
    | stress k j =>
      intro hf
      have hended := hi hf
      cases effect_of_act hact with
      | stop => exact hended.imp_left fun hstop => update_true_iff.mpr (.inr hstop)
      | allocate | takeStress | go | signal | pair | report | free | reset => exact hended
    | process => trivial
  own := by
    intro s w z z' v h hz hi hwork
    cases w with
    | measurement k c =>
      have hframe := (frame_work hwork).1
      cases z with
      | pinning =>
        simp only [system, work, measurementThread] at hwork
        cases hwork
        intro hm
        split at hm <;> cases hm
      | waiting =>
        simp only [system, work, measurementThread] at hwork
        cases hwork
        intro hm
        cases hsignal : s.shared.measureSignal with
        | true => rfl
        | false =>
          rw [hsignal] at hm
          cases hm
      | warmup | timestamp | latency =>
        intro _
        rw [hframe]
        exact hi trivial
      | gaveUp | finished => cases hwork
    | stress k j =>
      cases z with
      | pinning =>
        simp only [system, work, stressThread] at hwork
        cases hwork
        intro hf
        split at hf
        · next hgives => exact .inr ⟨if_pos hgives, hgives⟩
        · cases hf
      | waiting =>
        simp only [system, work, stressThread] at hwork
        cases hwork
        intro hf
        split at hf <;> cases hf
      | running =>
        simp only [system, work, stressThread] at hwork
        cases hwork
        intro hf
        cases hstop : s.shared.stop k with
        | true => exact .inl rfl
        | false =>
          rw [hstop] at hf
          cases hf
      | gaveUp | finished => cases hwork
    | process => trivial
  other := by
    intro s w w' z y y' v h _ _ hi _ hwork
    have hframe := frame_work hwork
    exact informed_congr hi hframe.1 hframe.2.2.1

/-- What holds while a thread of the arm measures. -/
structure UnderWay (session : Session) (k : ℕ) (s : State) : Prop where
  signal : s.shared.measureSignal = true
  started : ∀ c < (session.arm k).numChannels, ∃ pc, s.worker (.measurement k c) = some pc
  allocated : ∀ c < (session.arm k).numChannels, ∃ xs, s.shared.samples (k, c) = some xs
  load : (session.arm k).withStress = true → s.shared.go k = true ∧ s.shared.stop k = false ∧
    ∀ j < (session.arm k).numStress, ∃ pc, s.worker (.stress k j) = some pc ∧
      (StressThread.ended pc = false ∨
        pc = StressThread.gaveUp ∧ session.stressGivesUp k j = true)
  alone : ∀ w, session.Active s w → w.arm = k ∧ ∀ c, w ≠ .process k c

/-- In every interleaving: a thread that measures was let through the barrier after all the
measurement threads of its arm were started; all of the arm's stress threads were started and told
to go, none is told to stop, and none has ended before the measurement ends but those that gave up;
and nothing else runs, no other arm's threads and no processing. -/
theorem underWay_of_measuring (h : session.Reaches s) {pc : MeasurementThread}
    (hx : s.worker (.measurement k c) = some pc) (hm : pc.Measuring) :
    session.UnderWay k s := by
  have hactive : session.Active s (.measurement k c) := active_of_measuring hx hm
  have hsignal : s.shared.measureSignal = true := (knows_informed session).worker h hx hm
  obtain ⟨hspawn, hjoin⟩ := hactive.between h
  obtain ⟨hk, hc⟩ := issues_of_executed hspawn
  have hup : .act (.signal k) ∈ session.executed s := by
    obtain ⟨j, hj, hreset⟩ := (measureSignal_iff h).mp hsignal
    have hle := not_join_lt h hactive hj
    rcases Nat.lt_trichotomy j k with hjk | rfl | hkj
    · have hlt : j < session.arms.length := issues_of_executed hj
      have hdone : .act (.reset j) ∈ session.executed s :=
        executed_of_key_lt hspawn hlt (by simp [lt_iff, key, hjk])
      exact absurd hdone hreset
    · exact hj
    · simp [lt_iff, key] at hle
      omega
  have hstarted : ∀ c < (session.arm k).numChannels,
      .spawn (.measurement k c) ∈ session.executed s := by
    intro c hc
    exact executed_of_key_lt hup ⟨hk, hc⟩ (by simp [lt_iff, key])
  refine ⟨hsignal, fun c hc => (ForkJoin.System.spawned_iff h).mpr (hstarted c hc), ?_, ?_, ?_⟩
  · intro c hc
    refine (allocated_iff h hk hc).mpr ⟨?_, ?_⟩
    · exact executed_of_key_lt hup ⟨hk, hc⟩ (by simp [lt_iff, key])
    · intro hfree
      have hle := not_join_lt h hactive hfree
      simp [lt_iff, key] at hle
  · intro hload
    have hstop : s.shared.stop k = false := by
      rw [Bool.eq_false_iff, ne_eq, stop_iff h]
      intro hstop
      have hle := not_join_lt h hactive hstop
      simp [lt_iff, key] at hle
    refine ⟨(go_iff h).mpr ?_, hstop, ?_⟩
    · exact executed_of_key_lt hup ⟨hk, hload⟩ (by simp [lt_iff, key])
    · intro j hj
      have hstress : .spawn (.stress k j) ∈ session.executed s :=
        executed_of_key_lt hup ⟨hk, hload, hj⟩ (by simp [lt_iff, key])
      obtain ⟨pc, hpc⟩ := (ForkJoin.System.spawned_iff h).mpr hstress
      refine ⟨pc, hpc, ?_⟩
      cases hended : StressThread.ended pc with
      | false => exact .inl rfl
      | true =>
        have hend := (knows_informed session).worker h hpc hended
        exact .inr (hend.resolve_left (by rw [hstop]; exact Bool.false_ne_true))
  · intro w hw
    have hlow := not_join_lt h hw hup
    have hhigh := not_join_lt h hactive (hw.between h).1
    cases w <;> simp [lt_iff, key] at hlow hhigh <;> simp [Worker.arm] <;> omega

/-- The main thread raises the signal, and the first channel's thread gets past the barrier. -/
def firstThrough : List (Option Worker) :=
  [none, none, none, none, none, none, none, none, some (.measurement 0 0),
    some (.measurement 0 0)]

theorem underWay_of_measuring_twoChannels :
    ∃ s, twoChannels.Reaches s ∧ twoChannels.UnderWay 0 s :=
  ⟨_, reaches_scheduled (rfl : twoChannels.scheduled firstThrough = some _),
    underWay_of_measuring (k := 0) (c := 0)
      (reaches_scheduled (rfl : twoChannels.scheduled firstThrough = some _)) rfl trivial⟩

inductive Access
  | read
  | write
  deriving DecidableEq, Repr

/-- How the next step of the main thread (`none`) or of a thread touches an array. With a single
channel, `process_hedged_data` returns before it reads. -/
def nextAccess (session : Session) (s : State) (array : ℕ × ℕ) : Option Worker → Option Access
  | none =>
    match session.executeBenchmarks[s.done]? with
    | some (.act (.allocate k c)) | some (.act (.free k c)) =>
      if array = (k, c) then some .write else none
    | some (.act (.pair k)) =>
      if array.1 = k ∧ array.2 < (session.arm k).numChannels ∧ 1 < (session.arm k).numChannels
      then some .read else none
    | _ => none
  | some (.measurement k c) =>
    match s.worker (.measurement k c) with
    | some (MeasurementThread.timestamp i) =>
      if array = (k, c) ∧ i < session.numSamples then some .write else none
    | some (MeasurementThread.latency _) => if array = (k, c) then some .write else none
    | _ => none
  | some (.process k c) =>
    match s.worker (.process k c) with
    | some ProcessThread.reading => if array = (k, c) then some .read else none
    | _ => none
  | some (.stress _ _) => none

variable {array : ℕ × ℕ} {access access' : Access} {who who' : Option Worker}

/-- Threads only touch the array of their own channel. -/
theorem access_thread (h : session.nextAccess s array (some w) = some access) :
    session.Active s w ∧ (w = .measurement array.1 array.2 ∧ access = .write ∨
      w = .process array.1 array.2 ∧ access = .read) := by
  cases w with
  | measurement k c =>
    simp only [nextAccess] at h
    split at h
    · next hpc =>
      split at h
      · next hcond =>
        cases h
        obtain ⟨rfl, -⟩ := hcond
        exact ⟨⟨_, hpc, rfl⟩, .inl ⟨rfl, rfl⟩⟩
      · cases h
    · next hpc =>
      split at h
      · next hcond =>
        cases h
        subst hcond
        exact ⟨⟨_, hpc, rfl⟩, .inl ⟨rfl, rfl⟩⟩
      · cases h
    · cases h
  | process k c =>
    simp only [nextAccess] at h
    split at h
    · next hpc =>
      split at h
      · next hcond =>
        cases h
        subst hcond
        exact ⟨⟨_, hpc, rfl⟩, .inr ⟨rfl, rfl⟩⟩
      · cases h
    · cases h
  | stress => cases h

theorem access_main (h : session.nextAccess s array none = some access) :
    ∃ x, session.executeBenchmarks[s.done]? = some x ∧
      (x = .act (.allocate array.1 array.2) ∧ access = .write ∨
        x = .act (.free array.1 array.2) ∧ access = .write ∨
        x = .act (.pair array.1) ∧ access = .read ∧
          array.2 < (session.arm array.1).numChannels) := by
  simp only [nextAccess] at h
  split at h
  · next hnext =>
    split at h
    · next hcond =>
      cases h
      subst hcond
      exact ⟨_, hnext, .inl ⟨rfl, rfl⟩⟩
    · cases h
  · next hnext =>
    split at h
    · next hcond =>
      cases h
      subst hcond
      exact ⟨_, hnext, .inr (.inl ⟨rfl, rfl⟩)⟩
    · cases h
  · next hnext =>
    split at h
    · next hcond =>
      cases h
      obtain ⟨rfl, hc, -⟩ := hcond
      exact ⟨_, hnext, .inr (.inr ⟨rfl, rfl, hc⟩)⟩
    · cases h
  · cases h

/-- Next to the main thread, only a processing thread touches an array, while both read. -/
theorem reads_of_main (h : session.Reaches s)
    (hmain : session.nextAccess s array none = some access)
    (hthread : session.nextAccess s array (some w) = some access') :
    access = .read ∧ access' = .read := by
  obtain ⟨x, hnext, hx⟩ := access_main hmain
  obtain ⟨hactive, hw⟩ := access_thread hthread
  have hbetween := next_of_active h hactive hnext
  rcases hx with ⟨rfl, -⟩ | ⟨rfl, -⟩ | ⟨rfl, hread, -⟩ <;>
    rcases hw with ⟨rfl, -⟩ | ⟨rfl, hread'⟩
  · simp [lt_iff, key] at hbetween
  · simp [lt_iff, key] at hbetween
  · simp [lt_iff, key] at hbetween
  · simp [lt_iff, key] at hbetween
  · simp [lt_iff, key] at hbetween
  · exact ⟨hread, hread'⟩

/-- No measurement thread is left when a processing thread of its channel runs. -/
theorem same_thread {w' : Worker} (h : session.Reaches s)
    (hw : session.nextAccess s array (some w) = some access)
    (hw' : session.nextAccess s array (some w') = some access') : w = w' := by
  obtain ⟨hactive, hcase⟩ := access_thread hw
  obtain ⟨hactive', hcase'⟩ := access_thread hw'
  have hspawn := not_join_lt h hactive (hactive'.between h).1
  have hspawn' := not_join_lt h hactive' (hactive.between h).1
  rcases hcase with ⟨rfl, -⟩ | ⟨rfl, -⟩ <;> rcases hcase' with ⟨rfl, -⟩ | ⟨rfl, -⟩
  · rfl
  · simp [lt_iff, key] at hspawn
  · simp [lt_iff, key] at hspawn'
  · rfl

/-- Every array has the configured number of samples. -/
theorem length_samples (h : session.Reaches s) {xs : List Sample}
    (hxs : s.shared.samples array = some xs) : xs.length = session.numSamples := by
  have hsized : ∀ array xs, s.shared.samples array = some xs → xs.length = session.numSamples := by
    refine ForkJoin.System.invariant_shared (P := fun v => ∀ array xs,
      v.samples array = some xs → xs.length = session.numSamples) ?_ ?_ ?_ h
    · intro array xs hxs
      cases hxs
    · intro a v u hv hact array xs hxs
      cases effect_of_act hact with
      | @allocate k c =>
        by_cases ha : array = (k, c)
        · subst ha
          obtain rfl := by simpa using hxs
          exact List.length_replicate
        · exact hv array xs (by simpa [Function.update_of_ne ha] using hxs)
      | @free k c =>
        by_cases ha : array = (k, c)
        · subst ha
          simp at hxs
        · exact hv array xs (by simpa [Function.update_of_ne ha] using hxs)
      | takeStress | go | signal | stop | pair | report | reset => exact hv array xs hxs
    · intro w z v z' u hv hwork array xs hxs
      rcases work_cases hwork with rfl | ⟨k, c, i, f, -, hwrite⟩ | ⟨k, c, r, -, rfl⟩
      · exact hv array xs hxs
      · obtain ⟨ys, y, hys, -, rfl⟩ := Shared.write_eq_some_iff.mp hwrite
        by_cases ha : array = (k, c)
        · subst ha
          obtain rfl := by simpa using hxs
          rw [List.length_set]
          exact hv _ _ hys
        · exact hv array xs (by simpa [Function.update_of_ne ha] using hxs)
      · exact hv array xs hxs
  exact hsized array xs hxs

/-- The main thread's next step allocates the array. -/
def Allocates (session : Session) (s : State) (array : ℕ × ℕ) : Option Worker → Prop
  | none => session.executeBenchmarks[s.done]? = some (.act (.allocate array.1 array.2))
  | some _ => False

/-- An array that is touched is there, except at its allocation. -/
theorem allocated_of_access (h : session.Reaches s)
    (ha : session.nextAccess s array who = some access) :
    (session.Allocates s array who ∧ s.shared.samples array = none) ∨
      (¬ session.Allocates s array who ∧ ∃ xs, s.shared.samples array = some xs ∧
        xs.length = session.numSamples) := by
  cases who with
  | none =>
    obtain ⟨x, hnext, hx⟩ := access_main ha
    rcases hx with ⟨rfl, -⟩ | ⟨rfl, -⟩ | ⟨rfl, -, hc⟩
    · obtain ⟨hk, hc⟩ := issues_of_next hnext
      refine .inl ⟨hnext, Option.eq_none_iff_forall_ne_some.mpr fun xs hxs => ?_⟩
      have hdone := ((allocated_iff h hk hc).mp ⟨xs, hxs⟩).1
      exact ForkJoin.System.next_not_mem hnext hdone
    · obtain ⟨hk, hc⟩ := issues_of_next hnext
      refine .inr ⟨?_, ?_⟩
      · intro hallocates
        rw [Allocates, hnext] at hallocates
        cases hallocates
      · have hdone : .act (.allocate array.1 array.2) ∈ session.executed s :=
          executed_of_next hnext ⟨hk, hc⟩ (by simp [lt_iff, key])
        obtain ⟨xs, hxs⟩ := (allocated_iff h hk hc).mpr
          ⟨hdone, ForkJoin.System.next_not_mem hnext⟩
        exact ⟨xs, hxs, length_samples h hxs⟩
    · have hk : array.1 < session.arms.length := issues_of_next hnext
      refine .inr ⟨?_, ?_⟩
      · intro hallocates
        rw [Allocates, hnext] at hallocates
        cases hallocates
      · have hdone : .act (.allocate array.1 array.2) ∈ session.executed s :=
          executed_of_next hnext ⟨hk, hc⟩ (by simp [lt_iff, key])
        have hfree : .act (.free array.1 array.2) ∉ session.executed s := by
          intro hfree
          have hlt := key_lt_of_next hnext hfree
          simp [lt_iff, key] at hlt
        obtain ⟨xs, hxs⟩ := (allocated_iff h hk hc).mpr ⟨hdone, hfree⟩
        exact ⟨xs, hxs, length_samples h hxs⟩
  | some w =>
    refine .inr ⟨fun hf => hf, ?_⟩
    obtain ⟨hactive, hw⟩ := access_thread ha
    have hspawn := (hactive.between h).1
    have hissued : array.1 < session.arms.length ∧
        array.2 < (session.arm array.1).numChannels := by
      rcases hw with ⟨rfl, -⟩ | ⟨rfl, -⟩ <;> exact issues_of_executed hspawn
    have hdone : .act (.allocate array.1 array.2) ∈ session.executed s := by
      rcases hw with ⟨rfl, -⟩ | ⟨rfl, -⟩ <;>
        exact executed_of_key_lt hspawn hissued (by simp [lt_iff, key])
    have hfree : .act (.free array.1 array.2) ∉ session.executed s := by
      intro hfree
      have hle := not_join_lt h hactive hfree
      rcases hw with ⟨rfl, -⟩ | ⟨rfl, -⟩ <;> simp [lt_iff, key] at hle
    obtain ⟨xs, hxs⟩ := (allocated_iff h hissued.1 hissued.2).mpr ⟨hdone, hfree⟩
    exact ⟨xs, hxs, length_samples h hxs⟩

/-- In every interleaving: two threads, or a thread and the main thread, are only about to touch the
same array at the same time when both read it; and what is touched is allocated and of the full
size, or is just being allocated, for the first time. -/
theorem samples_raceFree (h : session.Reaches s)
    (ha : session.nextAccess s array who = some access) :
    (∀ who' access', who ≠ who' → session.nextAccess s array who' = some access' →
      access = .read ∧ access' = .read) ∧
    ((session.Allocates s array who ∧ s.shared.samples array = none) ∨
      (¬ session.Allocates s array who ∧ ∃ xs, s.shared.samples array = some xs ∧
        xs.length = session.numSamples)) := by
  refine ⟨?_, allocated_of_access h ha⟩
  intro who' access' hne ha'
  cases who with
  | none =>
    cases who' with
    | none => exact absurd rfl hne
    | some w => exact reads_of_main h ha ha'
  | some w =>
    cases who' with
    | none => exact (reads_of_main h ha' ha).symm
    | some w' => exact absurd (congrArg some (same_thread h ha ha')) hne

/-- Both measurement threads give up, the stress thread runs for a moment, and the processing
threads are started. -/
def bothProcessing : List (Option Worker) :=
  [none, none, none, none, none, none, none, none, some (.measurement 0 0),
    some (.measurement 0 1), none, none, none, some (.stress 0 0), some (.stress 0 0),
    some (.stress 0 0), none, none, none]

/-- The main thread is about to pair the samples, next to the processing thread of a channel. -/
theorem samples_raceFree_refused : ∃ s, refused.Reaches s ∧
    refused.nextAccess s (0, 1) none = some .read ∧
    (∀ who' access', none ≠ who' → refused.nextAccess s (0, 1) who' = some access' →
      Access.read = .read ∧ access' = .read) ∧
    ((refused.Allocates s (0, 1) none ∧ s.shared.samples (0, 1) = none) ∨
      (¬ refused.Allocates s (0, 1) none ∧ ∃ xs, s.shared.samples (0, 1) = some xs ∧
        xs.length = refused.numSamples)) :=
  ⟨_, reaches_scheduled (rfl : refused.scheduled bothProcessing = some _), rfl,
    samples_raceFree (reaches_scheduled (rfl : refused.scheduled bothProcessing = some _)) rfl⟩

end Session

end Tailslayer.Benchmark
