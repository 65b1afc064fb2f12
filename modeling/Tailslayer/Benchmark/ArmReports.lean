import Tailslayer.Benchmark.ArmSafety

/-! What the threads of the arms leave behind, in whatever order they ran: the samples, and the
reports about them. -/
namespace Tailslayer.Benchmark

open ForkJoin (Command)
open Phases (lt_iff)

/-- The reports of an author, in their order. -/
def Shared.reportsOf (v : Shared) (author : Author) : List Stats.Report :=
  (v.log.filter fun e => e.1 = author).map Prod.snd

/-- The command that lets an author start. -/
def Author.origin : Author → Command Worker Action
  | ⟨k, some c⟩ => .spawn (.process k c)
  | ⟨k, none⟩ => .act (.pair k)

namespace Session

variable {session : Session} {s : State} {w : Worker} {k c i j : ℕ} {v u : Shared} {a : Action}
  {xs : List Sample}

/-- A measurement. -/
def record (session : Session) (k c i : ℕ) : Sample :=
  ⟨(session.clock k c i).1, (session.clock k c i).2 - (session.clock k c i).1⟩

def givesUp (session : Session) (k c : ℕ) : Bool :=
  (measurementThreadStatus (session.measurementAnswers k c)).givesUp

/-- The samples of a channel: its measurements, or the zeros of the allocation if its thread gave
up. -/
def expectedSamples (session : Session) (k c : ℕ) : List Sample :=
  if session.givesUp k c then List.replicate session.numSamples ⟨0, 0⟩
  else (List.range session.numSamples).map (session.record k c)

/-- An array whose first measurements are made. -/
def measured (session : Session) (k c i : ℕ) : List Sample :=
  (List.range session.numSamples).map fun j => if j < i then session.record k c j else ⟨0, 0⟩

/-- What the array of a channel holds while its thread is at a place. -/
def contents (session : Session) (k c : ℕ) : MeasurementThread → List Sample
  | .pinning | .waiting | .warmup _ | .gaveUp => List.replicate session.numSamples ⟨0, 0⟩
  | .timestamp i => session.measured k c i
  | .latency i => (session.measured k c i).set i ⟨(session.clock k c i).1, 0⟩
  | .finished => (List.range session.numSamples).map (session.record k c)

/-- The places that a thread gets to with the answers it has. -/
def InPlace (session : Session) (k c : ℕ) : MeasurementThread → Prop
  | .pinning => True
  | .gaveUp => session.givesUp k c = true
  | .waiting | .warmup _ | .finished => session.givesUp k c = false
  | .timestamp i => session.givesUp k c = false ∧ i ≤ session.numSamples
  | .latency i => session.givesUp k c = false ∧ i < session.numSamples

theorem measured_zero : session.measured k c 0 =
    List.replicate session.numSamples ⟨0, 0⟩ := by
  simp [measured, List.map_const']

theorem measured_all : session.measured k c session.numSamples =
    (List.range session.numSamples).map (session.record k c) := by
  apply List.map_congr_left
  intro i hi
  rw [if_pos (List.mem_range.mp hi)]

theorem getElem?_measured (hi : i < session.numSamples) :
    (session.measured k c i)[i]? = some ⟨0, 0⟩ := by
  simp [measured, hi]

theorem set_measured :
    ((session.measured k c i).set i ⟨(session.clock k c i).1, 0⟩).set i (session.record k c i) =
      session.measured k c (i + 1) := by
  rw [List.set_set]
  apply List.ext_getElem
  · simp [measured]
  · intro j hj hj'
    have hjn : j < session.numSamples := by simpa [measured] using hj'
    by_cases he : i = j
    · subst he
      simp [measured]
    · have hlt : j < i + 1 ↔ j < i := by omega
      simp only [measured, List.getElem_set_of_ne he, List.getElem_map, List.getElem_range, hlt]

/-- What a measurement thread knows of the array of its channel. -/
def Recorded (session : Session) : (w : Worker) → w.Local → Shared → Prop
  | .measurement k c, pc, v => session.InPlace k c pc ∧
    ∀ xs, v.samples (k, c) = some xs → xs = session.contents k c pc
  | .stress _ _, _, _ | .process _ _, _, _ => True

theorem recorded_own {z z' : MeasurementThread} (hz : session.Recorded (.measurement k c) z v)
    (hw : session.measurementThread k c v z = some (z', u)) :
    session.Recorded (.measurement k c) z' u := by
  obtain ⟨hplace, hxs⟩ := hz
  cases z with
  | pinning =>
    cases hw
    cases hg : session.givesUp k c with
    | true => exact ⟨by simp only [givesUp] at hg; simp [hg, InPlace, givesUp], by
        simp only [givesUp] at hg; simpa [hg, contents] using hxs⟩
    | false => exact ⟨by simp only [givesUp] at hg; simp [hg, InPlace, givesUp], by
        simp only [givesUp] at hg; simpa [hg, contents] using hxs⟩
  | waiting =>
    cases hw
    cases v.measureSignal with
    | true => exact ⟨hplace, hxs⟩
    | false => exact ⟨hplace, hxs⟩
  | warmup i =>
    cases hw
    split
    · exact ⟨hplace, hxs⟩
    · exact ⟨⟨hplace, Nat.zero_le _⟩, fun xs h => (hxs xs h).trans measured_zero.symm⟩
  | timestamp i =>
    obtain ⟨hgoes, hle⟩ := hplace
    simp only [measurementThread] at hw
    split at hw
    · next hi =>
      obtain ⟨u', hwrite, hw⟩ := Option.bind_eq_some_iff.mp hw
      cases hw
      obtain ⟨ys, y, hys, hy, hu⟩ := Shared.samples_of_write hwrite
      obtain rfl := hxs ys hys
      refine ⟨⟨hgoes, hi⟩, ?_⟩
      intro xs hx
      rw [contents, getElem?_measured hi] at hy
      cases hy
      exact (Option.some.inj (hu.symm.trans hx)).symm
    · next hi =>
      cases hw
      obtain rfl : i = session.numSamples := by omega
      exact ⟨hgoes, fun xs h => (hxs xs h).trans measured_all⟩
  | latency i =>
    obtain ⟨hgoes, hi⟩ := hplace
    obtain ⟨u', hwrite, hw⟩ := Option.bind_eq_some_iff.mp hw
    cases hw
    obtain ⟨ys, y, hys, hy, hu⟩ := Shared.samples_of_write hwrite
    obtain rfl := hxs ys hys
    refine ⟨⟨hgoes, hi⟩, ?_⟩
    intro xs hx
    have hlen : i < (session.measured k c i).length := by simpa [measured] using hi
    rw [contents, List.getElem?_set_self hlen] at hy
    cases hy
    rw [← Option.some.inj (hu.symm.trans hx)]
    exact set_measured
  | gaveUp | finished => cases hw

/-- Other channels' arrays, and what is not about arrays, do not matter. -/
theorem recorded_congr {z : w.Local} (hr : session.Recorded w z v)
    (h : ∀ k c, w = .measurement k c → ∀ xs, u.samples (k, c) = some xs →
      v.samples (k, c) = some xs) : session.Recorded w z u := by
  cases w with
  | measurement k c => exact ⟨hr.1, fun xs hxs => hr.2 xs (h k c rfl xs hxs)⟩
  | stress | process => trivial

/-- An array is not replaced once there is a thread that fills it. -/
theorem not_allocated_next (h : session.Reaches s) {z : MeasurementThread}
    (hz : s.worker (.measurement k c) = some z) :
    session.executeBenchmarks[s.done]? ≠ some (.act (.allocate k c)) := by
  intro hnext
  have hspawn : .spawn (.measurement k c) ∈ session.executed s :=
    (ForkJoin.System.spawned_iff h).mp ⟨z, hz⟩
  have hlt := key_lt_of_next hnext hspawn
  simp [lt_iff, key] at hlt

theorem mem_executed_next {x y : Command Worker Action} {t : State}
    (hnext : session.executeBenchmarks[s.done]? = some x) (ht : t.done = s.done + 1) :
    y ∈ session.executed t ↔ y ∈ session.executed s ∨ y = x := by
  have he : session.executed t = session.executed s ++ [x] := by
    rw [executed, ForkJoin.System.executed, ht]
    exact ForkJoin.System.executed_next hnext
  rw [he, List.mem_append, List.mem_singleton]

/-- A fresh array holds zeros until a thread of its channel is started. -/
theorem zeros_of_not_spawned (h : session.Reaches s)
    (hspawn : .spawn (.measurement k c) ∉ session.executed s) :
    ∀ xs, s.shared.samples (k, c) = some xs →
      xs = List.replicate session.numSamples ⟨0, 0⟩ := by
  induction h with
  | start =>
    intro xs hxs
    cases hxs
  | @next s t label h hstep ih =>
    cases ForkJoin.System.effect_of_step hstep with
    | spawn hnext =>
      exact ih fun hs => hspawn ((mem_executed_next hnext rfl).mpr (.inl hs))
    | join hnext =>
      exact ih fun hs => hspawn ((mem_executed_next hnext rfl).mpr (.inl hs))
    | act hnext hact =>
      intro xs hxs
      have hbefore := ih (fun hs => hspawn ((mem_executed_next hnext rfl).mpr (.inl hs))) xs
      cases effect_of_act hact with
      | @allocate k' c' =>
        by_cases ha : (k, c) = (k', c')
        · cases ha
          simpa using hxs.symm
        · exact hbefore (by simpa [Function.update_of_ne ha] using hxs)
      | @free k' c' =>
        by_cases ha : (k, c) = (k', c')
        · cases ha
          simp at hxs
        · exact hbefore (by simpa [Function.update_of_ne ha] using hxs)
      | takeStress | go | signal | stop | pair | report | reset => exact hbefore hxs
    | @work w y z v hworker hwork =>
      intro xs hxs
      have hbefore := ih hspawn xs
      rcases work_cases hwork with rfl | ⟨k', c', i, f, rfl, hwrite⟩ | ⟨k', c', r, -, rfl⟩
      · exact hbefore hxs
      · have ha : (k, c) ≠ (k', c') := by
          intro ha
          cases ha
          exact hspawn ((ForkJoin.System.spawned_iff h).mp ⟨_, hworker⟩)
        obtain ⟨ys, y, hys, -, rfl⟩ := Shared.write_eq_some_iff.mp hwrite
        exact hbefore (by simpa [Function.update_of_ne ha] using hxs)
      · exact hbefore hxs

theorem knows_recorded (session : Session) :
    session.system.Knows Shared.initial session.Recorded where
  spawn := by
    intro s w h hnext
    cases w with
    | measurement k c =>
      exact ⟨trivial, zeros_of_not_spawned h (ForkJoin.System.next_not_mem hnext)⟩
    | stress | process => trivial
  act := by
    intro s a w z v h hnext hz hr hact
    refine recorded_congr hr ?_
    rintro k c rfl xs hxs
    cases effect_of_act hact with
    | @allocate k' c' =>
      by_cases ha : (k, c) = (k', c')
      · cases ha
        exact absurd hnext (not_allocated_next h hz)
      · simpa [Function.update_of_ne ha] using hxs
    | @free k' c' =>
      by_cases ha : (k, c) = (k', c')
      · cases ha
        simp at hxs
      · simpa [Function.update_of_ne ha] using hxs
    | takeStress | go | signal | stop | pair | report | reset => exact hxs
  own := by
    intro s w z z' v h hz hr hwork
    cases w with
    | measurement k c => exact recorded_own hr hwork
    | stress | process => trivial
  other := by
    intro s w w' z y y' v h hne hz hr hy hwork
    refine recorded_congr hr ?_
    rintro k c rfl xs hxs
    rcases work_cases hwork with rfl | ⟨k', c', i, f, rfl, hwrite⟩ | ⟨k', c', r, -, rfl⟩
    · exact hxs
    · obtain ⟨ys, y, hys, -, rfl⟩ := Shared.write_eq_some_iff.mp hwrite
      have ha : (k, c) ≠ (k', c') := by
        intro ha
        cases ha
        exact hne rfl
      simpa [Function.update_of_ne ha] using hxs
    · exact hxs

/-- After the join of its thread, a channel's array holds the expected samples until it is freed. -/
theorem samples_of_joined (h : session.Reaches s)
    (hjoin : .join (.measurement k c) ∈ session.executed s)
    (hfree : .act (.free k c) ∉ session.executed s) :
    s.shared.samples (k, c) = some (session.expectedSamples k c) := by
  obtain ⟨hk, hc⟩ := issues_of_executed hjoin
  have hallocated : .act (.allocate k c) ∈ session.executed s :=
    executed_of_key_lt hjoin ⟨hk, hc⟩ (by simp [lt_iff, key])
  obtain ⟨xs, hxs⟩ := (allocated_iff h hk hc).mpr ⟨hallocated, hfree⟩
  obtain ⟨z, hz, hended⟩ := ForkJoin.System.ended_of_joined h hjoin
  obtain ⟨hplace, hcontents⟩ := (knows_recorded session).worker h hz
  rw [hxs, hcontents xs hxs, expectedSamples]
  cases z with
  | gaveUp =>
    have hgave : session.givesUp k c = true := hplace
    rw [if_pos hgave]
    rfl
  | finished =>
    have hgoes : session.givesUp k c = false := hplace
    rw [if_neg (Bool.eq_false_iff.mp hgoes)]
    rfl
  | pinning | waiting | warmup | timestamp | latency => cases hended

theorem length_expectedSamples : (session.expectedSamples k c).length = session.numSamples := by
  unfold expectedSamples
  split
  · exact List.length_replicate
  · rw [List.length_map, List.length_range]

/-- All that the processing thread of a channel reports. -/
def channelReports (session : Session) (k c : ℕ) : List Stats.Report :=
  session.stats.channelReports (Stats.channelLabel (session.arm k).name c) true
    (session.expectedSamples k c)

theorem processThread_expected : (session.stats.processThread (session.arm k).name c
    (session.expectedSamples k c) session.numSamples).toOption =
      some (session.channelReports k c) := by
  have hlen : (session.expectedSamples k c).length = session.numSamples := length_expectedSamples
  have heq := session.stats.processChannel_eq (Stats.channelLabel (session.arm k).name c) true
    (s := session.expectedSamples k c) (by rw [hlen]; exact session.numSamples_lt)
  rw [hlen] at heq
  rw [Stats.processThread, heq]
  rfl

theorem reportsOf_report {author author' : Author} {r : Stats.Report} :
    (v.report author r).reportsOf author' =
      v.reportsOf author' ++ if author = author' then [r] else [] := by
  by_cases he : author = author'
  · simp [Shared.report, Shared.reportsOf, List.filter_append, he]
  · simp [Shared.report, Shared.reportsOf, List.filter_append, he]

/-- Who reported something was started before. -/
theorem origin_executed (h : session.Reaches s) :
    ∀ e ∈ s.shared.log, e.1.origin ∈ session.executed s := by
  induction h with
  | start =>
    intro e he
    cases he
  | @next s t label h hstep ih =>
    cases ForkJoin.System.effect_of_step hstep with
    | spawn hnext =>
      intro e he
      exact (mem_executed_next hnext rfl).mpr (.inl (ih e he))
    | join hnext =>
      intro e he
      exact (mem_executed_next hnext rfl).mpr (.inl (ih e he))
    | act hnext hact =>
      intro e he
      refine (mem_executed_next hnext rfl).mpr (.inl ?_)
      cases effect_of_act hact with
      | @report k i r =>
        rcases List.mem_append.mp he with he | he
        · exact ih e he
        · obtain rfl := List.mem_singleton.mp he
          obtain ⟨hk, -⟩ := issues_of_next hnext
          change .act (.pair k) ∈ session.executed s
          exact executed_of_next hnext hk (by simp [lt_iff, key])
      | allocate | takeStress | go | signal | stop | pair | free | reset => exact ih e he
    | @work w y z v hworker hwork =>
      intro e he
      rcases work_cases hwork with rfl | ⟨k, c, i, f, -, hwrite⟩ | ⟨k, c, r, rfl, rfl⟩
      · exact ih e he
      · obtain ⟨ys, y, -, -, rfl⟩ := Shared.write_eq_some_iff.mp hwrite
        exact ih e he
      · rcases List.mem_append.mp he with he | he
        · exact ih e he
        · obtain rfl := List.mem_singleton.mp he
          exact (ForkJoin.System.spawned_iff h).mp ⟨_, hworker⟩

theorem reportsOf_of_not_started (h : session.Reaches s) {author : Author}
    (ho : author.origin ∉ session.executed s) : s.shared.reportsOf author = [] := by
  have hnone : s.shared.log.filter (fun e => e.1 = author) = [] := by
    rw [List.filter_eq_nil_iff]
    intro e he hauthor
    have heq : e.1 = author := of_decide_eq_true hauthor
    exact ho (heq ▸ origin_executed h e he)
  rw [Shared.reportsOf, hnone]
  rfl

/-- What a processing thread has reported, and has yet to report. -/
def Reported (session : Session) : (w : Worker) → w.Local → Shared → Prop
  | .process k c, z, v =>
    match z with
    | ProcessThread.reading => v.reportsOf ⟨k, some c⟩ = []
    | ProcessThread.reporting rest => v.reportsOf ⟨k, some c⟩ ++ rest = session.channelReports k c
  | .measurement _ _, _, _ | .stress _ _, _, _ => True

theorem reported_congr {z : w.Local} (hr : session.Reported w z v)
    (h : ∀ k c, w = .process k c → u.reportsOf ⟨k, some c⟩ = v.reportsOf ⟨k, some c⟩) :
    session.Reported w z u := by
  cases w with
  | process k c =>
    have he := h k c rfl
    cases z with
    | reading => exact he.trans hr
    | reporting rest =>
      change u.reportsOf _ ++ rest = _
      rw [he]
      exact hr
  | measurement | stress => trivial

/-- A processing thread reads its channel's samples after the measurement, and before they are
freed. -/
theorem samples_of_processing (h : session.Reaches s) (ha : session.Active s (.process k c)) :
    s.shared.samples (k, c) = some (session.expectedSamples k c) := by
  obtain ⟨hspawn, -⟩ := ha.between h
  obtain ⟨hk, hc⟩ := issues_of_executed hspawn
  refine samples_of_joined h ?_ ?_
  · exact executed_of_key_lt hspawn ⟨hk, hc⟩ (by simp [lt_iff, key])
  · intro hfree
    have hle := not_join_lt h ha hfree
    simp [lt_iff, key] at hle

theorem knows_reported (session : Session) :
    session.system.Knows Shared.initial session.Reported where
  spawn := by
    intro s w h hnext
    cases w with
    | process k c =>
      exact reportsOf_of_not_started h (ForkJoin.System.next_not_mem hnext)
    | measurement | stress => trivial
  act := by
    intro s a w z v h hnext hz hr hact
    refine reported_congr hr ?_
    intro k c _
    cases effect_of_act hact with
    | report => simp [reportsOf_report]
    | allocate | takeStress | go | signal | stop | pair | free | reset => rfl
  own := by
    intro s w z z' v h hz hr hwork
    cases w with
    | process k c =>
      have hactive := ForkJoin.System.Active.of_work hz hwork
      cases z with
      | reading =>
        obtain ⟨xs, hxs, hwork⟩ := Option.bind_eq_some_iff.mp hwork
        obtain ⟨reports, hreports, hwork⟩ := Option.bind_eq_some_iff.mp hwork
        cases hwork
        rw [samples_of_processing h hactive] at hxs
        cases hxs
        rw [processThread_expected] at hreports
        cases hreports
        change s.shared.reportsOf _ ++ _ = _
        rw [hr, List.nil_append]
      | reporting rest =>
        cases rest with
        | nil => cases hwork
        | cons r rest =>
          cases hwork
          change (s.shared.report _ _).reportsOf _ ++ rest = _
          rw [reportsOf_report, if_pos rfl, List.append_assoc]
          exact hr
    | measurement | stress => trivial
  other := by
    intro s w w' z y y' v h hne hz hr hy hwork
    refine reported_congr hr ?_
    rintro k c rfl
    rcases work_cases hwork with rfl | ⟨k', c', i, f, -, hwrite⟩ | ⟨k', c', r, rfl, rfl⟩
    · rfl
    · obtain ⟨ys, y, -, -, rfl⟩ := Shared.write_eq_some_iff.mp hwrite
      rfl
    · have hauthor : (⟨k', some c'⟩ : Author) ≠ ⟨k, some c⟩ := by
        intro he
        cases he
        exact hne rfl
      rw [reportsOf_report, if_neg hauthor, List.append_nil]

def expectedChannels (session : Session) (k : ℕ) : List (List Sample) :=
  (List.range (session.arm k).numChannels).map (session.expectedSamples k)

/-- All that the main thread reports about the pairs of an arm. -/
def pairReports (session : Session) (k : ℕ) : List Stats.Report :=
  (session.stats.processHedgedData (session.arm k).name (session.expectedChannels k)
    session.numSamples).getD []

theorem processHedgedData_expected : session.stats.processHedgedData (session.arm k).name
    (session.expectedChannels k) session.numSamples = some (session.pairReports k) ∧
      (session.pairReports k).length = session.pairReportCount k := by
  have hlen : (session.expectedChannels k).length = (session.arm k).numChannels := by
    rw [expectedChannels, List.length_map, List.length_range]
  unfold pairReports pairReportCount Stats.processHedgedData
  rw [hlen]
  split
  · exact ⟨rfl, rfl⟩
  · next hn =>
    obtain ⟨reports, hreports, hcount⟩ := session.stats.processPairs_eq (session.arm k).name
      (by rw [hlen]; omega) session.numSamples_lt
    rw [hreports]
    exact ⟨rfl, hcount⟩

/-- The main thread pairs what the threads of all channels measured. -/
theorem channels_of_next_pair (h : session.Reaches s)
    (hnext : session.executeBenchmarks[s.done]? = some (.act (.pair k))) :
    (List.range (session.arm k).numChannels).mapM (fun c => s.shared.samples (k, c)) =
      some (session.expectedChannels k) := by
  have hk : k < session.arms.length := issues_of_next hnext
  apply Option.mapM_of_some
  intro c hc
  have hissued : k < session.arms.length ∧ c < (session.arm k).numChannels :=
    ⟨hk, List.mem_range.mp hc⟩
  refine samples_of_joined h ?_ ?_
  · exact executed_of_next hnext hissued (by simp [lt_iff, key])
  · intro hfree
    have hlt := key_lt_of_next hnext hfree
    simp [lt_iff, key] at hlt

theorem pairReports_of_executed (h : session.Reaches s)
    (hpair : .act (.pair k) ∈ session.executed s) :
    s.shared.pairReports k = session.pairReports k := by
  induction h with
  | start => cases hpair
  | @next s t label h hstep ih =>
    cases ForkJoin.System.effect_of_step hstep with
    | spawn hnext =>
      exact ih (((mem_executed_next hnext rfl).mp hpair).resolve_right (by simp))
    | join hnext =>
      exact ih (((mem_executed_next hnext rfl).mp hpair).resolve_right (by simp))
    | act hnext hact =>
      have hcase := (mem_executed_next hnext rfl).mp hpair
      cases effect_of_act hact with
      | @pair k' channelSamples reports hread hprocess =>
        by_cases he : k = k'
        · subst he
          rw [channels_of_next_pair h hnext] at hread
          cases hread
          rw [processHedgedData_expected.1] at hprocess
          cases hprocess
          exact Function.update_self _ _ _
        · refine (Function.update_of_ne he _ _).trans (ih (hcase.resolve_right ?_))
          simpa using he
      | allocate | takeStress | go | signal | stop | report | free | reset =>
        exact ih (hcase.resolve_right (by simp))
    | @work w y z v hworker hwork =>
      change v.pairReports k = _
      rw [(frame_work hwork).2.2.2.1]
      exact ih hpair

/-- The main thread reports the pairs of an arm one after the other. -/
theorem reportsOf_main (h : session.Reaches s) (k : ℕ) :
    ∃ m, (∀ i, .act (.report k i) ∈ session.executed s ↔ i < m) ∧
      s.shared.reportsOf ⟨k, none⟩ = (session.pairReports k).take m := by
  induction h with
  | start => exact ⟨0, by simp [executed, ForkJoin.System.executed, ForkJoin.State.start], rfl⟩
  | @next s t label h hstep ih =>
    obtain ⟨m, hm, hreports⟩ := ih
    cases ForkJoin.System.effect_of_step hstep with
    | spawn hnext =>
      exact ⟨m, fun i => by rw [mem_executed_next hnext rfl, ← hm]; simp, hreports⟩
    | join hnext =>
      exact ⟨m, fun i => by rw [mem_executed_next hnext rfl, ← hm]; simp, hreports⟩
    | act hnext hact =>
      cases effect_of_act hact with
      | @report k' i r hr =>
        by_cases he : k' = k
        · subst he
          obtain ⟨hk, hi⟩ := issues_of_next hnext
          have hpair : .act (.pair k') ∈ session.executed s :=
            executed_of_next hnext hk (by simp [lt_iff, key])
          -- the reports before this one are those that are done
          obtain rfl : i = m := by
            have hnot : ¬ i < m := fun hlt => ForkJoin.System.next_not_mem hnext ((hm i).mpr hlt)
            by_contra hne
            have hissued : k' < session.arms.length ∧ m < session.pairReportCount k' :=
              ⟨hk, by omega⟩
            have hdone : .act (.report k' m) ∈ session.executed s :=
              executed_of_next hnext hissued (by simp [lt_iff, key]; omega)
            exact lt_irrefl m ((hm m).mp hdone)
          rw [pairReports_of_executed h hpair] at hr
          refine ⟨i + 1, ?_, ?_⟩
          · intro j
            rw [mem_executed_next hnext rfl, hm]
            simp
            omega
          · rw [reportsOf_report, if_pos rfl, hreports, List.take_add_one, hr]
            rfl
        · refine ⟨m, fun j => by rw [mem_executed_next hnext rfl, ← hm]; simp [Ne.symm he], ?_⟩
          rw [reportsOf_report, if_neg (by simpa using he), List.append_nil, hreports]
      | allocate | takeStress | go | signal | stop | pair | free | reset =>
        exact ⟨m, fun j => by rw [mem_executed_next hnext rfl, ← hm]; simp, hreports⟩
    | @work w y z v hworker hwork =>
      refine ⟨m, hm, Eq.trans ?_ hreports⟩
      rcases work_cases hwork with rfl | ⟨k', c', i, f, -, hwrite⟩ | ⟨k', c', r, rfl, rfl⟩
      · rfl
      · obtain ⟨ys, y, -, -, rfl⟩ := Shared.write_eq_some_iff.mp hwrite
        rfl
      · simp [reportsOf_report]

/-- Nothing is reported about an arm once the next one is under way. -/
theorem log_sorted (h : session.Reaches s) :
    (s.shared.log.map fun e => e.1.arm).Pairwise (· ≤ ·) := by
  have happend : ∀ {s : State} {author : Author} {r : Stats.Report},
      (s.shared.log.map fun e => e.1.arm).Pairwise (· ≤ ·) →
      (∀ e ∈ s.shared.log, e.1.arm ≤ author.arm) →
      ((s.shared.report author r).log.map fun e => e.1.arm).Pairwise (· ≤ ·) := by
    intro s author r hsorted hle
    rw [Shared.report, List.map_append, List.pairwise_append]
    refine ⟨hsorted, List.pairwise_singleton _ _, ?_⟩
    intro j hj j' hj'
    obtain ⟨e, he, rfl⟩ := List.mem_map.mp hj
    obtain rfl := by simpa using hj'
    exact hle e he
  induction h with
  | start => exact .nil
  | @next s t label h hstep ih =>
    have horigin := origin_executed h
    cases ForkJoin.System.effect_of_step hstep with
    | spawn | join => exact ih
    | act hnext hact =>
      cases effect_of_act hact with
      | report =>
        refine happend ih ?_
        rintro ⟨⟨k, channel⟩, r⟩ he
        have hlt := key_lt_of_next hnext (horigin _ he)
        cases channel <;> simp [Author.origin, lt_iff, key] at hlt ⊢ <;> omega
      | allocate | takeStress | go | signal | stop | pair | free | reset => exact ih
    | @work w y z v hworker hwork =>
      rcases work_cases hwork with rfl | ⟨k', c', i, f, -, hwrite⟩ | ⟨k', c', r, rfl, rfl⟩
      · exact ih
      · obtain ⟨ys, y, -, -, rfl⟩ := Shared.write_eq_some_iff.mp hwrite
        exact ih
      · refine happend ih ?_
        rintro ⟨⟨k, channel⟩, r⟩ he
        have hle := not_join_lt h (ForkJoin.System.Active.of_work hworker hwork) (horigin _ he)
        cases channel <;> simp [Author.origin, lt_iff, key] at hle ⊢ <;> omega

end Session

end Tailslayer.Benchmark
