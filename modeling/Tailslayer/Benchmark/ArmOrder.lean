import Tailslayer.Foundations.Phases
import Tailslayer.Benchmark.ArmThreads

/-! The threads of the arms as a coordinator with workers, and the order of its commands. -/
namespace Tailslayer.Benchmark.Session

open ForkJoin (Command)
open Phases (lt_iff)
open ForkJoin.System (before_of_key)

variable {session : Session} {k : ℕ} {c x y : Command Worker Action}

/-- The arm, the phase of `run_arm`, and the number in the phase. -/
def key : Command Worker Action → ℕ ×ₗ ℕ ×ₗ ℕ
  | .act (.allocate k c) => toLex (k, toLex (0, c))
  | .act (.takeStress k j) => toLex (k, toLex (1, 2 * j))
  | .spawn (.stress k j) => toLex (k, toLex (1, 2 * j + 1))
  | .act (.go k) => toLex (k, toLex (2, 0))
  | .spawn (.measurement k c) => toLex (k, toLex (3, c))
  | .act (.signal k) => toLex (k, toLex (4, 0))
  | .join (.measurement k c) => toLex (k, toLex (5, c))
  | .act (.stop k) => toLex (k, toLex (6, 0))
  | .join (.stress k j) => toLex (k, toLex (7, j))
  | .spawn (.process k c) => toLex (k, toLex (8, c))
  | .act (.pair k) => toLex (k, toLex (9, 0))
  | .act (.report k i) => toLex (k, toLex (10, i))
  | .join (.process k c) => toLex (k, toLex (11, c))
  | .act (.free k c) => toLex (k, toLex (12, c))
  | .act (.reset k) => toLex (k, toLex (13, 0))

/-- The commands that the program contains. -/
def Issues (session : Session) : Command Worker Action → Prop
  | .act (.allocate k c) | .spawn (.measurement k c) | .join (.measurement k c)
  | .spawn (.process k c) | .join (.process k c) | .act (.free k c) =>
    k < session.arms.length ∧ c < (session.arm k).numChannels
  | .act (.takeStress k j) | .spawn (.stress k j) | .join (.stress k j) =>
    k < session.arms.length ∧ (session.arm k).withStress = true ∧ j < (session.arm k).numStress
  | .act (.go k) | .act (.stop k) =>
    k < session.arms.length ∧ (session.arm k).withStress = true
  | .act (.signal k) | .act (.pair k) | .act (.reset k) => k < session.arms.length
  | .act (.report k i) => k < session.arms.length ∧ i < session.pairReportCount k

theorem phases_runArm (session : Session) (k : ℕ) : Phases key k 0 13 (session.runArm k) := by
  have hstart : Phases key k 1 3 (session.startStressThreads k) := by
    unfold startStressThreads
    split
    · refine Phases.append ?_ (Phases.single key rfl) (Nat.le_succ 1) (Nat.le_succ 2)
      refine Phases.flatMap_range (w := 2) key (fun j _ => ?_) (fun j _ x hx => ?_)
      · simp [key, lt_iff]
      · rcases List.mem_pair.mp hx with rfl | rfl
        · exact ⟨2 * j, rfl, by omega, by omega⟩
        · exact ⟨2 * j + 1, rfl, by omega, by omega⟩
    · exact .nil key _ _ _
  have hstop : Phases key k 6 8 (session.stopStressThreads k) := by
    unfold stopStressThreads
    split
    · exact (Phases.single key rfl).append (Phases.map_range key fun _ _ => rfl) (by omega)
        (by omega)
    · exact .nil key _ _ _
  have hpairs : Phases key k 9 11 (session.processHedgedData k) :=
    (Phases.single key rfl).append (Phases.map_range key fun _ _ => rfl) (by omega) (by omega)
  exact (((((((((Phases.map_range key fun _ _ => rfl).append hstart (by omega) (by omega)).append
    (Phases.map_range key fun _ _ => rfl) (by omega) (by omega)).append
    (Phases.single key rfl) (by omega) (by omega)).append
    (Phases.map_range key fun _ _ => rfl) (by omega) (by omega)).append
    hstop (by omega) (by omega)).append
    (Phases.map_range key fun _ _ => rfl) (by omega) (by omega)).append
    hpairs (by omega) (by omega)).append
    (Phases.map_range key fun _ _ => rfl) (by omega) (by omega)).append
    (Phases.map_range key fun _ _ => rfl) (by omega) (by omega)

theorem sorted_executeBenchmarks (session : Session) :
    session.executeBenchmarks.Pairwise (fun x y => key x < key y) := by
  have harm : ∀ k, Phases key k 0 14 (session.runArm k ++ [.act (.reset k)]) := fun k =>
    (phases_runArm session k).append (Phases.single key rfl) (by omega) (by omega)
  have hgroups : Groups key 0 (0 + session.arms.length) session.executeBenchmarks := by
    refine Groups.flatMap_range fun k _ => ?_
    rw [Nat.zero_add]
    exact (harm k).groups
  exact hgroups.1

theorem mem_executeBenchmarks : c ∈ session.executeBenchmarks ↔ session.Issues c := by
  have harm : c ∈ session.executeBenchmarks ↔
      ∃ k < session.arms.length, c ∈ session.runArm k ++ [.act (.reset k)] := by
    simp [executeBenchmarks]
  rw [harm]
  simp only [runArm, startStressThreads, stopStressThreads, processHedgedData, eachChannel]
  cases c with
  | spawn i => cases i <;> simp [Issues]
  | join i => cases i <;> simp [Issues]
  | act a => cases a <;> simp [Issues]

theorem work_of_ended (session : Session) (w : Worker) (x : w.Local) (v : Shared)
    (h : ended w x = true) : session.work w x v = none := by
  cases w with
  | measurement =>
    cases x with
    | gaveUp | finished => rfl
    | pinning | waiting | warmup | timestamp | latency => cases h
  | stress =>
    cases x with
    | gaveUp | finished => rfl
    | pinning | waiting | running => cases h
  | process =>
    cases x with
    | reading => cases h
    | reporting rest =>
      cases rest with
      | nil => rfl
      | cons => cases h

def system (session : Session) : ForkJoin.System Worker Action Shared Worker.Local where
  program := session.executeBenchmarks
  act := session.act
  entry := entry
  ended := ended
  work := session.work
  nodup := (sorted_executeBenchmarks session).imp fun h he => absurd (he ▸ h) (lt_irrefl _)
  work_of_ended := session.work_of_ended

abbrev State : Type := ForkJoin.State Worker Shared Worker.Local

/-- The states of all interleavings of the threads. -/
abbrev Reaches (session : Session) : State → Prop := session.system.Reaches Shared.initial

/-- The commands of the main thread that are done. -/
abbrev executed (session : Session) (s : State) : List (Command Worker Action) :=
  session.system.executed s

/-- The thread was started and has not ended. -/
abbrev Active (session : Session) (s : State) (w : Worker) : Prop := session.system.Active s w

/-- Where a schedule leads. -/
def scheduled (session : Session) (schedule : List (Option Worker)) : Option State :=
  Fairness.follow session.system.step schedule (ForkJoin.State.start Worker.Local Shared.initial)

variable {s : State} {w : Worker}

theorem reaches_scheduled {schedule : List (Option Worker)}
    (h : session.scheduled schedule = some s) : session.Reaches s :=
  Fairness.reachable_follow .start h

theorem issues_of_executed (h : x ∈ session.executed s) : session.Issues x :=
  mem_executeBenchmarks.mp (List.mem_of_mem_take h)

theorem before_of_key_lt (hx : session.Issues x) (hy : session.Issues y) (hlt : key x < key y) :
    session.system.Before x y :=
  before_of_key (sorted_executeBenchmarks session) (mem_executeBenchmarks.mpr hx)
    (mem_executeBenchmarks.mpr hy) hlt

/-- What is done includes all that comes earlier. -/
theorem executed_of_key_lt (hy : y ∈ session.executed s) (hx : session.Issues x)
    (hlt : key x < key y) : x ∈ session.executed s :=
  (before_of_key_lt hx (issues_of_executed hy) hlt).executed hy

theorem issues_of_next (h : session.executeBenchmarks[s.done]? = some x) : session.Issues x :=
  mem_executeBenchmarks.mp (List.mem_of_getElem? h)

theorem executed_of_next (hy : session.executeBenchmarks[s.done]? = some y)
    (hx : session.Issues x) (hlt : key x < key y) : x ∈ session.executed s :=
  (before_of_key_lt hx (issues_of_next hy) hlt).executed_of_next hy

/-- What is done does not reach up to the next command. -/
theorem key_lt_of_next (hy : session.executeBenchmarks[s.done]? = some y)
    (hx : x ∈ session.executed s) : key x < key y := by
  have hsorted := sorted_executeBenchmarks session
  rw [← List.take_append_drop s.done session.executeBenchmarks, List.pairwise_append] at hsorted
  refine hsorted.2.2 x hx y ?_
  rw [List.drop_eq_getElem_cons (List.getElem?_eq_some_iff.mp hy).1,
    (List.getElem?_eq_some_iff.mp hy).2]
  exact List.mem_cons_self

end Tailslayer.Benchmark.Session
