import Mathlib.Data.List.Range
import Tailslayer.Foundations.ForkJoin
import Tailslayer.Benchmark.Pinning
import Tailslayer.Benchmark.Reports
import Tailslayer.Benchmark.StressLoad

/-! The threads of the arms (`benchmark.cpp`): `run_arm` and the threads it starts, step by step,
for all calls of `execute_benchmarks`. -/
namespace Tailslayer.Benchmark

open ForkJoin (Command)

/-- `AppConfig::WARMUP_ITERS` -/
def WARMUP_ITERS : ℕ := 5000

/-- A call of `run_arm`, as far as its threads go: the sizes of `channelAddrs`, `channelCores` and
`stressThreads`, and `n_stress`. -/
structure ArmThreads where
  name : String
  numChannels : ℕ
  numCores : ℕ
  stressCores : ℕ
  numStress : ℕ
  deriving DecidableEq, Repr

/-- `k_runStressTest` -/
def ArmThreads.withStress (a : ArmThreads) : Bool := a.stressCores ≠ 0

/-- The calls of `run_arm` in their order, and what they get from the machine: whether the sample
arrays can be allocated, the answers to the pinning of the threads, the two clock readings of each
measurement, and the addresses of the contexts of the stress threads. All of these are fixed, so
that only the interleaving of the threads is open. -/
structure Session where
  arms : List ArmThreads
  numSamples : ℕ
  numSamples_lt : numSamples < 2 ^ 31
  stats : Stats
  malloc : ℕ → ℕ → Bool
  measurementAnswers : ℕ → ℕ → ThreadAnswers
  stressAnswers : ℕ → ℕ → ThreadAnswers
  clock : ℕ → ℕ → ℕ → UInt64 × UInt64
  context : ℕ → ℕ → UInt64

/-- A thread, by its arm and its channel or number. -/
inductive Worker
  | measurement (arm channel : ℕ)
  | stress (arm index : ℕ)
  | process (arm channel : ℕ)
  deriving DecidableEq, Repr

def Worker.arm : Worker → ℕ
  | .measurement arm _ | .stress arm _ | .process arm _ => arm

/-- Where a measurement thread stands. -/
inductive MeasurementThread
  | pinning
  | waiting
  | warmup (i : ℕ)
  | timestamp (i : ℕ)
  | latency (i : ℕ)
  | gaveUp
  | finished
  deriving DecidableEq, Repr

inductive StressThread
  | pinning
  | waiting
  | running (state : UInt64)
  | gaveUp
  | finished
  deriving DecidableEq, Repr

/-- A processing thread reads the samples, and then writes what it has to report. -/
inductive ProcessThread
  | reading
  | reporting (rest : List Stats.Report)
  deriving DecidableEq, Repr

def MeasurementThread.ended : MeasurementThread → Bool
  | .gaveUp | .finished => true
  | .pinning | .waiting | .warmup _ | .timestamp _ | .latency _ => false

def StressThread.ended : StressThread → Bool
  | .gaveUp | .finished => true
  | .pinning | .waiting | .running _ => false

def ProcessThread.ended : ProcessThread → Bool
  | .reporting [] => true
  | .reading | .reporting (_ :: _) => false

def Worker.Local : Worker → Type
  | .measurement _ _ => MeasurementThread
  | .stress _ _ => StressThread
  | .process _ _ => ProcessThread

/-- Who wrote a report: the processing thread of a channel, or the main thread. -/
structure Author where
  arm : ℕ
  channel : Option ℕ
  deriving DecidableEq, Repr

/-- What the threads share: the flags, the sample arrays, what the main thread has to report about
the pairs, and all that has been reported. -/
structure Shared where
  measureSignal : Bool
  go : ℕ → Bool
  stop : ℕ → Bool
  samples : ℕ × ℕ → Option (List Sample)
  pairReports : ℕ → List Stats.Report
  log : List (Author × Stats.Report)

def Shared.initial : Shared :=
  ⟨false, fun _ => false, fun _ => false, fun _ => none, fun _ => [], []⟩

namespace Shared

/-- A write to `samples[i]`; `none` outside of the array. -/
def write (v : Shared) (array : ℕ × ℕ) (i : ℕ) (f : Sample → Sample) : Option Shared := do
  let s ← v.samples array
  let x ← s[i]?
  return { v with samples := Function.update v.samples array (some (s.set i (f x))) }

def report (v : Shared) (author : Author) (r : Stats.Report) : Shared :=
  { v with log := v.log ++ [(author, r)] }

end Shared

/-- What the main thread does apart from starting and joining threads. -/
inductive Action
  | allocate (arm channel : ℕ)
  | takeStress (arm index : ℕ)
  | go (arm : ℕ)
  | signal (arm : ℕ)
  | stop (arm : ℕ)
  | pair (arm : ℕ)
  | report (arm : ℕ) (i : ℕ)
  | free (arm channel : ℕ)
  | reset (arm : ℕ)
  deriving DecidableEq, Repr

namespace Session

/-- The arm of a number; no arm has threads beyond the last one. -/
def arm (session : Session) (k : ℕ) : ArmThreads := session.arms.getD k ⟨"", 0, 0, 0, 0⟩

def measurementThread (session : Session) (k c : ℕ) (v : Shared) :
    MeasurementThread → Option (MeasurementThread × Shared)
  | .pinning =>
    let status := measurementThreadStatus (session.measurementAnswers k c)
    some (if status.givesUp then .gaveUp else .waiting, v)
  | .waiting => some (if v.measureSignal then .warmup 0 else .waiting, v)
  | .warmup i => some (if i < WARMUP_ITERS then .warmup (i + 1) else .timestamp 0, v)
  | .timestamp i =>
    if i < session.numSamples then do
      let v ← v.write (k, c) i fun s => { s with timestamp := (session.clock k c i).1 }
      return (.latency i, v)
    else some (.finished, v)
  | .latency i => do
    let v ← v.write (k, c) i fun s =>
      { s with latency := (session.clock k c i).2 - (session.clock k c i).1 }
    return (.timestamp (i + 1), v)
  | .gaveUp | .finished => none

/-- The reads of the stress page are in `stressThreadLoop`. -/
def stressThread (session : Session) (k j : ℕ) (v : Shared) :
    StressThread → Option (StressThread × Shared)
  | .pinning =>
    let status := stressThreadStatus (session.stressAnswers k j)
    some (if status.givesUp then .gaveUp else .waiting, v)
  | .waiting => some (if v.go k then .running (initialState (session.context k j)) else .waiting, v)
  | .running state => some (if v.stop k then .finished else .running (nextState state), v)
  | .gaveUp | .finished => none

def processThread (session : Session) (k c : ℕ) (v : Shared) :
    ProcessThread → Option (ProcessThread × Shared)
  | .reading => do
    let s ← v.samples (k, c)
    let reports ← (session.stats.processThread (session.arm k).name c s
      session.numSamples).toOption
    return (.reporting reports, v)
  | .reporting (r :: rest) => some (.reporting rest, v.report ⟨k, some c⟩ r)
  | .reporting [] => none

def entry : (w : Worker) → w.Local
  | .measurement _ _ => MeasurementThread.pinning
  | .stress _ _ => StressThread.pinning
  | .process _ _ => ProcessThread.reading

def ended : (w : Worker) → w.Local → Bool
  | .measurement _ _ => MeasurementThread.ended
  | .stress _ _ => StressThread.ended
  | .process _ _ => ProcessThread.ended

def work (session : Session) : (w : Worker) → w.Local → Shared → Option (w.Local × Shared)
  | .measurement k c, x, v => session.measurementThread k c v x
  | .stress k j, x, v => session.stressThread k j v x
  | .process k c, x, v => session.processThread k c v x

def act (session : Session) : Action → Shared → Option Shared
  | .allocate k c, v =>
    -- `memset` does not ask for the result of the allocation, and `channelCores[i]` is not checked
    if session.malloc k c = true ∧ c < (session.arm k).numCores then
      some { v with samples :=
        Function.update v.samples (k, c) (some (List.replicate session.numSamples ⟨0, 0⟩)) }
    else none
  -- `coresLeft.back()`, which is popped each time
  | .takeStress k j, v => if j < (session.arm k).stressCores then some v else none
  | .go k, v => some { v with go := Function.update v.go k true }
  | .signal _, v => some { v with measureSignal := true }
  | .stop k, v => some { v with stop := Function.update v.stop k true }
  | .pair k, v => do
    let channelSamples ← (List.range (session.arm k).numChannels).mapM fun c => v.samples (k, c)
    let reports ← session.stats.processHedgedData (session.arm k).name channelSamples
      session.numSamples
    return { v with pairReports := Function.update v.pairReports k reports }
  | .report k i, v => do
    let r ← (v.pairReports k)[i]?
    return v.report ⟨k, none⟩ r
  | .free k c, v => do
    let _ ← v.samples (k, c)
    return { v with samples := Function.update v.samples (k, c) none }
  | .reset _, v => some { v with measureSignal := false }

/-- One command for each channel. -/
def eachChannel (session : Session) (k : ℕ) (f : ℕ → Command Worker Action) :
    List (Command Worker Action) :=
  (List.range (session.arm k).numChannels).map f

def startStressThreads (session : Session) (k : ℕ) : List (Command Worker Action) :=
  if (session.arm k).withStress then
    (List.range (session.arm k).numStress).flatMap
      (fun j => [.act (.takeStress k j), .spawn (.stress k j)]) ++ [.act (.go k)]
  else []

def stopStressThreads (session : Session) (k : ℕ) : List (Command Worker Action) :=
  if (session.arm k).withStress then
    .act (.stop k) :: (List.range (session.arm k).numStress).map fun j => .join (.stress k j)
  else []

/-- The number of reports of the main thread about the pairs. -/
def pairReportCount (session : Session) (k : ℕ) : ℕ :=
  if (session.arm k).numChannels ≤ 1 then 0
  else session.stats.pairReportCount (session.arm k).name

def processHedgedData (session : Session) (k : ℕ) : List (Command Worker Action) :=
  .act (.pair k) :: (List.range (session.pairReportCount k)).map fun i => .act (.report k i)

def runArm (session : Session) (k : ℕ) : List (Command Worker Action) :=
  session.eachChannel k (fun c => .act (.allocate k c)) ++
  session.startStressThreads k ++
  session.eachChannel k (fun c => .spawn (.measurement k c)) ++
  [.act (.signal k)] ++
  session.eachChannel k (fun c => .join (.measurement k c)) ++
  session.stopStressThreads k ++
  session.eachChannel k (fun c => .spawn (.process k c)) ++
  session.processHedgedData k ++
  session.eachChannel k (fun c => .join (.process k c)) ++
  session.eachChannel k (fun c => .act (.free k c))

/-- Every arm is followed by `reset`. -/
def executeBenchmarks (session : Session) : List (Command Worker Action) :=
  (List.range session.arms.length).flatMap fun k => session.runArm k ++ [.act (.reset k)]

/-- Two channels under the load of one thread, on a machine that grants everything; both channels
measure 80 cycles every 1000 cycles, the second one ten cycles later. -/
def twoChannels : Session where
  arms := [⟨"hedged_stress", 2, 2, 1, 1⟩]
  numSamples := 3
  numSamples_lt := by decide
  stats := ⟨3, [], fun _ => true⟩
  malloc := fun _ _ => true
  measurementAnswers := fun _ _ => ⟨0xff, 0, fun _ => 1⟩
  stressAnswers := fun _ _ => ⟨0xff, 0, fun _ => 1⟩
  clock := fun _ c i => (UInt64.ofNat (1000 * i + 10 * c), UInt64.ofNat (1000 * i + 10 * c + 80))
  context := fun _ _ => 0x7ff000

/-- The same machine without any priority for the measurement threads. -/
def refused : Session := { twoChannels with
  measurementAnswers := fun _ _ => ⟨0xff, 0, fun _ => 0⟩ }

end Session

end Tailslayer.Benchmark
