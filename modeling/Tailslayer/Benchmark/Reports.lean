import Tailslayer.Foundations.Binary64
import Tailslayer.Foundations.ByteStrings
import Tailslayer.Foundations.Outcome
import Tailslayer.Benchmark.OrderStatistics
import Tailslayer.Benchmark.RowPairing

/-! What an arm reports: `stats.cpp`, and `process_thread`, `process_hedged_data` and
`process_and_write` of `benchmark.cpp`. -/
namespace Tailslayer

open Benchmark Binary64 ByteStrings

/-- `m_tsc_ghz` and `m_raw_prefix`, and the files that can be opened. Texts are bytes. -/
structure Stats where
  tscGhz : ℚ
  rawPrefix : List UInt8
  fopen : List UInt8 → Bool

namespace Stats

/-- The arguments of one call of `printf`, `fprintf` or `perror`, and the file of a dump. Latencies
come in cycles and in nanoseconds. -/
inductive Report
  | stride (label : List UInt8) (min p50 p99 max : UInt64) (count : ℤ)
  | arm (label : List UInt8) (n : ℤ)
  | lower (min p50 p90 p95 : UInt64 × ℚ)
  | upper (p99 p999 p9999 max : UInt64 × ℚ)
  | mean (cycles ns : ℚ)
  | row (arm : List UInt8) (nSamples nPaired : ℤ) (tscGhz : ℚ) (p : Percentiles) (mean : ℚ)
  | file (path : List UInt8) (lines : List String)
  | dumped (n : ℕ) (path : List UInt8)
  | notOpened (path : List UInt8)
  | pairing (nPaired nSamples : ℤ) (nChannels : ℕ)
  deriving DecidableEq, Repr

/-- `snprintf` into a buffer of so many bytes. -/
def snprintf (size : ℕ) (text : List UInt8) : List UInt8 := text.take (size - 1)

/-- `p.mean` for the sorted data, in doubles. -/
def mean (data : List UInt64) : ℚ :=
  let n := (Int32.ofNat data.length).toInt
  if n = 0 then 0 else fl (data.foldl (fun sum val => fl (sum + fl val.toNat)) 0 / n)

/-- A number of cycles, and `p / m_tsc_ghz`. -/
def inNs (stats : Stats) (p : UInt64) : UInt64 × ℚ := (p, fl (fl p.toNat / stats.tscGhz))

def printPercentiles (stats : Stats) (label : List UInt8) (n : ℤ) (p : Percentiles) (mean : ℚ) :
    List Report :=
  [.arm label n,
    .lower (stats.inNs p.min) (stats.inNs p.p50) (stats.inNs p.p90) (stats.inNs p.p95),
    .upper (stats.inNs p.p99) (stats.inNs p.p999) (stats.inNs p.p9999) (stats.inNs p.max),
    .mean mean (fl (mean / stats.tscGhz))]

def emitCsvRow (stats : Stats) (arm : List UInt8) (nSamples nPaired : ℤ) (p : Percentiles)
    (mean : ℚ) : Report :=
  .row arm nSamples nPaired stats.tscGhz p mean

def rawPath (stats : Stats) (armName : List UInt8) : List UInt8 :=
  snprintf 512 (stats.rawPrefix ++ bytes "_" ++ armName ++ bytes ".csv")

def dumpLines (latencies : List UInt64) : List String :=
  "latency_cyc" :: latencies.map fun lat => toString lat.toNat

def dumpRawLatencies (stats : Stats) (armName : List UInt8) (latencies : List UInt64) :
    List Report :=
  if stats.rawPrefix = [] then []
  else
    let path := stats.rawPath armName
    if stats.fopen path then [.file path (dumpLines latencies), .dumped latencies.length path]
    else [.notOpened path]

/-- `s[i + 1].timestamp - s[i].timestamp` -/
def strideAt (s : List Sample) (i : ℕ) : Except Fault UInt64 :=
  match s[i]?, s[i + 1]? with
  | some a, some b => .ok (b.timestamp - a.timestamp)
  | _, _ => .error .indexOutOfRange

def reportStride (label : List UInt8) (s : List Sample) (n : ℤ) : Except Fault (List Report) :=
  if n < 2 then .ok []
  else do
    let count := min (n - 1) 10000
    let strides ← (List.range count.toNat).mapM (strideAt s)
    let strides := sort strides
    let min ← entry strides 0
    let p50 ← entry strides (count.tdiv 2)
    let p99 ← entry strides (rank count 99 100)
    let max ← entry strides (count - 1)
    return [.stride label min p50 p99 max count]

/-- `samples[i].latency` -/
def latencyAt (s : List Sample) (i : ℕ) : Except Fault UInt64 :=
  match s[i]? with
  | some a => .ok a.latency
  | none => .error .indexOutOfRange

/-- What `process_thread` and `process_and_write` have in common. The latencies are dumped as
`compute_percentiles` leaves them. -/
def processChannel (stats : Stats) (label : List UInt8) (withStride : Bool) (s : List Sample)
    (n : ℤ) : Except Fault (List Report) := do
  let strides ← if withStride then reportStride label s n else .ok []
  let lat ← (List.range n.toNat).mapM (latencyAt s)
  let (p, lat) ← computePercentiles lat
  return strides ++ stats.printPercentiles label n p (mean lat) ++
    [stats.emitCsvRow label n n p (mean lat)] ++ stats.dumpRawLatencies label lat

def channelLabel (name : String) (channelID : ℕ) : List UInt8 :=
  snprintf 128 (bytes name ++ bytes "_ch" ++ bytes channelID.repr)

def processThread (stats : Stats) (name : String) (channelID : ℕ) (s : List Sample) (n : ℤ) :
    Except Fault (List Report) :=
  stats.processChannel (channelLabel name channelID) true s n

/-- The arrays as `pair_samples_n` reads them. -/
def allSamples (channelSamples : List (List Sample)) : AllSamples channelSamples.length :=
  fun c i => channelSamples[c].getD i ⟨0, 0⟩

/-- `pair_samples_n`, with as many rounds as it takes at most; `none` if it faults. -/
def pairChannels (channelSamples : List (List Sample)) (n : ℤ) :
    Option (Int32 × List UInt64) :=
  (pairSamplesN (channelSamples.length * n.toNat + 1) (allSamples channelSamples) n []).bind
    Except.toOption

/-- The part of `process_hedged_data` and `process_and_write` for several channels. -/
def processPairs (stats : Stats) (name : String) (channelSamples : List (List Sample)) (n : ℤ) :
    Option (List Report) := do
  let (numPaired, effective) ← pairChannels channelSamples n
  let (pe, effective) ← (computePercentiles effective).toOption
  return [.pairing numPaired.toInt n channelSamples.length] ++
    stats.printPercentiles (bytes name) numPaired.toInt pe (mean effective) ++
    [stats.emitCsvRow (bytes name) n numPaired.toInt pe (mean effective)] ++
    stats.dumpRawLatencies (bytes name) effective

def processHedgedData (stats : Stats) (name : String) (channelSamples : List (List Sample))
    (n : ℤ) : Option (List Report) :=
  if channelSamples.length ≤ 1 then some [] else stats.processPairs name channelSamples n

/-- The loop body of `process_and_write`. -/
def writeChannel (stats : Stats) (name : String) (channelSamples : List (List Sample)) (n : ℤ)
    (c : ℕ) : Option (List Report) := do
  let s ← channelSamples[c]?
  if channelSamples.length = 1 then
    (stats.processChannel (snprintf 128 (bytes name)) false s n).toOption
  else (stats.processChannel (channelLabel name c) true s n).toOption

/-- The plain path, which `run_arm` no longer takes. -/
def processAndWrite (stats : Stats) (name : String) (channelSamples : List (List Sample))
    (n : ℤ) : Option (List Report) := do
  let channels ← (List.range channelSamples.length).mapM
    (stats.writeChannel name channelSamples n)
  let pairs ← stats.processHedgedData name channelSamples n
  return channels.flatten ++ pairs

variable {stats : Stats} {label : List UInt8} {name : String} {s : List Sample} {n c : ℕ}
  {withStride : Bool} {channelSamples : List (List Sample)} {data : List UInt64}

/-- The differences of the first timestamps that follow each other. -/
def strides (s : List Sample) (count : ℕ) : List UInt64 :=
  (List.range count).map fun i =>
    (s.getD (i + 1) ⟨0, 0⟩).timestamp - (s.getD i ⟨0, 0⟩).timestamp

theorem strideAt_eq {i : ℕ} (h : i + 1 < s.length) : strideAt s i =
    .ok ((s.getD (i + 1) ⟨0, 0⟩).timestamp - (s.getD i ⟨0, 0⟩).timestamp) := by
  have hi : i < s.length := Nat.lt_of_succ_lt h
  simp [strideAt, hi, h]

theorem mapM_strideAt {count : ℕ} (h : count < s.length) :
    (List.range count).mapM (strideAt s) = .ok (strides s count) := by
  apply Except.mapM_of_ok
  intro i hi
  exact strideAt_eq (by have := List.mem_range.mp hi; omega)

theorem mapM_latencyAt : (List.range s.length).mapM (latencyAt s) =
    .ok (s.map Sample.latency) := by
  have hmap : s.map Sample.latency = (List.range s.length).map fun i =>
      (s.getD i ⟨0, 0⟩).latency := by
    apply List.ext_getElem
    · simp
    · intro i hi hi'
      have hlt : i < s.length := by simpa using hi
      simp [hlt]
  rw [hmap]
  apply Except.mapM_of_ok
  intro i hi
  have hlt := List.mem_range.mp hi
  simp [latencyAt, hlt]

/-- Without data, all percentiles are zero. -/
theorem computePercentiles_ranked (h : data.length < 2 ^ 31) :
    computePercentiles data = .ok (ranked data, sort data) := by
  rcases eq_or_ne data [] with rfl | hne
  · simp [computePercentiles, ranked, order, sort]
  · exact computePercentiles_eq hne h

/-- `count` of `report_stride` -/
def strideCount (n : ℕ) : ℕ := min (n - 1) 10000

/-- The line about the strides, with the entries of the ranks. -/
def strideReport (label : List UInt8) (s : List Sample) : List Report :=
  if s.length < 2 then []
  else
    let count := strideCount s.length
    let data := strides s count
    [.stride label (order data 0) (order data (count / 2)) (order data (count * 99 / 100))
      (order data (count - 1)) count]

theorem reportStride_eq : reportStride label s s.length = .ok (strideReport label s) := by
  unfold reportStride strideReport
  by_cases hshort : s.length < 2
  · rw [if_pos (by omega), if_pos hshort]
  · rw [if_neg (by omega), if_neg hshort]
    have hcount : min ((s.length : ℤ) - 1) 10000 = (strideCount s.length : ℕ) := by
      rw [strideCount]
      omega
    have hpos : 0 < strideCount s.length := by
      rw [strideCount]
      omega
    have hlt : strideCount s.length < s.length := by
      rw [strideCount]
      omega
    have hlen : (strides s (strideCount s.length)).length = strideCount s.length := by
      rw [strides, List.length_map, List.length_range]
    have hentry : ∀ {k : ℕ} {i : ℤ}, i = k → k < strideCount s.length →
        entry (sort (strides s (strideCount s.length))) i =
          .ok (order (strides s (strideCount s.length)) k) :=
      fun hi hk => entry_sort hi (by rw [hlen]; exact hk)
    have hmin := hentry (k := 0) (i := 0) rfl hpos
    have hp50 := hentry (k := strideCount s.length / 2)
      (i := (strideCount s.length : ℤ).tdiv 2) (Int.ofNat_tdiv _ _).symm (by omega)
    have hp99 := hentry (k := strideCount s.length * 99 / 100)
      (i := rank (strideCount s.length) 99 100) (rank_natCast _ _ _) (by omega)
    have hmax := hentry (k := strideCount s.length - 1)
      (i := (strideCount s.length : ℤ) - 1) (by omega) (by omega)
    simp only [hcount, Int.toNat_natCast, mapM_strideAt hlt, hmin, hp50, hp99, hmax, bind,
      Except.bind, pure, Except.pure]

/-- All reports about a channel. -/
def channelReports (stats : Stats) (label : List UInt8) (withStride : Bool) (s : List Sample) :
    List Report :=
  let lat := s.map Sample.latency
  (if withStride then strideReport label s else []) ++
    stats.printPercentiles label s.length (ranked lat) (mean (sort lat)) ++
    [stats.emitCsvRow label s.length s.length (ranked lat) (mean (sort lat))] ++
    stats.dumpRawLatencies label (sort lat)

theorem processChannel_eq (stats : Stats) (label : List UInt8) (withStride : Bool)
    (h : s.length < 2 ^ 31) :
    stats.processChannel label withStride s s.length =
      .ok (stats.channelReports label withStride s) := by
  have hranked : computePercentiles (s.map Sample.latency) =
      .ok (ranked (s.map Sample.latency), sort (s.map Sample.latency)) :=
    computePercentiles_ranked (by rw [List.length_map]; exact h)
  cases withStride <;>
    simp only [processChannel, reportStride_eq, Int.toNat_natCast, mapM_latencyAt, hranked, bind,
      Except.bind, pure, Except.pure, if_true, Bool.false_eq_true, if_false] <;> rfl

/-- What the loop of `pair_samples_n` keeps determines its outcome. -/
theorem pairChannels_of_kept (hn : 0 < channelSamples.length)
    {I : Window channelSamples.length → Prop} (h₀ : I ⟨fun _ => 0, []⟩)
    (hI : KeptByPairing (allSamples channelSamples) (n : ℤ) I) :
    ∃ w, pairChannels channelSamples n =
        some (Int32.ofNat w.outEffective.length, w.outEffective) ∧
      I w ∧ ∃ c, n ≤ w.indices c := by
  obtain ⟨w, hrun, hw, c, hc⟩ := pairSamplesN_total hn [] h₀ hI (Nat.lt_succ_self _)
  refine ⟨w, ?_, hw, c, by exact_mod_cast hc⟩
  rw [pairChannels, hrun]
  rfl

/-- The pairing comes to its end, with at most as many values as a channel has samples. -/
theorem pairChannels_eq (hn : 0 < channelSamples.length) :
    ∃ effective, effective.length ≤ n ∧
      pairChannels channelSamples n = some (Int32.ofNat effective.length, effective) := by
  have hI : KeptByPairing (allSamples channelSamples) (n : ℤ) (AppendedAtMost [] (n : ℤ)) := by
    constructor
    · intro w v h hin _ _
      exact appendedAtMost_pair h hin
    · intro w c d h hin _ _
      exact appendedAtMost_advance h hin c
  obtain ⟨w, hrun, ⟨appended, he, hle⟩, -⟩ := pairChannels_of_kept hn ⟨[], rfl, by simp⟩ hI
  rw [List.nil_append] at he
  have h0 := hle ⟨0, hn⟩
  rw [Int.toNat_natCast] at h0
  exact ⟨w.outEffective, by rw [he]; omega, hrun⟩

/-- The number of reports about the pairs. -/
def pairReportCount (stats : Stats) (name : String) : ℕ :=
  6 + (stats.dumpRawLatencies (bytes name) []).length

theorem length_dumpRawLatencies (lat lat' : List UInt64) :
    (stats.dumpRawLatencies label lat).length = (stats.dumpRawLatencies label lat').length := by
  unfold dumpRawLatencies
  dsimp only
  split
  · rfl
  · split <;> rfl

/-- All reports about the pairs, for the effective latencies. -/
def pairsReports (stats : Stats) (name : String) (n nChannels : ℕ) (effective : List UInt64) :
    List Report :=
  [.pairing effective.length n nChannels] ++
    stats.printPercentiles (bytes name) effective.length (ranked effective)
      (mean (sort effective)) ++
    [stats.emitCsvRow (bytes name) n effective.length (ranked effective)
      (mean (sort effective))] ++
    stats.dumpRawLatencies (bytes name) (sort effective)

theorem length_pairsReports (effective : List UInt64) :
    (stats.pairsReports name n c effective).length = stats.pairReportCount name := by
  simp only [pairsReports, List.length_append, printPercentiles, List.length_cons, List.length_nil,
    pairReportCount, length_dumpRawLatencies (sort effective) []]

theorem processPairs_of_pairChannels (stats : Stats) (name : String)
    {effective : List UInt64} (hlt : n < 2 ^ 31)
    (hle : effective.length ≤ n)
    (h : pairChannels channelSamples n = some (Int32.ofNat effective.length, effective)) :
    stats.processPairs name channelSamples n =
      some (stats.pairsReports name n channelSamples.length effective) := by
  have hranked : computePercentiles effective = .ok (ranked effective, sort effective) :=
    computePercentiles_ranked (by omega)
  have hcount : (Int32.ofNat effective.length).toInt = effective.length :=
    Int32.toInt_ofNat_of_lt (by omega)
  rw [processPairs, h]
  simp only [Option.bind_eq_bind, Option.bind_some, hranked, Except.toOption, hcount]
  rfl

theorem processPairs_eq (stats : Stats) (name : String) (hn : 0 < channelSamples.length)
    (hlt : n < 2 ^ 31) : ∃ reports, stats.processPairs name channelSamples n = some reports ∧
      reports.length = stats.pairReportCount name := by
  obtain ⟨effective, hle, hpairs⟩ := pairChannels_eq (n := n) hn
  exact ⟨_, stats.processPairs_of_pairChannels name hlt hle hpairs, length_pairsReports effective⟩

end Stats

end Tailslayer
