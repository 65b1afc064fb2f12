import Mathlib.Data.Fintype.Basic
import Tailslayer.Foundations.WhileLoop

/-! `Benchmark::pair_samples_n` (`benchmark.cpp`): pairing samples over sliding windows. -/
namespace Tailslayer.Benchmark

structure Sample where
  timestamp : UInt64
  latency : UInt64
  deriving DecidableEq, Repr

/-- `AppConfig::MAX_PAIR_GAP` -/
def MAX_PAIR_GAP : UInt64 := 400

def UINT64_MAX : UInt64 := 0xffffffffffffffff

/-- The vector of the channels' sample arrays. -/
abbrev AllSamples (n : ℕ) := Fin n → ℕ → Sample

/-- The variables of the loop over the channels. -/
structure Spread (n : ℕ) where
  minTs : UInt64
  maxTs : UInt64
  minIdxChannel : Option (Fin n)
  minLatency : UInt64

variable {n : ℕ}

def Spread.start : Spread n := ⟨UINT64_MAX, 0, none, UINT64_MAX⟩

def Spread.add (sp : Spread n) (c : Fin n) (s : Sample) : Spread n where
  minTs := if s.timestamp < sp.minTs then s.timestamp else sp.minTs
  maxTs := if sp.maxTs < s.timestamp then s.timestamp else sp.maxTs
  minIdxChannel := if s.timestamp < sp.minTs then some c else sp.minIdxChannel
  minLatency := if s.latency < sp.minLatency then s.latency else sp.minLatency

/-- The loop over the channels; `none` when it breaks off out of bounds. -/
def scan (allSamples : AllSamples n) (numSamples : ℤ) (indices : Fin n → ℕ) :
    Option (Spread n) :=
  (List.finRange n).foldlM (fun sp c =>
    if numSamples ≤ indices c then none
    else some (sp.add c (allSamples c (indices c)))) .start

/-- The state of the outer loop. -/
structure Window (n : ℕ) where
  indices : Fin n → ℕ
  outEffective : List UInt64

/-- `indices[min_idx_channel]` with `min_idx_channel == -1` -/
inductive Fault
  | negativeIndex
  deriving DecidableEq, Repr

/-- The body of the outer loop; `none` leaves it. -/
def pairStep (allSamples : AllSamples n) (numSamples : ℤ) (w : Window n) :
    Except Fault (Option (Window n)) :=
  match scan allSamples numSamples w.indices with
  | none => .ok none
  | some sp =>
    if sp.maxTs - sp.minTs < MAX_PAIR_GAP then
      .ok (some ⟨fun c => w.indices c + 1, w.outEffective ++ [sp.minLatency]⟩)
    else
      match sp.minIdxChannel with
      | none => .error .negativeIndex
      | some c => .ok (some { w with indices := Function.update w.indices c (w.indices c + 1) })

/-- The returned count next to the final `out_effective`; `none` when the fuel runs out. -/
def pairSamplesN (fuel : ℕ) (allSamples : AllSamples n) (numSamples : ℤ)
    (outEffective : List UInt64) : Option (Except Fault (Int32 × List UInt64)) :=
  if n = 0 then some (.ok (0, outEffective))
  else (WhileLoop.run (pairStep allSamples numSamples) fuel ⟨fun _ => 0, outEffective⟩).map
    (Except.map (fun w => (Int32.ofNat w.outEffective.length, w.outEffective)))

end Tailslayer.Benchmark
