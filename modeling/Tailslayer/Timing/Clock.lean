import Mathlib.Algebra.Ring.Int.Defs
import Mathlib.Tactic.Common
import Tailslayer.Foundations.Outcome

/-! `clock_gettime_monotonic` (`utilities.hpp`) on Windows: a tick count as seconds and
nanoseconds. -/
namespace Tailslayer.Clock

/-- Signed arithmetic outside its range is undefined. -/
inductive Fault
  | divisionByZero
  | overflow
  deriving DecidableEq, Repr

def kNS_PER_SEC : Int32 := 1000 * 1000 * 1000

def multiply (a b : Int64) : Except Fault Int64 :=
  if -2 ^ 63 ≤ a.toInt * b.toInt ∧ a.toInt * b.toInt < 2 ^ 63 then .ok (a * b)
  else .error .overflow

def divide (a b : Int64) : Except Fault Int64 :=
  if b = 0 then .error .divisionByZero
  else if a = Int64.minValue ∧ b = -1 then .error .overflow
  else .ok (a / b)

def remainder (a b : Int64) : Except Fault Int64 :=
  if b = 0 then .error .divisionByZero
  else if a = Int64.minValue ∧ b = -1 then .error .overflow
  else .ok (a % b)

/-- What the two queries give; the frequency is zero when there is no such counter. -/
structure PerformanceCounter where
  frequency : Int64
  ticks : Int64
  deriving DecidableEq, Repr

/-- The casts are to `long`, which has 32 bits. -/
structure Timespec where
  tvSec : Int32
  tvNsec : Int32
  deriving DecidableEq, Repr

inductive Errno
  | ENOTSUP
  deriving DecidableEq, Repr

/-- The status, what the call writes to `tv` and to `errno`, and its static variable
`ticksPerSec` afterwards. -/
structure Reply where
  status : Int32
  tv : Option Timespec
  errno : Option Errno
  ticksPerSec : Int64
  deriving DecidableEq, Repr

def clockGettimeMonotonic (ticksPerSec : Int64) (os : PerformanceCounter) : Except Fault Reply :=
  let ticksPerSec := if ticksPerSec = 0 then os.frequency else ticksPerSec
  if ticksPerSec = 0 then .ok ⟨-1, none, some .ENOTSUP, ticksPerSec⟩
  else do
    let seconds ← divide os.ticks ticksPerSec
    let rest ← remainder os.ticks ticksPerSec
    let product ← multiply rest kNS_PER_SEC.toInt64
    let nanoseconds ← divide product ticksPerSec
    return ⟨0, some ⟨seconds.toInt32, nanoseconds.toInt32⟩, none, ticksPerSec⟩

/-- The frequency that a call uses: the one of an earlier call, or else the one it reads. -/
def Uses (ticksPerSec : Int64) (os : PerformanceCounter) (f : Int64) : Prop :=
  (if ticksPerSec = 0 then os.frequency else ticksPerSec) = f

def Timespec.nanoseconds (tv : Timespec) : ℤ := tv.tvSec.toInt * 10 ^ 9 + tv.tvNsec.toInt

/-- The time is that of the tick count, rounded down to nanoseconds. -/
structure Timespec.Exact (tv : Timespec) (ticks f : ℤ) : Prop where
  product : -2 ^ 63 ≤ ticks % f * 10 ^ 9 ∧ ticks % f * 10 ^ 9 < 2 ^ 63
  nsec : 0 ≤ tv.tvNsec.toInt ∧ tv.tvNsec.toInt < 10 ^ 9
  total : tv.nanoseconds = ticks * 10 ^ 9 / f

variable {f ticksPerSec ticksPerSec' a b : Int64} {os os' : PerformanceCounter} {ticks ticks' : ℤ}

/-- Nothing is lost by converting the seconds and the rest one by one. -/
theorem split_floor (hf : 0 < ticks') (B : ℤ) :
    ticks / ticks' * B + ticks % ticks' * B / ticks' = ticks * B / ticks' := by
  have hsplit : ticks * B = ticks % ticks' * B + ticks' * (ticks / ticks' * B) := by
    calc ticks * B = (ticks % ticks' + ticks' * (ticks / ticks')) * B := by
          rw [Int.emod_add_mul_ediv]
      _ = _ := by rw [Int.add_mul, Int.mul_assoc]
  rw [hsplit, Int.add_mul_ediv_left _ _ (Int.ne_of_gt hf), Int.add_comm]

theorem divisor_of_pos (hb : 0 < b.toInt) : b ≠ 0 ∧ b ≠ -1 := by
  constructor
  · rintro rfl
    exact Int.lt_irrefl 0 hb
  · rintro rfl
    exact absurd hb (by decide)

theorem divide_of_pos (ha : 0 ≤ a.toInt) (hb : 0 < b.toInt) :
    ∃ q, divide a b = .ok q ∧ q.toInt = a.toInt / b.toInt := by
  obtain ⟨hb0, hb1⟩ := divisor_of_pos hb
  refine ⟨a / b, ?_, ?_⟩
  · rw [divide, if_neg hb0, if_neg (fun h => hb1 h.2)]
  · rw [Int64.toInt_div_of_ne_right _ _ hb1, Int.tdiv_eq_ediv_of_nonneg ha]

theorem remainder_of_pos (ha : 0 ≤ a.toInt) (hb : 0 < b.toInt) :
    ∃ r, remainder a b = .ok r ∧ r.toInt = a.toInt % b.toInt := by
  obtain ⟨hb0, hb1⟩ := divisor_of_pos hb
  refine ⟨a % b, ?_, ?_⟩
  · rw [remainder, if_neg hb0, if_neg (fun h => hb1 h.2)]
  · rw [Int64.toInt_mod, Int.tmod_eq_emod_of_nonneg ha]

theorem multiply_of_fits (hlo : -2 ^ 63 ≤ a.toInt * b.toInt) (hhi : a.toInt * b.toInt < 2 ^ 63) :
    ∃ p, multiply a b = .ok p ∧ p.toInt = a.toInt * b.toInt := by
  refine ⟨a * b, if_pos ⟨hlo, hhi⟩, ?_⟩
  rw [Int64.toInt_mul]
  exact Int.bmod_eq_of_le (by omega) (by omega)

/-- A cast to 32 bits keeps the numbers that fit. -/
theorem toInt_toInt32 (h0 : 0 ≤ a.toInt) (h : a.toInt < 2 ^ 31) :
    a.toInt32.toInt = a.toInt := by
  rw [Int64.toInt_toInt32]
  exact Int.bmod_eq_of_le (by omega) (by omega)

theorem clockGettimeMonotonic_exact (hf : 0 < f.toInt) (hfit : f.toInt * 10 ^ 9 < 2 ^ 63)
    (h : Uses ticksPerSec os f) (h0 : 0 ≤ os.ticks.toInt)
    (hsec : os.ticks.toInt / f.toInt < 2 ^ 31) :
    ∃ tv, clockGettimeMonotonic ticksPerSec os = .ok ⟨0, some tv, none, f⟩ ∧
      tv.Exact os.ticks.toInt f.toInt := by
  have hne := (divisor_of_pos hf).1
  have hns : kNS_PER_SEC.toInt64.toInt = 10 ^ 9 := by decide
  have hrest := Int.emod_nonneg os.ticks.toInt (Int.ne_of_gt hf)
  have hlt := Int.emod_lt_of_pos os.ticks.toInt hf
  have hproduct : -2 ^ 63 ≤ os.ticks.toInt % f.toInt * 10 ^ 9 ∧
      os.ticks.toInt % f.toInt * 10 ^ 9 < 2 ^ 63 := by omega
  obtain ⟨s, hs, hsv⟩ := divide_of_pos h0 hf
  obtain ⟨r, hr, hrv⟩ := remainder_of_pos h0 hf
  obtain ⟨p, hp, hpv⟩ := multiply_of_fits (a := r) (b := kNS_PER_SEC.toInt64)
    (by rw [hrv, hns]; exact hproduct.1) (by rw [hrv, hns]; exact hproduct.2)
  rw [hrv, hns] at hpv
  obtain ⟨q, hq, hqv⟩ := divide_of_pos (a := p) (by omega) hf
  rw [hpv] at hqv
  have hnsec : 0 ≤ q.toInt ∧ q.toInt < 10 ^ 9 := by
    rw [hqv]
    refine ⟨Int.ediv_nonneg (by omega) (Int.le_of_lt hf), ?_⟩
    exact Int.ediv_lt_of_lt_mul hf (by omega)
  have hsec0 : 0 ≤ s.toInt := by
    rw [hsv]
    exact Int.ediv_nonneg h0 (Int.le_of_lt hf)
  refine ⟨⟨s.toInt32, q.toInt32⟩, ?_, hproduct, ?_, ?_⟩
  · rw [Uses] at h
    simp only [clockGettimeMonotonic, h, if_neg hne, hs, hr, hp, hq, bind, Except.bind, pure,
      Except.pure]
  · change 0 ≤ q.toInt32.toInt ∧ q.toInt32.toInt < 10 ^ 9
    rw [toInt_toInt32 hnsec.1 (by omega)]
    exact hnsec
  · rw [Timespec.nanoseconds]
    change s.toInt32.toInt * 10 ^ 9 + q.toInt32.toInt = _
    rw [toInt_toInt32 hnsec.1 (by omega), toInt_toInt32 hsec0 (by omega), hsv, hqv]
    exact split_floor hf _

/-- Two calls with one frequency: both times are exact, and they stand in the order of the tick
counts. -/
theorem clockGettimeMonotonic_monotone (hf : 0 < f.toInt) (hfit : f.toInt * 10 ^ 9 < 2 ^ 63)
    (h : Uses ticksPerSec os f) (h' : Uses ticksPerSec' os' f) (h0 : 0 ≤ os.ticks.toInt)
    (hle : os.ticks.toInt ≤ os'.ticks.toInt) (hsec : os'.ticks.toInt / f.toInt < 2 ^ 31) :
    ∃ tv tv', clockGettimeMonotonic ticksPerSec os = .ok ⟨0, some tv, none, f⟩ ∧
      clockGettimeMonotonic ticksPerSec' os' = .ok ⟨0, some tv', none, f⟩ ∧
      tv.Exact os.ticks.toInt f.toInt ∧ tv'.Exact os'.ticks.toInt f.toInt ∧
      tv.nanoseconds ≤ tv'.nanoseconds := by
  have hearlier := Int.ediv_le_ediv hf hle
  obtain ⟨tv, hrun, hexact⟩ :=
    clockGettimeMonotonic_exact hf hfit h h0 (Int.lt_of_le_of_lt hearlier hsec)
  obtain ⟨tv', hrun', hexact'⟩ :=
    clockGettimeMonotonic_exact hf hfit h' (Int.le_trans h0 hle) hsec
  refine ⟨tv, tv', hrun, hrun', hexact, hexact', ?_⟩
  rw [hexact.total, hexact'.total]
  exact Int.ediv_le_ediv hf (Int.mul_le_mul_of_nonneg_right hle (by decide))

/-- Ten million ticks a second; the first call reads the frequency, the second one has it. -/
theorem clockGettimeMonotonic_monotone_tenMegahertz :
    ∃ tv tv', clockGettimeMonotonic 0 ⟨10000000, 123456789⟩ = .ok ⟨0, some tv, none, 10000000⟩ ∧
      clockGettimeMonotonic 10000000 ⟨10000000, 123456790⟩ = .ok ⟨0, some tv', none, 10000000⟩ ∧
      tv.Exact (123456789 : Int64).toInt (10000000 : Int64).toInt ∧
      tv'.Exact (123456790 : Int64).toInt (10000000 : Int64).toInt ∧
      tv.nanoseconds ≤ tv'.nanoseconds :=
  clockGettimeMonotonic_monotone (by decide) (by decide) rfl rfl (by decide) (by decide)
    (by decide)

end Tailslayer.Clock
