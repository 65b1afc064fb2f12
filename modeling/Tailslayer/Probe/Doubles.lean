import Mathlib.Algebra.Order.Group.Unbundled.Abs
import Tailslayer.Foundations.Binary64
import Tailslayer.Probe.Periodicity

/-! The periodicity analysis in the arithmetic of `trefi_probe.cpp`, where every operation rounds,
from the spikes to the verdict and the peak that is printed. -/
namespace Tailslayer.Probe

/-- `count_1T + count_2T + count_3T` -/
def HarmonicCounts.harmonics (c : HarmonicCounts) : ℕ := c.count1T + c.count2T + c.count3T

namespace Double

open Binary64 Histogram

/-- `interval >= T * lo && interval <= T * hi` -/
def within (T lo hi interval : ℚ) : Bool := fl (T * fl lo) ≤ interval ∧ interval ≤ fl (T * fl hi)

def harmonicStep (T : ℚ) (c : HarmonicCounts) (interval : ℚ) : HarmonicCounts :=
  let tmp0 := within T 0.85 1.15 interval
  let tmp1 := within T 1.85 2.15 interval
  let tmp2 := within T 2.85 3.15 interval
  { count1T := c.count1T + tmp0.toNat
    count2T := c.count2T + tmp1.toNat
    count3T := c.count3T + tmp2.toNat
    countOther := c.countOther + (!(tmp0 || tmp1 || tmp2)).toNat }

def harmonicBinning (T : ℚ) (intervals : List ℚ) : HarmonicCounts :=
  intervals.foldl (harmonicStep T) .zero

def binLo (T : ℚ) : ℚ := fl (T * 0.5)

def binHi (T : ℚ) : ℚ := fl (T * 1.5)

def binWidth (T : ℚ) : ℚ := fl (fl (binHi T - binLo T) / histBins)

/-- `(iv - bin_lo) / bin_width` -/
def position (T iv : ℚ) : ℚ := fl (fl (iv - binLo T) / binWidth T)

def histogramStep (T : ℚ) (h : IntervalHistogram) (iv : ℚ) : IntervalHistogram :=
  if iv ≥ binLo T ∧ iv < binHi T then
    let bin := truncate (position T iv)
    if bin ≥ 0 ∧ bin < histBins then ⟨increment h.hist bin.toNat, h.histTotal + 1⟩
    else h
  else h

def histogram (T : ℚ) (intervals : List ℚ) : IntervalHistogram :=
  intervals.foldl (histogramStep T) ⟨List.replicate histBins 0, 0⟩

/-- `peak_cyc` -/
def peakCyc (T : ℚ) (h : IntervalHistogram) : ℚ :=
  fl (binLo T + fl (fl ((peak h.hist).1 + 0.5) * binWidth T))

/-- What is printed of the peak, before `printf` cuts the decimals; the deviation is in percent of
the expected period. -/
structure PeakReport where
  peakCyc : ℚ
  peakCount : ℕ
  deviation : ℚ
  deriving DecidableEq, Repr

def peakReport (T : ℚ) (h : IntervalHistogram) : PeakReport where
  peakCyc := peakCyc T h
  peakCount := (peak h.hist).2
  deviation := fl (fl (|fl (peakCyc T h - T)| / T) * 100)

/-- The intervals between the time stamps of the spikes. -/
def intervalsOf (spikes : List UInt64) : List ℚ :=
  List.zipWith (fun t t' => fl (t' - t).toNat) spikes spikes.tail

inductive Verdict
  | insufficientData
  | periodic
  | weakSignal
  | noPeriodicSignal
  deriving DecidableEq, Repr

def fracHarmonic (c : HarmonicCounts) (nIntervals : ℕ) : ℚ :=
  fl (c.harmonics / nIntervals)

/-- The branches on `frac_harmonic` at the end. -/
def classify (frac : ℚ) : Verdict :=
  if frac > fl 0.30 then .periodic else if frac > fl 0.15 then .weakSignal else .noPeriodicSignal

def verdict (T : ℚ) (spikes : List UInt64) : Verdict :=
  if spikes.length < 10 then .insufficientData
  else
    let intervals := intervalsOf spikes
    classify (fracHarmonic (harmonicBinning T intervals) intervals.length)

variable {T lo hi iv : ℚ} {intervals : List ℚ} {c : HarmonicCounts}

/-- The border of a window errs by less than one part in `2 ^ 50` of the period. -/
theorem abs_border_sub_le (hT : 1 ≤ T) (h0 : 0 ≤ lo) (h : lo ≤ 3.5) :
    |fl (T * fl lo) - T * lo| ≤ T / 2 ^ 50 := by
  have hlit : |fl lo - lo| ≤ 4 / 2 ^ 53 :=
    abs_fl_sub_le (by norm_num) (by rw [abs_of_nonneg h0]; linarith)
  obtain ⟨hlit1, hlit2⟩ := abs_le.mp hlit
  have hlit3 : |fl lo| ≤ 4 := abs_le.mpr ⟨by linarith, by linarith⟩
  have hproduct : |fl (T * fl lo) - T * fl lo| ≤ (T * 4) / 2 ^ 53 := by
    apply abs_fl_sub_le (by linarith)
    rw [abs_mul, abs_of_nonneg (by linarith : (0 : ℚ) ≤ T)]
    exact mul_le_mul_of_nonneg_left hlit3 (by linarith)
  have hscaled : |T * fl lo - T * lo| ≤ T * (4 / 2 ^ 53) := by
    rw [← mul_sub, abs_mul, abs_of_nonneg (by linarith : (0 : ℚ) ≤ T)]
    exact mul_le_mul_of_nonneg_left hlit (by linarith)
  have htriangle := abs_sub_le (fl (T * fl lo)) (T * fl lo) (T * lo)
  linarith

/-- The exact borders and the rounded ones have the intervals on the same side, but for those that
are within one part in `2 ^ 50` of a border. -/
def Clear (T edge iv : ℚ) : Prop := T / 2 ^ 50 < |iv - T * edge|

theorem fl_le_iff_of_clear (hT : 1 ≤ T) (h0 : 0 ≤ lo) (h : lo ≤ 3.5) (hclear : Clear T lo iv) :
    (fl (T * fl lo) ≤ iv ↔ T * lo ≤ iv) ∧ (iv ≤ fl (T * fl lo) ↔ iv ≤ T * lo) := by
  obtain ⟨h1, h2⟩ := abs_le.mp (abs_border_sub_le hT h0 h)
  obtain hbelow | habove := lt_abs.mp hclear
  · constructor <;> constructor <;> intro _ <;> linarith
  · constructor <;> constructor <;> intro _ <;> linarith

theorem within_eq (hT : 1 ≤ T) (hlo0 : 0 ≤ lo) (hlo : lo ≤ 3.5) (hhi0 : 0 ≤ hi) (hhi : hi ≤ 3.5)
    (hl : Clear T lo iv) (hh : Clear T hi iv) : within T lo hi iv = Probe.within T lo hi iv := by
  exact decide_eq_decide.mpr (and_congr (fl_le_iff_of_clear hT hlo0 hlo hl).1
    (fl_le_iff_of_clear hT hhi0 hhi hh).2)

/-- The rounded counters are the exact ones, if no interval is as close to a border. -/
theorem harmonicBinning_eq (hT : 1 ≤ T)
    (hclear : ∀ iv ∈ intervals, ∀ edge ∈ [0.85, 1.15, 1.85, 2.15, 2.85, 3.15], Clear T edge iv) :
    harmonicBinning T intervals = Probe.harmonicBinning T intervals := by
  refine List.foldl_ext _ _ _ fun c iv hiv => ?_
  have hedges := hclear iv hiv
  simp only [List.forall_mem_cons, List.not_mem_nil, false_implies, implies_true,
    and_true] at hedges
  obtain ⟨h0, h0', h1, h1', h2, h2'⟩ := hedges
  simp only [harmonicStep, Probe.harmonicStep]
  rw [within_eq hT (by norm_num) (by norm_num) (by norm_num) (by norm_num) h0 h0',
    within_eq hT (by norm_num) (by norm_num) (by norm_num) (by norm_num) h1 h1',
    within_eq hT (by norm_num) (by norm_num) (by norm_num) (by norm_num) h2 h2']

def harmonic (T iv : ℚ) : Bool :=
  within T 0.85 1.15 iv || within T 1.85 2.15 iv || within T 2.85 3.15 iv

theorem within_of_margin (hT : 1 ≤ T) (hlo0 : 0 ≤ lo) (hlo : lo ≤ 3.5) (hhi0 : 0 ≤ hi)
    (hhi : hi ≤ 3.5) (hl : T * lo + T / 1000 ≤ iv) (hh : iv + T / 1000 ≤ T * hi) :
    within T lo hi iv = true := by
  obtain ⟨-, hle⟩ := abs_le.mp (abs_border_sub_le hT hlo0 hlo)
  obtain ⟨hge, -⟩ := abs_le.mp (abs_border_sub_le hT hhi0 hhi)
  exact decide_eq_true ⟨by linarith, by linarith⟩

theorem harmonic_of_near {d : ℕ} (hT : 1 ≤ T) (hd : 0 < d) (hd3 : d ≤ 3)
    (h : |iv - d * T| ≤ 0.149 * T) : harmonic T iv = true := by
  obtain ⟨hlo, hhi⟩ := abs_le.mp h
  rw [harmonic, Bool.or_eq_true, Bool.or_eq_true]
  obtain rfl | rfl | rfl : d = 1 ∨ d = 2 ∨ d = 3 := by omega
  · push_cast at hlo hhi
    exact Or.inl (Or.inl (within_of_margin hT (by norm_num) (by norm_num) (by norm_num)
      (by norm_num) (by linarith) (by linarith)))
  · push_cast at hlo hhi
    exact Or.inl (Or.inr (within_of_margin hT (by norm_num) (by norm_num) (by norm_num)
      (by norm_num) (by linarith) (by linarith)))
  · push_cast at hlo hhi
    exact Or.inr (within_of_margin hT (by norm_num) (by norm_num) (by norm_num)
      (by norm_num) (by linarith) (by linarith))

/-- The first three counters have every harmonic interval, and none more than three times. -/
theorem harmonics_harmonicBinning (T : ℚ) (intervals : List ℚ) :
    intervals.countP (harmonic T) ≤ (harmonicBinning T intervals).harmonics ∧
      (harmonicBinning T intervals).harmonics ≤ 3 * intervals.length := by
  have hgeneral : ∀ c : HarmonicCounts,
      c.harmonics + intervals.countP (harmonic T) ≤
        (intervals.foldl (harmonicStep T) c).harmonics ∧
      (intervals.foldl (harmonicStep T) c).harmonics ≤
        c.harmonics + 3 * intervals.length := by
    induction intervals with
    | nil => intro c; exact ⟨Nat.le_refl _, Nat.le_refl _⟩
    | cons iv intervals ih =>
      intro c
      obtain ⟨hlower, hupper⟩ := ih (harmonicStep T c iv)
      have hstep : c.harmonics + (harmonic T iv).toNat ≤
          (harmonicStep T c iv).harmonics ∧
          (harmonicStep T c iv).harmonics ≤ c.harmonics + 3 := by
        simp only [HarmonicCounts.harmonics, harmonicStep, harmonic]
        cases within T 0.85 1.15 iv <;> cases within T 1.85 2.15 iv <;>
          cases within T 2.85 3.15 iv <;> simp <;> omega
      have hone : (if harmonic T iv = true then 1 else 0) = (harmonic T iv).toNat := by
        cases harmonic T iv <;> rfl
      rw [List.foldl_cons, List.countP_cons, List.length_cons, hone]
      omega
  have hstart := hgeneral .zero
  have hzero : HarmonicCounts.zero.harmonics = 0 := rfl
  rw [hzero, Nat.zero_add, Nat.zero_add] at hstart
  exact hstart

theorem length_intervalsOf (spikes : List UInt64) :
    (intervalsOf spikes).length = spikes.length - 1 := by
  rw [intervalsOf, List.length_zipWith, List.length_tail]
  omega

theorem classify_eq_periodic {frac : ℚ} : classify frac = .periodic ↔ fl 0.30 < frac := by
  unfold classify
  split_ifs with h30 h15
  · simp [h30]
  · simp [h30]
  · simp [h30]

/-- A fraction of two small numbers is above three tenths after rounding too. -/
theorem lt_fracHarmonic {n : ℕ} (hn : 0 < n) (hsmall : n < 2 ^ 21) (hcount : c.harmonics ≤ 3 * n)
    (h : 3 * n < 10 * c.harmonics) : fl 0.30 < fracHarmonic c n := by
  have hpos : (0 : ℚ) < n := Nat.cast_pos.mpr hn
  have hle : |(c.harmonics : ℚ) / n| ≤ 3 := by
    rw [abs_of_nonneg (by positivity), div_le_iff₀ hpos]
    exact_mod_cast hcount
  have hlit : |fl 0.30 - 0.30| ≤ 1 / 2 ^ 53 :=
    abs_fl_sub_le (le_refl _) (by rw [abs_of_nonneg (by norm_num)]; norm_num)
  have hround : |fl ((c.harmonics : ℚ) / n) - c.harmonics / n| ≤ 3 / 2 ^ 53 :=
    abs_fl_sub_le (by norm_num) hle
  have hgap : 0.30 + 1 / (10 * 2 ^ 21 : ℚ) ≤ c.harmonics / n := by
    have hgap' : (3 * n + 1 : ℚ) ≤ 10 * c.harmonics := by exact_mod_cast h
    have hsmall' : (n : ℚ) ≤ 2 ^ 21 := by exact_mod_cast hsmall.le
    rw [le_div_iff₀ hpos, add_mul]
    linarith
  change fl 0.30 < fl ((c.harmonics : ℚ) / n)
  have h1 := (abs_le.mp hlit).2
  have h2 := (abs_le.mp hround).1
  linarith

/-- With enough spikes more than three tenths of harmonic intervals make a periodic signal. -/
theorem verdict_eq_periodic {spikes : List UInt64} (h : 10 ≤ spikes.length)
    (hsmall : spikes.length ≤ 2 ^ 21)
    (hcount : 3 * (intervalsOf spikes).length <
      10 * (intervalsOf spikes).countP (harmonic T)) : verdict T spikes = .periodic := by
  have hlen := length_intervalsOf spikes
  obtain ⟨hlower, hupper⟩ := harmonics_harmonicBinning T (intervalsOf spikes)
  rw [verdict, if_neg (by omega), classify_eq_periodic]
  exact lt_fracHarmonic (by omega) (by omega) hupper (by omega)

end Double

end Tailslayer.Probe
