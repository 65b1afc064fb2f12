import Mathlib.Data.Rat.Floor
import Mathlib.Tactic.Linarith
import Mathlib.Tactic.NormNum
import Tailslayer.Foundations.Histogram

/-! The periodicity analysis of `trefi_probe.cpp`: intervals counted near the harmonics of the
refresh period `T`, and a histogram around it. Real numbers are rational. -/
namespace Tailslayer.Probe

open Histogram

structure HarmonicCounts where
  count1T : ℕ
  count2T : ℕ
  count3T : ℕ
  countOther : ℕ
  deriving DecidableEq, Repr

def HarmonicCounts.zero : HarmonicCounts := ⟨0, 0, 0, 0⟩

/-- `interval >= T * lo && interval <= T * hi` -/
def within (T lo hi interval : ℚ) : Bool := T * lo ≤ interval ∧ interval ≤ T * hi

/-- The windows are tested one by one, and the results are added. -/
def harmonicStep (T : ℚ) (c : HarmonicCounts) (interval : ℚ) : HarmonicCounts :=
  let tmp0 := within T 0.85 1.15 interval
  let tmp1 := within T 1.85 2.15 interval
  let tmp2 := within T 2.85 3.15 interval
  { count1T := c.count1T + tmp0.toNat
    count2T := c.count2T + tmp1.toNat
    count3T := c.count3T + tmp2.toNat
    countOther := c.countOther + (!(tmp0 || tmp1 || tmp2)).toNat }

/-- The chain of branches that stands in the comment. -/
def chainStep (T : ℚ) (c : HarmonicCounts) (iv : ℚ) : HarmonicCounts :=
  if iv ≥ T * 0.85 ∧ iv ≤ T * 1.15 then { c with count1T := c.count1T + 1 }
  else if iv ≥ T * 1.85 ∧ iv ≤ T * 2.15 then { c with count2T := c.count2T + 1 }
  else if iv ≥ T * 2.85 ∧ iv ≤ T * 3.15 then { c with count3T := c.count3T + 1 }
  else { c with countOther := c.countOther + 1 }

def harmonicBinning (T : ℚ) (intervals : List ℚ) : HarmonicCounts :=
  intervals.foldl (harmonicStep T) .zero

def chainBinning (T : ℚ) (intervals : List ℚ) : HarmonicCounts :=
  intervals.foldl (chainStep T) .zero

def histBins : ℕ := 200

structure IntervalHistogram where
  hist : List ℕ
  histTotal : ℕ
  deriving DecidableEq, Repr

/-- The conversion of a `double` to `int` drops the fraction. -/
def truncate (x : ℚ) : ℤ := if 0 ≤ x then ⌊x⌋ else ⌈x⌉

def binLo (T : ℚ) : ℚ := T * 0.5

def binHi (T : ℚ) : ℚ := T * 1.5

def binWidth (T : ℚ) : ℚ := (binHi T - binLo T) / histBins

def histogramStep (T : ℚ) (h : IntervalHistogram) (iv : ℚ) : IntervalHistogram :=
  if iv ≥ binLo T ∧ iv < binHi T then
    let bin := truncate ((iv - binLo T) / binWidth T)
    if bin ≥ 0 ∧ bin < histBins then ⟨increment h.hist bin.toNat, h.histTotal + 1⟩
    else h
  else h

def histogram (T : ℚ) (intervals : List ℚ) : IntervalHistogram :=
  intervals.foldl (histogramStep T) ⟨List.replicate histBins 0, 0⟩

/-- `peak_bin` and `peak_count` -/
def peak (hist : List ℕ) : ℕ × ℕ :=
  (List.range histBins).foldl (fun s b =>
    if hist.getD b 0 > s.2 then (b, hist.getD b 0) else s) (0, 0)

/-- Every interval is counted once, by the counters as by the histogram. -/
structure CountsOnce (T : ℚ) (intervals : List ℚ) : Prop where
  counters : (harmonicBinning T intervals).count1T + (harmonicBinning T intervals).count2T +
    (harmonicBinning T intervals).count3T + (harmonicBinning T intervals).countOther =
      intervals.length
  chain : harmonicBinning T intervals = chainBinning T intervals
  hist : (histogram T intervals).hist.sum = (histogram T intervals).histTotal
  total : (histogram T intervals).histTotal =
    intervals.countP (fun iv => T * 0.5 ≤ iv ∧ iv < T * 1.5)
  peakBin : FirstMaximum (fun b => (histogram T intervals).hist.getD b 0)
    (histogram T intervals).hist.length (peak (histogram T intervals).hist).1
  peakCount : (peak (histogram T intervals).hist).2 =
    (histogram T intervals).hist.getD (peak (histogram T intervals).hist).1 0

variable {T iv : ℚ} {intervals : List ℚ} {c : HarmonicCounts} {h : IntervalHistogram}

theorem within_iff {lo hi : ℚ} : within T lo hi iv = true ↔ T * lo ≤ iv ∧ iv ≤ T * hi :=
  decide_eq_true_iff

theorem within_eq_false_iff {lo hi : ℚ} :
    within T lo hi iv = false ↔ ¬ (T * lo ≤ iv ∧ iv ≤ T * hi) := decide_eq_false_iff_not

/-- The windows of a positive period do not overlap, so the first test that succeeds is the only
one. -/
theorem harmonicStep_eq_chainStep (hT : 0 < T) (c : HarmonicCounts) (iv : ℚ) :
    harmonicStep T c iv = chainStep T c iv := by
  unfold harmonicStep chainStep
  by_cases h0 : T * 0.85 ≤ iv ∧ iv ≤ T * 1.15
  · have h1 : within T 1.85 2.15 iv = false :=
      within_eq_false_iff.mpr (fun h1 => by linarith [h0.2, h1.1])
    have h2 : within T 2.85 3.15 iv = false :=
      within_eq_false_iff.mpr (fun h2 => by linarith [h0.2, h2.1])
    simp [within_iff.mpr h0, h1, h2, h0]
  · have h0' := within_eq_false_iff.mpr h0
    by_cases h1 : T * 1.85 ≤ iv ∧ iv ≤ T * 2.15
    · have h2 : within T 2.85 3.15 iv = false :=
        within_eq_false_iff.mpr (fun h2 => by linarith [h1.2, h2.1])
      simp [h0', within_iff.mpr h1, h2, h0, h1]
    · have h1' := within_eq_false_iff.mpr h1
      by_cases h2 : T * 2.85 ≤ iv ∧ iv ≤ T * 3.15
      · simp [h0', h1', within_iff.mpr h2, h0, h1, h2]
      · have h2' := within_eq_false_iff.mpr h2
        simp [h0', h1', h2', h0, h1, h2]

theorem harmonicBinning_eq_chainBinning (hT : 0 < T) (intervals : List ℚ) :
    harmonicBinning T intervals = chainBinning T intervals := by
  have hstep : harmonicStep T = chainStep T :=
    funext fun c => funext fun iv => harmonicStep_eq_chainStep hT c iv
  rw [harmonicBinning, hstep]
  rfl

def HarmonicCounts.sum (c : HarmonicCounts) : ℕ := c.count1T + c.count2T + c.count3T + c.countOther

theorem sum_chainStep (T : ℚ) (c : HarmonicCounts) (iv : ℚ) :
    (chainStep T c iv).sum = c.sum + 1 := by
  simp only [chainStep, HarmonicCounts.sum]
  split_ifs <;> simp only <;> omega

theorem sum_chainBinning (T : ℚ) (intervals : List ℚ) :
    (chainBinning T intervals).sum = intervals.length := by
  have hgeneral : ∀ c, (intervals.foldl (chainStep T) c).sum = c.sum + intervals.length := by
    induction intervals with
    | nil => intro c; rfl
    | cons iv intervals ih =>
      intro c
      rw [List.foldl_cons, ih, sum_chainStep, List.length_cons]
      omega
  rw [chainBinning, hgeneral]
  exact Nat.zero_add _

theorem binWidth_pos (hT : 0 < T) : 0 < binWidth T := by
  unfold binWidth binHi binLo histBins
  norm_num
  linarith

/-- An interval of the window has a bin in the table. -/
theorem bin_lt (hT : 0 < T) (hiv : iv ≥ binLo T ∧ iv < binHi T) :
    0 ≤ truncate ((iv - binLo T) / binWidth T) ∧
      truncate ((iv - binLo T) / binWidth T) < histBins := by
  have hw := binWidth_pos hT
  have hnonneg : 0 ≤ (iv - binLo T) / binWidth T :=
    div_nonneg (by linarith [hiv.1]) hw.le
  have hlt : (iv - binLo T) / binWidth T < histBins := by
    rw [div_lt_iff₀ hw, binWidth, mul_div_cancel₀]
    · linarith [hiv.2]
    · norm_num [histBins]
  rw [truncate, if_pos hnonneg]
  exact ⟨Int.floor_nonneg.mpr hnonneg, Int.floor_lt.mpr (by exact_mod_cast hlt)⟩

theorem histogramStep_of_window (hT : 0 < T) (hiv : iv ≥ binLo T ∧ iv < binHi T) :
    histogramStep T h iv = ⟨increment h.hist (truncate ((iv - binLo T) / binWidth T)).toNat,
      h.histTotal + 1⟩ := by
  simp only [histogramStep, if_pos hiv]
  exact if_pos (bin_lt hT hiv)

/-- What the loop keeps, when so many intervals of the window have come. -/
structure Tallied (h : IntervalHistogram) (n : ℕ) : Prop where
  length : h.hist.length = histBins
  sum : h.hist.sum = h.histTotal
  total : h.histTotal = n

theorem tallied_histogram (hT : 0 < T) (intervals : List ℚ) :
    Tallied (histogram T intervals)
      (intervals.countP (fun iv => T * 0.5 ≤ iv ∧ iv < T * 1.5)) := by
  have hgeneral : ∀ h n, Tallied h n → Tallied (intervals.foldl (histogramStep T) h)
      (n + intervals.countP (fun iv => T * 0.5 ≤ iv ∧ iv < T * 1.5)) := by
    induction intervals with
    | nil => intro h n ht; exact ht
    | cons iv intervals ih =>
      intro h n ht
      rw [List.foldl_cons, List.countP_cons, Nat.add_comm (intervals.countP _), ← Nat.add_assoc]
      apply ih
      by_cases hiv : iv ≥ binLo T ∧ iv < binHi T
      · obtain ⟨hnonneg, hlt⟩ := bin_lt hT hiv
        have hbin : (truncate ((iv - binLo T) / binWidth T)).toNat < h.hist.length := by
          rw [ht.length]
          omega
        have hone : decide (T * 0.5 ≤ iv ∧ iv < T * 1.5) = true := decide_eq_true hiv
        rw [histogramStep_of_window hT hiv, hone, if_pos rfl]
        refine ⟨length_increment.trans ht.length, ?_, ?_⟩
        · rw [sum_increment hbin, ht.sum]
        · change h.histTotal + 1 = n + 1
          rw [ht.total]
      · have hzero : decide (T * 0.5 ≤ iv ∧ iv < T * 1.5) = false := decide_eq_false hiv
        rw [histogramStep, if_neg hiv, hzero, if_neg Bool.false_ne_true]
        exact ht
  have hstart : Tallied ⟨List.replicate histBins 0, 0⟩ 0 :=
    ⟨List.length_replicate, by simp, rfl⟩
  have hend := hgeneral _ _ hstart
  rwa [Nat.zero_add] at hend

/-- For every list of intervals and every positive period. -/
theorem trefi_countsOnce (hT : 0 < T) (intervals : List ℚ) : CountsOnce T intervals := by
  have ht := tallied_histogram hT intervals
  have hpeak := firstMaximum_raise (fun b => (histogram T intervals).hist.getD b 0)
    (n := histBins) (by decide)
  have hchain := harmonicBinning_eq_chainBinning hT intervals
  have hsum := sum_chainBinning T intervals
  rw [← hchain] at hsum
  exact ⟨hsum, hchain, ht.sum, ht.total, ht.length.symm ▸ hpeak.1, hpeak.2⟩

/-- A period of 100 cycles, two intervals near it, one near its double and one nowhere. -/
theorem trefi_countsOnce_hundred : CountsOnce 100 [99, 104, 210, 160] :=
  trefi_countsOnce (by norm_num) _

/-- Every interval near the period itself is in the histogram. -/
theorem count1T_le_histTotal (hT : 0 < T) (intervals : List ℚ) :
    (harmonicBinning T intervals).count1T ≤ (histogram T intervals).histTotal := by
  have hgeneral : ∀ c : HarmonicCounts, (intervals.foldl (harmonicStep T) c).count1T ≤
      c.count1T + intervals.countP (fun iv => T * 0.5 ≤ iv ∧ iv < T * 1.5) := by
    induction intervals with
    | nil => intro c; exact Nat.le_refl _
    | cons iv intervals ih =>
      intro c
      have hrest := ih (harmonicStep T c iv)
      have hstep : (harmonicStep T c iv).count1T ≤
          c.count1T + if decide (T * 0.5 ≤ iv ∧ iv < T * 1.5) then 1 else 0 := by
        change c.count1T + (within T 0.85 1.15 iv).toNat ≤ _
        by_cases h0 : T * 0.85 ≤ iv ∧ iv ≤ T * 1.15
        · have hwindow : T * 0.5 ≤ iv ∧ iv < T * 1.5 :=
            ⟨by linarith [h0.1], by linarith [h0.2]⟩
          simp [within_iff.mpr h0, hwindow]
        · have hfalse := within_eq_false_iff.mpr h0
          simp [hfalse]
      rw [List.foldl_cons, List.countP_cons]
      omega
  have hstart := hgeneral .zero
  rw [(tallied_histogram hT intervals).total]
  exact hstart.trans (Nat.zero_add _).le

end Tailslayer.Probe
