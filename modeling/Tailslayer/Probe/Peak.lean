import Tailslayer.Probe.Detection

/-! The peak of the interval histogram of `trefi_probe.cpp`, and how close it is to the period that
the memory really has. -/
namespace Tailslayer.Probe

open Binary64 Double Histogram

/-- With fewer than ten spikes there is no analysis. -/
def Recording.peakReport (T : ℚ) (s : Recording) : Option PeakReport :=
  if s.nSpikes < 10 then none
  else some (Double.peakReport T (Double.histogram T (intervalsOf (s.recorded.map Spike.tsc))))

namespace Double

variable {T P δ phase iv : ℚ} {intervals : List ℚ}

theorem abs_binLo_sub_le (hT : 1 ≤ T) : |binLo T - T / 2| ≤ T / 2 ^ 53 := by
  have h := abs_fl_sub_le (x := T * 0.5) hT (by rw [abs_of_nonneg (by linarith)]; linarith)
  have hhalf : T * 0.5 = T / 2 := by ring
  rw [hhalf] at h
  rwa [binLo, hhalf]

theorem abs_binHi_sub_le (hT : 1 ≤ T) : |binHi T - 3 * T / 2| ≤ 2 * T / 2 ^ 53 := by
  have h := abs_fl_sub_le (x := T * 1.5) (B := 2 * T) (by linarith)
    (by rw [abs_of_nonneg (by linarith)]; linarith)
  have hhalf : T * 1.5 = 3 * T / 2 := by ring
  rw [hhalf] at h
  rwa [binHi, hhalf]

/-- The bins are a two hundredth of the period wide, up to one part in `2 ^ 42`. -/
theorem abs_binWidth_sub_le (hT : 1 ≤ T) : |binWidth T - T / 200| ≤ T / 2 ^ 50 := by
  obtain ⟨hlo1, hlo2⟩ := abs_le.mp (abs_binLo_sub_le hT)
  obtain ⟨hhi1, hhi2⟩ := abs_le.mp (abs_binHi_sub_le hT)
  have hdiff : |fl (binHi T - binLo T) - (binHi T - binLo T)| ≤ 2 * T / 2 ^ 53 :=
    abs_fl_sub_le (by linarith) (abs_le.mpr ⟨by linarith, by linarith⟩)
  obtain ⟨hdiff1, hdiff2⟩ := abs_le.mp hdiff
  have hquotient : |binWidth T - fl (binHi T - binLo T) / histBins| ≤ T / 2 ^ 53 := by
    apply abs_fl_sub_le hT
    norm_num [histBins, abs_le]
    constructor <;> linarith
  norm_num [histBins] at hquotient
  obtain ⟨hq1, hq2⟩ := abs_le.mp hquotient
  rw [abs_le]
  constructor <;> linarith

/-- The place of an interval in the window, in bins. -/
def place (T iv : ℚ) : ℚ := 200 * iv / T - 100

theorem eq_of_place (iv : ℚ) (hT : 0 < T) : iv = T / 2 + place T iv * (T / 200) := by
  rw [place]
  field_simp
  ring

theorem le_place_iff {x : ℚ} (hT : 0 < T) : x ≤ place T iv ↔ (x + 100) * T ≤ 200 * iv := by
  rw [place, le_sub_iff_add_le, le_div_iff₀ hT]

theorem place_le_iff {x : ℚ} (hT : 0 < T) : place T iv ≤ x ↔ 200 * iv ≤ (x + 100) * T := by
  rw [place, sub_le_iff_le_add, div_le_iff₀ hT]

/-- Its bin is computed from a number that is close. -/
theorem abs_position_sub_le (hT : 1 ≤ T) (hlo : T / 2 ≤ iv) (hhi : iv ≤ 3 * T / 2) :
    |position T iv - place T iv| ≤ 1 / 10 ^ 6 := by
  have hpos : 0 < T := by linarith
  obtain ⟨hlo1, hlo2⟩ := abs_le.mp (abs_binLo_sub_le hT)
  obtain ⟨hw1, hw2⟩ := abs_le.mp (abs_binWidth_sub_le hT)
  have hw : 0 < binWidth T := by linarith
  have hdiff : |fl (iv - binLo T) - (iv - binLo T)| ≤ 2 * T / 2 ^ 53 :=
    abs_fl_sub_le (by linarith) (abs_le.mpr ⟨by linarith, by linarith⟩)
  obtain ⟨hdiff1, hdiff2⟩ := abs_le.mp hdiff
  have hplace := eq_of_place iv hpos
  have hplace0 : 0 ≤ place T iv := (le_place_iff hpos).mpr (by linarith)
  have hplace200 : place T iv ≤ 200 := (place_le_iff hpos).mpr (by linarith)
  -- the quotient before its rounding
  have hupper : fl (iv - binLo T) / binWidth T ≤ place T iv + 1 / 10 ^ 7 := by
    rw [div_le_iff₀ hw]
    have hscale : (place T iv + 1 / 10 ^ 7) * (T / 200 - T / 2 ^ 50) ≤
        (place T iv + 1 / 10 ^ 7) * binWidth T :=
      mul_le_mul_of_nonneg_left (by linarith) (by linarith)
    have herror := mul_le_mul_of_nonneg_right hplace200 hpos.le
    linarith
  have hlower : place T iv - 1 / 10 ^ 7 ≤ fl (iv - binLo T) / binWidth T := by
    rw [le_div_iff₀ hw]
    have hscale : place T iv * binWidth T ≤ place T iv * (T / 200 + T / 2 ^ 50) :=
      mul_le_mul_of_nonneg_left (by linarith) hplace0
    have herror := mul_le_mul_of_nonneg_right hplace200 hpos.le
    linarith
  have hround : |position T iv - fl (iv - binLo T) / binWidth T| ≤ 201 / 2 ^ 53 :=
    abs_fl_sub_le (by norm_num) (abs_le.mpr ⟨by linarith, by linarith⟩)
  obtain ⟨hround1, hround2⟩ := abs_le.mp hround
  rw [abs_le]
  constructor <;> linarith

/-- `iv >= bin_lo && iv < bin_hi && bin >= 0 && bin < hist_bins` -/
def inWindow (T iv : ℚ) : Bool :=
  iv ≥ binLo T ∧ iv < binHi T ∧ truncate (position T iv) ≥ 0 ∧ truncate (position T iv) < histBins

def binOf (T iv : ℚ) : ℕ := (truncate (position T iv)).toNat

theorem histogramStep_eq (T : ℚ) (h : IntervalHistogram) (iv : ℚ) : histogramStep T h iv =
    if inWindow T iv = true then ⟨increment h.hist (binOf T iv), h.histTotal + 1⟩ else h := by
  by_cases hwindow : iv ≥ binLo T ∧ iv < binHi T
  · by_cases hbin : truncate (position T iv) ≥ 0 ∧ truncate (position T iv) < histBins
    · have hin : inWindow T iv = true := decide_eq_true ⟨hwindow.1, hwindow.2, hbin⟩
      simp only [histogramStep, if_pos hwindow, if_pos hbin, if_pos hin, binOf]
    · have hout : inWindow T iv = false := decide_eq_false fun h => hbin h.2.2
      simp only [histogramStep, if_pos hwindow, if_neg hbin, hout, Bool.false_eq_true, if_false]
  · have hout : inWindow T iv = false := decide_eq_false fun h => hwindow ⟨h.1, h.2.1⟩
    simp only [histogramStep, if_neg hwindow, hout, Bool.false_eq_true, if_false]

theorem binOf_lt (h : inWindow T iv = true) : binOf T iv < histBins := by
  obtain ⟨-, -, hge, hlt⟩ := of_decide_eq_true h
  rw [binOf]
  omega

/-- An interval well inside the window is counted, in a bin that its place gives. -/
theorem inWindow_of_place (hT : 1 ≤ T) (hlo : 0.51 * T ≤ iv) (hhi : iv ≤ 1.49 * T) :
    inWindow T iv = true ∧ binOf T iv ≤ place T iv + 1 / 10 ^ 6 ∧
      place T iv - 1 / 10 ^ 6 < binOf T iv + 1 := by
  have hpos : 0 < T := by linarith
  obtain ⟨hlo1, hlo2⟩ := abs_le.mp (abs_binLo_sub_le hT)
  obtain ⟨hhi1, hhi2⟩ := abs_le.mp (abs_binHi_sub_le hT)
  have hposition : |position T iv - place T iv| ≤ 1 / 10 ^ 6 :=
    abs_position_sub_le hT (by linarith) (by linarith)
  obtain ⟨hp1, hp2⟩ := abs_le.mp hposition
  have hplace2 : 2 ≤ place T iv := (le_place_iff hpos).mpr (by linarith)
  have hplace198 : place T iv ≤ 198 := (place_le_iff hpos).mpr (by linarith)
  have hnonneg : 0 ≤ position T iv := by linarith
  have htruncate : truncate (position T iv) = ⌊position T iv⌋ := if_pos hnonneg
  have hfloor0 : 0 ≤ ⌊position T iv⌋ := Int.floor_nonneg.mpr hnonneg
  have hfloor200 : ⌊position T iv⌋ < histBins := by
    rw [Int.floor_lt]
    norm_num [histBins]
    linarith
  have hbin : (binOf T iv : ℚ) = (⌊position T iv⌋ : ℤ) := by
    rw [binOf, htruncate]
    exact_mod_cast Int.toNat_of_nonneg hfloor0
  refine ⟨decide_eq_true ⟨by linarith, by linarith, ?_, ?_⟩, ?_, ?_⟩
  · rw [htruncate]
    exact hfloor0
  · rw [htruncate]
    exact hfloor200
  · rw [hbin]
    have hfloor := Int.floor_le (position T iv)
    linarith
  · rw [hbin]
    have hfloor := Int.lt_floor_add_one (position T iv)
    linarith

theorem length_histogram (T : ℚ) (intervals : List ℚ) :
    (histogram T intervals).hist.length = histBins := by
  induction intervals using List.reverseRecOn with
  | nil => exact List.length_replicate
  | append_singleton intervals iv ih =>
    rw [histogram, List.foldl_append, List.foldl_cons, List.foldl_nil, histogramStep_eq]
    split_ifs
    · exact length_increment.trans ih
    · exact ih

/-- Every counter holds the number of the intervals in its bin. -/
theorem getD_histogram (T : ℚ) (intervals : List ℚ) (b : ℕ) (hb : b < histBins) :
    (histogram T intervals).hist.getD b 0 =
      intervals.countP (fun iv => inWindow T iv && binOf T iv = b) := by
  induction intervals using List.reverseRecOn with
  | nil =>
    rw [histogram, List.foldl_nil, List.getD_eq_getElem, List.getElem_replicate]
    · rfl
    · rwa [List.length_replicate]
  | append_singleton intervals iv ih =>
    have hlen := length_histogram T intervals
    have hstep : histogram T (intervals ++ [iv]) = histogramStep T (histogram T intervals) iv := by
      rw [histogram, List.foldl_append]
      rfl
    rw [hstep, List.countP_append, List.countP_singleton, ← ih, histogramStep_eq]
    cases hiv : inWindow T iv with
    | true =>
      have hbin := binOf_lt hiv
      rw [if_pos rfl, Bool.true_and]
      refine (getD_increment (hlen ▸ hbin) b).trans ?_
      simp only [decide_eq_true_eq]
    | false =>
      rw [if_neg Bool.false_ne_true, Bool.false_and, if_neg Bool.false_ne_true, Nat.add_zero]

theorem abs_peakCyc_sub_le {h : IntervalHistogram} {b : ℕ} (hT : 1 ≤ T) (hb : (peak h.hist).1 = b)
    (hlt : b < histBins) : |peakCyc T h - (T / 2 + (b + 0.5) * (T / 200))| ≤ T / 2 ^ 40 := by
  have hb200 : (b : ℚ) + 1 ≤ 200 := by exact_mod_cast hlt
  have hb0 : (0 : ℚ) ≤ b := Nat.cast_nonneg b
  obtain ⟨hlo1, hlo2⟩ := abs_le.mp (abs_binLo_sub_le hT)
  obtain ⟨hw1, hw2⟩ := abs_le.mp (abs_binWidth_sub_le hT)
  have hmiddle : |fl (b + 0.5) - (b + 0.5)| ≤ 200 / 2 ^ 53 :=
    abs_fl_sub_le (by norm_num) (abs_le.mpr ⟨by linarith, by linarith⟩)
  obtain ⟨hmiddle1, hmiddle2⟩ := abs_le.mp hmiddle
  have hexact : |fl (b + 0.5) * binWidth T - (b + 0.5) * (T / 200)| ≤ T / 2 ^ 41 := by
    have hsplit : fl (b + 0.5) * binWidth T - (b + 0.5) * (T / 200) =
        (fl (b + 0.5) - (b + 0.5)) * binWidth T + (b + 0.5) * (binWidth T - T / 200) := by ring
    have hfirst : |(fl (b + 0.5) - (b + 0.5)) * binWidth T| ≤ 200 / 2 ^ 53 * T := by
      rw [abs_mul]
      exact mul_le_mul hmiddle (abs_le.mpr ⟨by linarith, by linarith⟩) (abs_nonneg _) (by norm_num)
    have hsecond : |((b : ℚ) + 0.5) * (binWidth T - T / 200)| ≤ 200 * (T / 2 ^ 50) := by
      rw [abs_mul]
      exact mul_le_mul (abs_le.mpr ⟨by linarith, by linarith⟩) (abs_binWidth_sub_le hT)
        (abs_nonneg _) (by norm_num)
    have hsum := abs_add_le ((fl (b + 0.5) - (b + 0.5)) * binWidth T)
      ((b + 0.5) * (binWidth T - T / 200))
    rw [hsplit]
    linarith
  have hplace : ((b : ℚ) + 0.5) * (T / 200) ≤ T := by
    have hscale := mul_le_mul_of_nonneg_right hb200 (by linarith : (0 : ℚ) ≤ T / 200)
    linarith
  have hplace0 : 0 ≤ ((b : ℚ) + 0.5) * (T / 200) := by positivity
  obtain ⟨hexact1, hexact2⟩ := abs_le.mp hexact
  have hproduct : |fl (fl (b + 0.5) * binWidth T) - fl (b + 0.5) * binWidth T| ≤ 2 * T / 2 ^ 53 :=
    abs_fl_sub_le (by linarith) (abs_le.mpr ⟨by linarith, by linarith⟩)
  obtain ⟨hproduct1, hproduct2⟩ := abs_le.mp hproduct
  have hsum : |peakCyc T h - (binLo T + fl (fl (b + 0.5) * binWidth T))| ≤ 4 * T / 2 ^ 53 := by
    rw [peakCyc, hb]
    exact abs_fl_sub_le (by linarith) (abs_le.mpr ⟨by linarith, by linarith⟩)
  obtain ⟨hsum1, hsum2⟩ := abs_le.mp hsum
  rw [abs_le]
  constructor <;> linarith

def near (P ε iv : ℚ) : Bool := |iv - P| ≤ ε

theorem inWindow_of_near {ε : ℚ} (hT : 1 ≤ T) (hlo : 0.51 * T ≤ P - ε) (hhi : P + ε ≤ 1.49 * T)
    (hiv : near P ε iv) : inWindow T iv = true ∧ binOf T iv ≤ place T iv + 1 / 10 ^ 6 ∧
      place T iv - 1 / 10 ^ 6 < binOf T iv + 1 := by
  obtain ⟨h1, h2⟩ := abs_le.mp (of_decide_eq_true hiv)
  exact inWindow_of_place hT (by linarith) (by linarith)

/-- The first of the bins that an interval near `P` may fall into. -/
def firstBin (T P ε : ℚ) : ℕ := ⌊place T (P - ε) - 1 / 10 ^ 6⌋.toNat

/-- The intervals near a period fall into `m + 1` neighbouring bins. -/
theorem bins_of_near {ε : ℚ} {m : ℕ} (hT : 1 ≤ T) (hε : 0 ≤ ε) (hlo : 0.51 * T ≤ P - ε)
    (hhi : P + ε ≤ 1.49 * T) (hspread : 400 * ε < m * (0.999 * T)) (hiv : near P ε iv) :
    firstBin T P ε ≤ binOf T iv ∧ binOf T iv < firstBin T P ε + (m + 1) := by
  have hpos : 0 < T := by linarith
  obtain ⟨h1, h2⟩ := abs_le.mp (of_decide_eq_true hiv)
  obtain ⟨-, hbin1, hbin2⟩ := inWindow_of_near hT hlo hhi hiv
  have hm : (1 : ℚ) ≤ m := by
    have hm0 : m ≠ 0 := by
      rintro rfl
      push_cast at hspread
      linarith
    exact_mod_cast Nat.one_le_iff_ne_zero.mpr hm0
  have hfirst : place T (P - ε) ≤ place T iv := by
    rw [place, place]
    gcongr
    linarith
  have hlast : place T iv < place T (P - ε) + m * 0.999 := by
    have hdiff : place T iv - place T (P - ε) = 200 * (iv - (P - ε)) / T := by
      rw [place, place]
      ring
    have hlt : 200 * (iv - (P - ε)) / T < m * 0.999 := by
      rw [div_lt_iff₀ hpos]
      linarith
    linarith
  have hnonneg : 0 ≤ place T (P - ε) - 1 / 10 ^ 6 := by
    have htwo : 2 ≤ place T (P - ε) := (le_place_iff hpos).mpr (by linarith)
    linarith
  have hfloor := Int.floor_le (place T (P - ε) - 1 / 10 ^ 6)
  have hfloor' := Int.lt_floor_add_one (place T (P - ε) - 1 / 10 ^ 6)
  have hfloor0 := Int.floor_nonneg.mpr hnonneg
  have hlower : (⌊place T (P - ε) - 1 / 10 ^ 6⌋ : ℚ) < ((binOf T iv : ℤ) + 1 : ℤ) := by
    push_cast
    linarith
  have hupper : (((binOf T iv : ℕ) : ℤ) : ℚ) <
      ((⌊place T (P - ε) - 1 / 10 ^ 6⌋ + 1 + m : ℤ) : ℚ) := by
    push_cast
    linarith
  have hlower' := Int.cast_lt.mp hlower
  have hupper' := Int.cast_lt.mp hupper
  rw [firstBin]
  omega

/-- The peak is near any interval of its bin. -/
theorem abs_peakCyc_sub_near_le {ε : ℚ} (hT : 1 ≤ T) (hlo : 0.51 * T ≤ P - ε)
    (hhi : P + ε ≤ 1.49 * T) (hiv : near P ε iv)
    (hbin : binOf T iv = (peak (histogram T intervals).hist).1) :
    |peakCyc T (histogram T intervals) - P| ≤ ε + T / 400 + T / 10 ^ 8 := by
  have hpos : 0 < T := by linarith
  obtain ⟨h1, h2⟩ := abs_le.mp (of_decide_eq_true hiv)
  obtain ⟨hin, hbin1, hbin2⟩ := inWindow_of_near hT hlo hhi hiv
  have hpeak := abs_peakCyc_sub_le (h := histogram T intervals) hT hbin.symm (binOf_lt hin)
  obtain ⟨hpeak1, hpeak2⟩ := abs_le.mp hpeak
  have hplace := eq_of_place iv hpos
  have hle := mul_le_mul_of_nonneg_right hbin1 (by linarith : 0 ≤ T / 200)
  have hge := mul_le_mul_of_nonneg_right hbin2.le (by linarith : 0 ≤ T / 200)
  rw [abs_le]
  constructor <;> linarith

/-- If the intervals near a period outnumber the others as many times as they have bins, then the
peak is near the period, and its count is at least their share. -/
theorem peak_near {ε : ℚ} {m : ℕ} (hT : 1 ≤ T) (hε : 0 ≤ ε) (hlo : 0.51 * T ≤ P - ε)
    (hhi : P + ε ≤ 1.49 * T) (hspread : 400 * ε < m * (0.999 * T))
    (hmost : (m + 1) * intervals.countP (fun iv => !near P ε iv) < intervals.countP (near P ε)) :
    |peakCyc T (histogram T intervals) - P| ≤ ε + T / 400 + T / 10 ^ 8 ∧
      intervals.countP (near P ε) ≤ (m + 1) * (peak (histogram T intervals).hist).2 := by
  obtain ⟨hmax, hcount⟩ := firstMaximum_raise (fun b => (histogram T intervals).hist.getD b 0)
    (n := histBins) (by decide)
  have hwindow : ∀ iv ∈ intervals, near P ε iv → inWindow T iv = true ∧ binOf T iv < histBins := by
    intro iv _ hiv
    obtain ⟨hin, -⟩ := inWindow_of_near hT hlo hhi hiv
    exact ⟨hin, binOf_lt hin⟩
  have hall := countP_le_of_firstMaximum hmax (getD_histogram T intervals) hwindow
    (fun iv _ hiv => bins_of_near hT hε hlo hhi hspread hiv)
  obtain ⟨iv, -, hiv, -, hbin⟩ :=
    exists_of_firstMaximum hmax (getD_histogram T intervals) hall hmost
  exact ⟨abs_peakCyc_sub_near_le hT hlo hhi hiv hbin, hcount ▸ hall⟩

/-- The deviation errs by no more than the peak does, and its rounding. -/
theorem deviation_near {h : IntervalHistogram} {ε : ℚ} (hT : 1 ≤ T) (hε : ε ≤ T)
    (hpeak : |peakCyc T h - P| ≤ ε) (hP0 : 0 ≤ P) (hP : P ≤ 2 * T) :
    |(peakReport T h).deviation - |P - T| / T * 100| ≤ ε / T * 100 + 1 / 10 ^ 8 := by
  have hpos : 0 < T := by linarith
  obtain ⟨hpeak1, hpeak2⟩ := abs_le.mp hpeak
  have hdiff : |fl (peakCyc T h - T) - (peakCyc T h - T)| ≤ 4 * T / 2 ^ 53 :=
    abs_fl_sub_le (by linarith) (abs_le.mpr ⟨by linarith, by linarith⟩)
  have hdist : |(|fl (peakCyc T h - T)|) - (|P - T|)| ≤ ε + 4 * T / 2 ^ 53 := by
    refine (abs_abs_sub_abs_le _ _).trans ?_
    have htriangle := abs_sub_le (fl (peakCyc T h - T)) (peakCyc T h - T) (P - T)
    rw [sub_sub_sub_cancel_right] at htriangle
    linarith
  have hlarge : |P - T| ≤ T := abs_le.mpr ⟨by linarith, by linarith⟩
  obtain ⟨hdist1, hdist2⟩ := abs_le.mp hdist
  have hquotient3 : |fl (peakCyc T h - T)| / T ≤ 3 := by
    rw [div_le_iff₀ hpos]
    linarith
  have hquotient0 : 0 ≤ |fl (peakCyc T h - T)| / T := by positivity
  have hquotient : |fl (|fl (peakCyc T h - T)| / T) - |fl (peakCyc T h - T)| / T| ≤ 3 / 2 ^ 53 :=
    abs_fl_sub_le (by norm_num) (abs_le.mpr ⟨by linarith, hquotient3⟩)
  obtain ⟨hquotient1, hquotient2⟩ := abs_le.mp hquotient
  have hpercent : |(peakReport T h).deviation - fl (|fl (peakCyc T h - T)| / T) * 100| ≤
      400 / 2 ^ 53 :=
    abs_fl_sub_le (by norm_num) (abs_le.mpr ⟨by linarith, by linarith⟩)
  obtain ⟨hpercent1, hpercent2⟩ := abs_le.mp hpercent
  have hscaled : |(|fl (peakCyc T h - T)| / T) - (|P - T| / T)| ≤ ε / T + 4 / 2 ^ 53 := by
    rw [← sub_div, abs_div, abs_of_pos hpos, div_le_iff₀ hpos, add_mul, div_mul_cancel₀ _ hpos.ne']
    linarith
  obtain ⟨hscaled1, hscaled2⟩ := abs_le.mp hscaled
  rw [abs_le]
  constructor <;> linarith

end Double

/-! The peak of what was recorded. -/

variable {T P δ phase : ℚ} {threshold : UInt64} {probes : List (UInt64 × UInt64)}

/-- Spikes that come from one refresh and the next. -/
def consecutive (e : (UInt64 × Option ℕ) × (UInt64 × Option ℕ)) : Bool :=
  match e.1.2, e.2.2 with
  | some k, some k' => k' = k + 1
  | _, _ => false

theorem near_of_consecutive {seen : List (UInt64 × Option ℕ)} {B : ℚ} (hB : 1 ≤ B)
    (hclose : ∀ t k, (t, some k) ∈ seen → |(t.toNat : ℚ) - (phase + k * P)| ≤ δ)
    (hpos : 2 * δ < P) (hle : P + 2 * δ ≤ B) : ∀ e ∈ seen.zip seen.tail, consecutive e = true →
      near P (2 * δ + B / 2 ^ 53) (fl (e.2.1 - e.1.1).toNat) = true := by
  rintro ⟨⟨t, k⟩, t', k'⟩ hmem hnext
  obtain ⟨hin, hin'⟩ := List.of_mem_zip hmem
  cases k with
  | none => cases hnext
  | some k =>
    cases k' with
    | none => cases hnext
    | some k' =>
      cases of_decide_eq_true hnext
      have hnear := interval_near (d := 1) (hclose t k hin)
        (hclose t' (k + 1) (List.mem_of_mem_tail hin')) (by rwa [Nat.cast_one, one_mul])
      rw [Nat.cast_one, one_mul] at hnear
      obtain ⟨hlo, hhi⟩ := abs_le.mp hnear
      have hround : |fl (t' - t).toNat - (t' - t).toNat| ≤ B / 2 ^ 53 :=
        abs_fl_sub_le hB (abs_le.mpr ⟨by linarith, by linarith⟩)
      have htriangle := abs_sub_le (fl (t' - t).toNat) (t' - t).toNat P
      exact decide_eq_true (by linarith)

/-- The intervals near the period are at least those between consecutive refreshes. -/
theorem countP_near_of_consecutive {seen : List (UInt64 × Option ℕ)} {ε : ℚ}
    (hnear : ∀ e ∈ seen.zip seen.tail, consecutive e = true →
      near P ε (fl (e.2.1 - e.1.1).toNat) = true) :
    (intervalsOf (seen.map Prod.fst)).countP (fun iv => !near P ε iv) ≤
        (seen.zip seen.tail).countP (fun e => !consecutive e) ∧
      (seen.zip seen.tail).countP consecutive ≤
        (intervalsOf (seen.map Prod.fst)).countP (near P ε) := by
  rw [intervalsOf_map_fst, List.countP_map, List.countP_map]
  refine ⟨List.countP_mono_left fun e hmem hfar => ?_, List.countP_mono_left hnear⟩
  cases hnext : consecutive e with
  | false => rfl
  | true =>
    rw [Function.comp_apply, hnear e hmem hnext] at hfar
    cases hfar

/-- The probe measures the period `P` of the refreshes, whatever it expected: each spike of a
refresh is within `δ` of a multiple of `P`, and the intervals from one refresh to the next, which
fall into `m + 1` bins, outnumber the other intervals as many times. The bins are a two hundredth
of `T` wide; what the peak is off by more than half of one is room for the rounding. -/
theorem peak_of_refreshes (phase : ℚ) (seen : List (UInt64 × Option ℕ)) (m : ℕ) (hT : 1 ≤ T)
    (hseen : seen.map Prod.fst = ((above threshold probes).take kMAX_SPIKES).map Spike.tsc)
    (hδ : 0 ≤ δ) (hclose : ∀ t k, (t, some k) ∈ seen → |(t.toNat : ℚ) - (phase + k * P)| ≤ δ)
    (hten : 10 ≤ seen.length) (hlo : 0.52 * T ≤ P - 2 * δ) (hhi : P + 2 * δ ≤ 1.48 * T)
    (hspread : 4 * δ < m * (T / 201))
    (hmost : (m + 1) * (seen.zip seen.tail).countP (fun e => !consecutive e) <
      (seen.zip seen.tail).countP consecutive) :
    ∃ r, (probing threshold probes).peakReport T = some r ∧
      |r.peakCyc - P| ≤ 2 * δ + T / 399 ∧
      |r.deviation - |P - T| / T * 100| ≤ (2 * δ + T / 398) / T * 100 ∧
      (seen.zip seen.tail).countP consecutive ≤ (m + 1) * r.peakCount := by
  have hpos : 0 < T := by linarith
  have hrec := recorded_probing threshold probes
  have hspikes : (probing threshold probes).recorded.map Spike.tsc = seen.map Prod.fst := by
    rw [hrec.recorded, hseen]
  have hn : ¬ (probing threshold probes).nSpikes < 10 := by
    have hlen := congrArg List.length hseen
    rw [List.length_map, List.length_map, List.length_take] at hlen
    rw [hrec.count]
    omega
  have hreport : (probing threshold probes).peakReport T =
      some (Double.peakReport T (Double.histogram T (intervalsOf (seen.map Prod.fst)))) := by
    rw [Recording.peakReport, if_neg hn, hspikes]
  have hnear := near_of_consecutive (B := 2 * T) (by linarith) hclose (by linarith) (by linarith)
  generalize hε : 2 * δ + 2 * T / 2 ^ 53 = ε at hnear
  obtain ⟨hfew, hmany⟩ := countP_near_of_consecutive hnear
  have hm : T / 201 ≤ m * (T / 201) := by
    refine le_mul_of_one_le_left (by linarith) ?_
    have hm0 : m ≠ 0 := by
      rintro rfl
      push_cast at hspread
      linarith
    exact_mod_cast Nat.one_le_iff_ne_zero.mpr hm0
  obtain ⟨hpeak, hcount⟩ := peak_near hT (by linarith) (by linarith) (by linarith) (by linarith)
    (((Nat.mul_le_mul_left (m + 1) hfew).trans_lt hmost).trans_le hmany)
  have hdeviation := deviation_near hT (by linarith) hpeak (by linarith) (by linarith)
  refine ⟨_, hreport, by exact hpeak.trans (by linarith), hdeviation.trans ?_, hmany.trans hcount⟩
  have hslack : (ε + T / 400 + T / 10 ^ 8) / T * 100 + 1 / 10 ^ 8 =
      (ε + T / 400 + T / 10 ^ 8 + T / 10 ^ 10) / T * 100 := by
    field_simp
    ring
  rw [hslack]
  refine mul_le_mul_of_nonneg_right (div_le_div_of_nonneg_right ?_ hpos.le) (by norm_num)
  linarith

/-- The spikes of the example above, with an expected period of 96 cycles. -/
theorem peak_of_refreshes_eleven : ∃ r, (probing 50 refreshProbes).peakReport 96 = some r ∧
    |r.peakCyc - 100| ≤ 2 * 0 + 96 / 399 ∧
    |r.deviation - |100 - 96| / 96 * 100| ≤ (2 * 0 + 96 / 398) / 96 * 100 ∧
    9 ≤ (1 + 1) * r.peakCount :=
  peak_of_refreshes 0 refreshesSeen 1 (by norm_num) rfl (le_refl 0)
    (fun t k hmem => (refreshesSeen_close hmem).le) (by decide) (by norm_num) (by norm_num)
    (by norm_num) (by decide)

end Tailslayer.Probe
