import Mathlib.Data.List.GetD
import Mathlib.Data.List.Induction
import Tailslayer.Foundations.Ranks
import Tailslayer.Probe.Doubles

/-! The measurement of `trefi_probe.cpp`: calibration and probing, and what the verdict makes of
refreshes among noise. -/
namespace Tailslayer.Probe

open Binary64 Double

def kCALIB_PROBES : ℕ := 500000

def kMAX_SPIKES : ℕ := 2000000

/-- `spike` -/
structure Spike where
  tsc : UInt64
  latency : UInt64
  deriving DecidableEq, Repr

/-- The options that the threshold depends on. -/
structure Options where
  manualThreshold : UInt64
  threshMult : ℚ

def Options.default : Options := ⟨0, 2⟩

/-- `cmp_u64` -/
def cmpU64 (va vb : UInt64) : ℤ := (if va > vb then 1 else 0) - (if va < vb then 1 else 0)

def sortCalib (calib : List UInt64) : List UInt64 := calib.mergeSort fun a b => cmpU64 a b ≤ 0

/-- The conversion of a `double` to `uint64_t`, where it is defined. -/
def toUInt64 (x : ℚ) : Option UInt64 :=
  if 0 ≤ truncate x ∧ truncate x < 2 ^ 64 then some (UInt64.ofNat (truncate x).toNat) else none

/-- `static_cast<int>(kCALIB_PROBES * q)` -/
def rank (q : ℚ) : ℕ := (truncate (fl (kCALIB_PROBES * fl q))).toNat

structure Calibration where
  median : UInt64
  p90 : UInt64
  p99 : UInt64
  p999 : UInt64
  p9999 : UInt64
  threshold : UInt64
  nAbove : ℕ
  deriving DecidableEq, Repr

def Options.threshold (o : Options) (median : UInt64) : Option UInt64 :=
  if o.manualThreshold > 0 then some o.manualThreshold
  else toUInt64 (fl (o.threshMult * fl median.toNat))

def calibrate (o : Options) (probes : List UInt64) : Option Calibration :=
  let calib := sortCalib probes
  let median := calib.getD (kCALIB_PROBES / 2) 0
  (o.threshold median).map fun threshold => {
    median
    p90 := calib.getD (rank 0.90) 0
    p99 := calib.getD (rank 0.99) 0
    p999 := calib.getD (rank 0.999) 0
    p9999 := calib.getD (rank 0.9999) 0
    threshold
    nAbove := calib.foldl (fun n elem => n + (decide (elem > threshold)).toNat) 0 }

/-- The array of the spikes, which has its full size from the start, and `n_spikes`. -/
structure Recording where
  spikes : List Spike
  nSpikes : ℕ
  deriving DecidableEq, Repr

def Recording.start : Recording := ⟨List.replicate kMAX_SPIKES ⟨0, 0⟩, 0⟩

/-- One round of the probing loop, with the two time stamps that it reads. -/
def probeStep (threshold : UInt64) (s : Recording) (t : UInt64 × UInt64) : Recording :=
  let latency := t.2 - t.1
  if latency > threshold ∧ s.nSpikes < kMAX_SPIKES then
    { spikes := s.spikes.set s.nSpikes ⟨t.1, latency⟩, nSpikes := s.nSpikes + 1 }
  else s

def probing (threshold : UInt64) (probes : List (UInt64 × UInt64)) : Recording :=
  probes.foldl (probeStep threshold) .start

def Recording.recorded (s : Recording) : List Spike := s.spikes.take s.nSpikes

/-- The analysis of what was recorded. -/
def Recording.verdict (T : ℚ) (s : Recording) : Verdict :=
  Double.verdict T (s.recorded.map Spike.tsc)

variable {o : Options} {latencies calib : List UInt64} {cal : Calibration} {threshold : UInt64}

theorem cmpU64_le_zero_iff {va vb : UInt64} : cmpU64 va vb ≤ 0 ↔ va ≤ vb := by
  unfold cmpU64
  rw [← UInt64.not_lt]
  split_ifs with hgt hlt hlt
  · exact (UInt64.lt_asymm hgt hlt).elim
  · simp [hgt]
  · simp [hgt]
  · simp [hgt]

theorem sortCalib_perm (calib : List UInt64) : (sortCalib calib).Perm calib :=
  List.mergeSort_perm calib _

theorem pairwise_sortCalib (calib : List UInt64) : (sortCalib calib).Pairwise (· ≤ ·) := by
  have htrans : ∀ a b c : UInt64, decide (cmpU64 a b ≤ 0) = true → decide (cmpU64 b c ≤ 0) = true →
      decide (cmpU64 a c ≤ 0) = true := by
    intro a b c hab hbc
    exact decide_eq_true (cmpU64_le_zero_iff.mpr (UInt64.le_trans
      (cmpU64_le_zero_iff.mp (of_decide_eq_true hab))
      (cmpU64_le_zero_iff.mp (of_decide_eq_true hbc))))
  have htotal : ∀ a b : UInt64, (decide (cmpU64 a b ≤ 0) || decide (cmpU64 b a ≤ 0)) = true := by
    intro a b
    rcases UInt64.le_total a b with hab | hba
    · simp [cmpU64_le_zero_iff, hab]
    · simp [cmpU64_le_zero_iff, hba]
  have hsorted := List.pairwise_mergeSort htrans htotal calib
  exact hsorted.imp fun hab => cmpU64_le_zero_iff.mp (of_decide_eq_true hab)

/-- The loop that counts the calibration probes above the threshold. -/
theorem foldl_above (calib : List UInt64) (threshold : UInt64) (n : ℕ) :
    calib.foldl (fun n elem => n + (decide (elem > threshold)).toNat) n =
      n + calib.countP (threshold < ·) := by
  induction calib generalizing n with
  | nil => rfl
  | cons elem calib ih =>
    rw [List.foldl_cons, ih, List.countP_cons]
    by_cases h : threshold < elem
    · simp [h]
      omega
    · simp [h]

/-- In a sorted list the entry of a rank is at most the threshold exactly when only the later
ranks may be above. -/
theorem getD_le_iff (threshold : UInt64) (hs : calib.Pairwise (· ≤ ·)) {k : ℕ}
    (hk : k < calib.length) :
    calib.getD k 0 ≤ threshold ↔ calib.countP (threshold < ·) ≤ calib.length - 1 - k := by
  have hsplit : calib.countP (· ≤ threshold) + calib.countP (threshold < ·) = calib.length := by
    have hall := List.length_eq_countP_add_countP (fun x => decide (x ≤ threshold)) (l := calib)
    simp only [decide_eq_true_eq, UInt64.not_le] at hall
    exact hall.symm
  have hnat : (calib.map UInt64.toNat).countP (· ≤ threshold.toNat) =
      calib.countP (· ≤ threshold) := by
    rw [List.countP_map]
    exact List.countP_congr fun x _ => by simp [UInt64.le_iff_toNat_le]
  have hs' : (calib.map UInt64.toNat).Pairwise (· ≤ ·) :=
    hs.map UInt64.toNat fun _ _ => UInt64.le_iff_toNat_le.mp
  have hk' : k < (calib.map UInt64.toNat).length := by rwa [List.length_map]
  rw [List.getD_eq_getElem calib 0 hk]
  constructor
  · intro hle
    have hcount := Ranks.lt_countP_of_getElem_le hs' hk' (b := threshold.toNat)
      (by rw [List.getElem_map]; exact UInt64.le_iff_toNat_le.mp hle)
    omega
  · intro hcount
    by_contra hgt
    have hbelow := Ranks.countP_le_of_lt_getElem hs' hk' (b := threshold.toNat)
      (by rw [List.getElem_map]; exact UInt64.lt_iff_toNat_lt.mp (UInt64.not_le.mp hgt))
    omega

/-- What a report of the calibration says of one quantile. -/
def Agrees (cal : Calibration) (entry : UInt64) (rank : ℕ) : Prop :=
  entry ≤ cal.threshold ↔ cal.nAbove ≤ kCALIB_PROBES - 1 - rank

/-- A multiplier of at least one does not take the threshold below a median that a double holds. -/
theorem median_le_threshold {median : UInt64} (h : o.threshold median = some threshold)
    (hauto : o.manualThreshold = 0) (hmult : 1 ≤ o.threshMult) (hsmall : median.toNat ≤ 2 ^ 53) :
    median ≤ threshold := by
  have hn : (0 : ℚ) ≤ median.toNat := Nat.cast_nonneg _
  have hmedian : (median.toNat : ℚ) ≤ fl median.toNat := le_fl hsmall (le_refl _)
  have hle : (median.toNat : ℚ) ≤ fl (o.threshMult * fl median.toNat) :=
    le_fl hsmall (hmedian.trans (le_mul_of_one_le_left (hn.trans hmedian) hmult))
  have hfloor : (median.toNat : ℤ) ≤ truncate (fl (o.threshMult * fl median.toNat)) := by
    rw [truncate, if_pos (hn.trans hle)]
    exact Int.le_floor.mpr (by exact_mod_cast hle)
  rw [Options.threshold, if_neg (by rw [hauto]; decide), toUInt64] at h
  split at h
  · next hrange =>
    cases h
    rw [UInt64.le_iff_toNat_le, UInt64.toNat_ofNat', Nat.mod_eq_of_lt (by omega)]
    omega
  · cases h

/-- The report is consistent: each quantile is at most the threshold exactly when no more than the
probes of later rank are counted above it. A multiplier of at least one leaves less than half of the
probes above it. -/
theorem calibration_consistent (h : calibrate o latencies = some cal)
    (hlen : latencies.length = kCALIB_PROBES) :
    cal.nAbove = latencies.countP (cal.threshold < ·) ∧
    Agrees cal cal.median 250000 ∧ Agrees cal cal.p90 450000 ∧ Agrees cal cal.p99 495000 ∧
    Agrees cal cal.p999 499500 ∧ Agrees cal cal.p9999 499950 ∧
    (o.manualThreshold = 0 → 1 ≤ o.threshMult → cal.median.toNat ≤ 2 ^ 53 →
      2 * cal.nAbove < kCALIB_PROBES) := by
  obtain ⟨threshold, hthreshold, hcal⟩ := Option.map_eq_some_iff.mp h
  have hsize : (sortCalib latencies).length = 500000 :=
    (sortCalib_perm latencies).length_eq.trans hlen
  have hcount : (sortCalib latencies).foldl
      (fun n elem => n + (decide (elem > threshold)).toNat) 0 =
        (sortCalib latencies).countP (threshold < ·) := by
    rw [foldl_above, Nat.zero_add]
  have hagrees : ∀ k < 500000, (sortCalib latencies).getD k 0 ≤ threshold ↔
      (sortCalib latencies).foldl (fun n elem => n + (decide (elem > threshold)).toNat) 0 ≤
        kCALIB_PROBES - 1 - k := by
    intro k hk
    have hiff := getD_le_iff threshold (pairwise_sortCalib latencies)
      (by rw [hsize]; exact hk)
    rwa [hsize, ← hcount] at hiff
  have hmedian := hagrees 250000 (by decide)
  cases hcal
  refine ⟨hcount.trans ((sortCalib_perm latencies).countP_eq _), hmedian, ?_, ?_, ?_, ?_, ?_⟩
  · rw [show rank 0.90 = 450000 by decide +kernel]
    exact hagrees 450000 (by decide)
  · rw [show rank 0.99 = 495000 by decide +kernel]
    exact hagrees 495000 (by decide)
  · rw [show rank 0.999 = 499500 by decide +kernel]
    exact hagrees 499500 (by decide)
  · rw [show rank 0.9999 = 499950 by decide +kernel]
    exact hagrees 499950 (by decide)
  · intro hauto hmult hsmall
    have habove := hmedian.mp (median_le_threshold hthreshold hauto hmult hsmall)
    have hhalf : kCALIB_PROBES - 1 - 250000 = 249999 := rfl
    have htotal : kCALIB_PROBES = 500000 := rfl
    change 2 * (sortCalib latencies).foldl _ 0 < _
    omega

/-- Calibration probes of seven cycles each, and the default multiplier. -/
theorem calibration_consistent_sevens : ∃ cal,
    calibrate .default (List.replicate kCALIB_PROBES 7) = some cal ∧
      cal.nAbove = (List.replicate kCALIB_PROBES 7).countP (cal.threshold < ·) ∧
      Agrees cal cal.median 250000 ∧ Agrees cal cal.p90 450000 ∧ Agrees cal cal.p99 495000 ∧
      Agrees cal cal.p999 499500 ∧ Agrees cal cal.p9999 499950 ∧
      (Options.default.manualThreshold = 0 → 1 ≤ Options.default.threshMult →
        cal.median.toNat ≤ 2 ^ 53 → 2 * cal.nAbove < kCALIB_PROBES) := by
  have hsort : sortCalib (List.replicate kCALIB_PROBES 7) = List.replicate kCALIB_PROBES 7 :=
    List.perm_replicate.mp (sortCalib_perm _)
  have hmedian : (sortCalib (List.replicate kCALIB_PROBES 7)).getD (kCALIB_PROBES / 2) 0 = 7 := by
    rw [hsort, List.getD_eq_getElem, List.getElem_replicate]
    rw [List.length_replicate]
    decide
  have hthreshold : Options.default.threshold 7 = some 14 := by decide +kernel
  obtain ⟨cal, hcal⟩ : ∃ cal, calibrate .default (List.replicate kCALIB_PROBES 7) = some cal := by
    rw [calibrate, hmedian, hthreshold]
    exact ⟨_, rfl⟩
  exact ⟨cal, hcal, calibration_consistent hcal List.length_replicate⟩

variable {probes : List (UInt64 × UInt64)} {r : Recording}

def timed (t : UInt64 × UInt64) : Spike := ⟨t.1, t.2 - t.1⟩

/-- The probes whose latency is above the threshold. -/
def above (threshold : UInt64) (probes : List (UInt64 × UInt64)) : List Spike :=
  (probes.map timed).filter (threshold < ·.latency)

/-- What the loop keeps: the array has its size, and its first entries are the first probes above
the threshold. -/
structure Recorded (r : Recording) (spikes : List Spike) : Prop where
  size : r.spikes.length = kMAX_SPIKES
  count : r.nSpikes = min kMAX_SPIKES spikes.length
  recorded : r.recorded = spikes.take kMAX_SPIKES

theorem recorded_start : Recorded .start [] where
  size := List.length_replicate
  count := (Nat.min_zero _).symm
  recorded := by rw [List.take_nil]; rfl

theorem recorded_probeStep {spikes : List Spike} (h : Recorded r spikes) (t : UInt64 × UInt64) :
    Recorded (probeStep threshold r t) (spikes ++ above threshold [t]) := by
  have hsize := h.size
  have hcount := h.count
  have hrec := h.recorded
  simp only [probeStep]
  by_cases hlat : t.2 - t.1 > threshold
  · have habove : above threshold [t] = [timed t] := by
      rw [above, List.map_singleton]
      exact List.filter_eq_self.mpr (by simpa [timed] using hlat)
    rw [habove]
    by_cases hroom : r.nSpikes < kMAX_SPIKES
    · rw [if_pos ⟨hlat, hroom⟩]
      have hlen : r.nSpikes = spikes.length := by omega
      have hnext : (spikes ++ [timed t]).length = spikes.length + 1 := List.length_append
      have hfirst : r.spikes.take r.nSpikes = spikes :=
        hrec.trans (List.take_of_length_le (by omega))
      refine ⟨List.length_set.trans hsize, ?_, ?_⟩
      · rw [hnext]
        change r.nSpikes + 1 = _
        omega
      · rw [List.take_of_length_le (by omega), Recording.recorded, List.take_add_one,
          List.take_set_of_le (Nat.le_refl _), hfirst, List.getElem?_set_self (by omega)]
        rfl
    · rw [if_neg (fun hboth => hroom hboth.2)]
      refine ⟨hsize, by rw [List.length_append]; omega, ?_⟩
      rw [hrec, List.take_append_of_le_length (by omega)]
  · have habove : above threshold [t] = [] := by
      rw [above, List.map_singleton]
      exact List.filter_eq_nil_iff.mpr (by simpa [timed] using hlat)
    rw [if_neg (fun hboth => hlat hboth.1), habove, List.append_nil]
    exact h

theorem recorded_probing (threshold : UInt64) (probes : List (UInt64 × UInt64)) :
    Recorded (probing threshold probes) (above threshold probes) := by
  induction probes using List.reverseRecOn with
  | nil => exact recorded_start
  | append_singleton probes t ih =>
    have hsplit : above threshold (probes ++ [t]) =
        above threshold probes ++ above threshold [t] := by
      rw [above, List.map_append, List.filter_append]
      rfl
    rw [probing, List.foldl_append, hsplit]
    exact recorded_probeStep ih t

variable {T phase iv : ℚ}

/-- Spikes with the refresh that each comes from, if it comes from one: these lie close to a
multiple of the period, and no more than two refreshes are missed between neighbours. -/
structure Refreshes (T phase : ℚ) (seen : List (UInt64 × Option ℕ)) : Prop where
  close : ∀ t k, (t, some k) ∈ seen → |(t.toNat : ℚ) - (phase + k * T)| ≤ 0.07 * T
  next : ∀ t k t' k', ((t, some k), (t', some k')) ∈ seen.zip seen.tail → k < k' ∧ k' ≤ k + 3

/-- Two time stamps near multiples of a period are so many periods apart. -/
theorem interval_near {P δ : ℚ} {t t' : UInt64} {k d : ℕ}
    (h : |(t.toNat : ℚ) - (phase + k * P)| ≤ δ)
    (h' : |(t'.toNat : ℚ) - (phase + (k + d : ℕ) * P)| ≤ δ) (hd : 2 * δ < d * P) :
    |((t' - t).toNat : ℚ) - d * P| ≤ 2 * δ := by
  obtain ⟨hlo, hhi⟩ := abs_le.mp h
  obtain ⟨hlo', hhi'⟩ := abs_le.mp h'
  push_cast at hlo' hhi'
  have horder : (t.toNat : ℚ) < t'.toNat := by linarith
  have htle : t ≤ t' := UInt64.le_iff_toNat_le.mpr (by exact_mod_cast horder.le)
  have hsub : ((t' - t).toNat : ℚ) = t'.toNat - t.toNat := by
    rw [UInt64.toNat_sub_of_le _ _ htle, Nat.cast_sub (UInt64.le_iff_toNat_le.mp htle)]
  rw [hsub, abs_le]
  exact ⟨by linarith, by linarith⟩

/-- Two refreshes in a row are a harmonic interval apart. -/
theorem harmonic_of_refreshes {seen : List (UInt64 × Option ℕ)} (hT : 1 ≤ T)
    (h : Refreshes T phase seen) {t t' : UInt64} {k k' : ℕ}
    (hmem : ((t, some k), (t', some k')) ∈ seen.zip seen.tail) :
    harmonic T (fl (t' - t).toNat) = true := by
  obtain ⟨hin, hin'⟩ := List.of_mem_zip hmem
  obtain ⟨hlt, hle⟩ := h.next t k t' k' hmem
  obtain ⟨d, rfl⟩ : ∃ d, k' = k + d := ⟨k' - k, by omega⟩
  have hd : (1 : ℚ) ≤ d := by exact_mod_cast (by omega : 1 ≤ d)
  have hd3 : (d : ℚ) ≤ 3 := by exact_mod_cast (by omega : d ≤ 3)
  have hdT : T ≤ d * T := le_mul_of_one_le_left (by linarith) hd
  have hdT3 : d * T ≤ 3 * T := mul_le_mul_of_nonneg_right hd3 (by linarith)
  have hnear := interval_near (h.close t k hin) (h.close t' _ (List.mem_of_mem_tail hin'))
    (by linarith)
  obtain ⟨hlo, hhi⟩ := abs_le.mp hnear
  have hround : |fl (t' - t).toNat - (t' - t).toNat| ≤ (4 * T) / 2 ^ 53 :=
    abs_fl_sub_le (by linarith) (abs_le.mpr ⟨by linarith, by linarith⟩)
  apply harmonic_of_near (d := d) hT (by omega) (by omega)
  have htriangle := abs_sub_le (fl (t' - t).toNat) (t' - t).toNat (d * T)
  linarith

theorem countP_zip_le {α β : Type*} (f : α → Bool) (g : β → Bool) (xs : List α) (ys : List β) :
    (xs.zip ys).countP (fun e => f e.1 || g e.2) ≤ xs.countP f + ys.countP g := by
  induction xs generalizing ys with
  | nil => exact Nat.zero_le _
  | cons x xs ih =>
    cases ys with
    | nil => exact Nat.zero_le _
    | cons y ys =>
      have hrest := ih ys
      simp only [List.zip_cons_cons, List.countP_cons]
      cases f x <;> cases g y <;> simp <;> omega

theorem intervalsOf_map_fst {β : Type*} (seen : List (UInt64 × β)) :
    intervalsOf (seen.map Prod.fst) =
      (seen.zip seen.tail).map fun e => fl (e.2.1 - e.1.1).toNat := by
  rw [intervalsOf, ← List.map_tail, List.zipWith_map, List.zip, List.map_zipWith]

/-- Every interval that is not harmonic ends or begins at a spike that is noise. -/
theorem countP_not_harmonic_le {seen : List (UInt64 × Option ℕ)} (hT : 1 ≤ T)
    (h : Refreshes T phase seen) :
    (intervalsOf (seen.map Prod.fst)).countP (fun iv => ¬ harmonic T iv) ≤
      2 * seen.countP (·.2 = none) := by
  have htail : seen.tail.countP (·.2 = none) ≤ seen.countP (·.2 = none) :=
    (List.tail_sublist seen).countP_le
  rw [intervalsOf_map_fst, List.countP_map]
  calc (seen.zip seen.tail).countP _
      ≤ (seen.zip seen.tail).countP
          (fun e => decide (e.1.2 = none) || decide (e.2.2 = none)) := by
        apply List.countP_mono_left
        rintro ⟨⟨t, k⟩, t', k'⟩ hmem hother
        cases k with
        | none => rfl
        | some k =>
          cases k' with
          | none => rfl
          | some k' =>
            exact absurd (harmonic_of_refreshes hT h hmem) (of_decide_eq_true hother)
    _ ≤ seen.countP (·.2 = none) + seen.tail.countP (·.2 = none) :=
        countP_zip_le (fun e : UInt64 × Option ℕ => decide (e.2 = none))
          (fun e : UInt64 × Option ℕ => decide (e.2 = none)) seen seen.tail
    _ ≤ 2 * seen.countP (·.2 = none) := by omega

/-- Refreshes are found among noise: with fewer than seven spikes of noise for every thirteen that
come from refreshes after the first, and ten spikes in all, the verdict is a periodic signal. -/
theorem periodic_of_refreshes (phase : ℚ) (seen : List (UInt64 × Option ℕ)) (hT : 1 ≤ T)
    (h : Refreshes T phase seen)
    (hseen : seen.map Prod.fst = ((above threshold probes).take kMAX_SPIKES).map Spike.tsc)
    (hten : 10 ≤ seen.length)
    (hnoise : 13 * seen.countP (·.2 = none) + 7 < 7 * seen.countP (·.2 ≠ none)) :
    (probing threshold probes).verdict T = .periodic := by
  have hlen : (seen.map Prod.fst).length = seen.length := List.length_map _
  have hcount : seen.countP (·.2 = none) + seen.countP (·.2 ≠ none) = seen.length := by
    have hall := List.length_eq_countP_add_countP (fun e => decide (e.2 = none)) (l := seen)
    simpa only [decide_eq_true_eq] using hall.symm
  have hkept : seen.length ≤ kMAX_SPIKES := by
    rw [← hlen, hseen, List.length_map]
    exact List.length_take_le _ _
  have hother := countP_not_harmonic_le hT h
  have hintervals := length_intervalsOf (seen.map Prod.fst)
  have hsplit := List.length_eq_countP_add_countP (harmonic T)
    (l := intervalsOf (seen.map Prod.fst))
  have hsize : kMAX_SPIKES ≤ 2 ^ 21 := by decide
  rw [Recording.verdict, (recorded_probing threshold probes).recorded, ← hseen]
  exact verdict_eq_periodic (by omega) (by omega) (by omega)

/-- Eleven refreshes a hundred cycles apart, a spike of noise among them, and the threshold at 50
cycles. -/
def refreshProbes : List (UInt64 × UInt64) :=
  [(100, 180), (200, 280), (300, 380), (350, 410), (360, 370), (400, 480), (500, 580), (600, 680),
    (700, 780), (800, 880), (900, 980), (1000, 1080), (1100, 1180)]

def refreshesSeen : List (UInt64 × Option ℕ) :=
  [(100, some 1), (200, some 2), (300, some 3), (350, none), (400, some 4), (500, some 5),
    (600, some 6), (700, some 7), (800, some 8), (900, some 9), (1000, some 10), (1100, some 11)]

theorem refreshesSeen_close {t : UInt64} {k : ℕ} (hmem : (t, some k) ∈ refreshesSeen) :
    |(t.toNat : ℚ) - (0 + k * 100)| = 0 := by
  have hmultiples : ∀ e ∈ refreshesSeen, e.2.all (fun k => e.1.toNat = 100 * k) := by decide
  have hmultiple : t.toNat = 100 * k := of_decide_eq_true (hmultiples _ hmem)
  rw [hmultiple]
  push_cast
  rw [zero_add, mul_comm, sub_self, abs_zero]

theorem periodic_of_refreshes_eleven : (probing 50 refreshProbes).verdict 100 = .periodic := by
  refine periodic_of_refreshes 0 refreshesSeen (by norm_num) ⟨?_, ?_⟩ rfl (by decide) (by decide)
  · intro t k hmem
    rw [refreshesSeen_close hmem]
    norm_num
  · intro t k t' k' hmem
    simp [refreshesSeen] at hmem
    omega

end Tailslayer.Probe
