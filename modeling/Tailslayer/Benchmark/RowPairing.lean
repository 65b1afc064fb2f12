import Tailslayer.Benchmark.Pairing

/-! `Benchmark::pair_samples_n2`, which pairs the samples row by row, next to `pair_samples_n`. -/
namespace Tailslayer.Benchmark

variable {n : ℕ} {allSamples : AllSamples n} {numSamples : ℤ} {w : Window n} {out : List UInt64}

/-- `minLatency` and `maxLatency` after one more latency. -/
def addLatency (s : UInt64 × UInt64) (lat : UInt64) : UInt64 × UInt64 :=
  (if lat < s.1 then lat else s.1, if s.2 < lat then lat else s.2)

/-- The loop over the channels of a row, which starts `minLatency` anew. -/
def rowLatencies (allSamples : AllSamples n) (i : ℕ) (maxLatency : UInt64) : UInt64 × UInt64 :=
  (List.finRange n).foldl (fun s c => addLatency s (allSamples c i).latency)
    (UINT64_MAX, maxLatency)

/-- The body of the loop over the rows, on `out_effective` and `maxLatency`. -/
def rowStep (allSamples : AllSamples n) (s : List UInt64 × UInt64) (i : ℕ) :
    List UInt64 × UInt64 :=
  let latencies := rowLatencies allSamples i s.2
  (s.1 ++ [latencies.1], latencies.2)

/-- The returned count next to the final `out_effective`. The variable `maxLatency` has no initial
value: it starts with whatever it holds. -/
def pairSamplesN2 (maxLatency : UInt64) (allSamples : AllSamples n) (numSamples : ℤ)
    (outEffective : List UInt64) : Int32 × List UInt64 :=
  if n = 0 then (0, outEffective)
  else
    let s := (List.range numSamples.toNat).foldl (rowStep allSamples) (outEffective, maxLatency)
    (Int32.ofNat s.1.length, s.1)

/-- The value that a row appends. -/
def rowMin (allSamples : AllSamples n) (i : ℕ) : UInt64 := (rowLatencies allSamples i 0).1

/-- At each row the channels' timestamps differ by less than the gap. -/
def Synchronised (allSamples : AllSamples n) (numSamples : ℤ) : Prop :=
  ∀ i : ℕ, (i : ℤ) < numSamples → WithinGap allSamples (fun _ => i)

/-- The least latency is the one that the scan of the sliding window finds, whatever the greatest
latency is. -/
theorem rowLatencies_fst (allSamples : AllSamples n) (i : ℕ) (maxLatency : UInt64) :
    (rowLatencies allSamples i maxLatency).1 = ((List.finRange n).foldl
      (fun sp c => sp.add c (sampleAt allSamples (fun _ => i) c)) Spread.start).minLatency := by
  have hgeneral : ∀ (cs : List (Fin n)) (s : UInt64 × UInt64) (sp : Spread n),
      s.1 = sp.minLatency →
      (cs.foldl (fun s c => addLatency s (allSamples c i).latency) s).1 =
        (cs.foldl (fun sp c => sp.add c (sampleAt allSamples (fun _ => i) c)) sp).minLatency := by
    intro cs
    induction cs with
    | nil => intro s sp h; exact h
    | cons c cs ih =>
      rintro ⟨minLatency, maxLatency⟩ sp h
      obtain rfl : minLatency = sp.minLatency := h
      rw [List.foldl_cons, List.foldl_cons]
      exact ih _ _ rfl
  exact hgeneral _ _ _ rfl

theorem rowLatencies_eq_rowMin (allSamples : AllSamples n) (i : ℕ) (maxLatency : UInt64) :
    (rowLatencies allSamples i maxLatency).1 = rowMin allSamples i := by
  rw [rowMin, rowLatencies_fst, rowLatencies_fst]

theorem foldl_rowStep (allSamples : AllSamples n) (rows : List ℕ) (s : List UInt64 × UInt64) :
    (rows.foldl (rowStep allSamples) s).1 = s.1 ++ rows.map (rowMin allSamples) := by
  induction rows generalizing s with
  | nil => exact (List.append_nil _).symm
  | cons i rows ih =>
    rw [List.foldl_cons, ih, rowStep, rowLatencies_eq_rowMin, List.map_cons, List.append_assoc]
    rfl

theorem pairSamplesN2_eq (hn : 0 < n) (maxLatency : UInt64) (allSamples : AllSamples n)
    (numSamples : ℤ) (out : List UInt64) :
    pairSamplesN2 maxLatency allSamples numSamples out =
      (Int32.ofNat (out ++ (List.range numSamples.toNat).map (rowMin allSamples)).length,
        out ++ (List.range numSamples.toNat).map (rowMin allSamples)) := by
  simp only [pairSamplesN2, if_neg (Nat.ne_of_gt hn), foldl_rowStep]

theorem isMinLatency_rowMin (hn : 0 < n) (allSamples : AllSamples n) (i : ℕ) :
    IsMinLatency allSamples (fun _ => i) (rowMin allSamples i) := by
  have hex := extremes_foldl (List.finRange n) [] .start
    (extremes_start allSamples (fun _ : Fin n => i))
  rw [rowMin, rowLatencies_fst]
  exact isMinLatency_of_extremes hn hex

theorem IsMinLatency.unique {t : IndexTuple n} {v v' : UInt64} (h : IsMinLatency allSamples t v)
    (h' : IsMinLatency allSamples t v') : v = v' := by
  obtain ⟨⟨c, hc⟩, hle⟩ := h
  obtain ⟨⟨c', hc'⟩, hle'⟩ := h'
  have h1 := hle c'
  have h2 := hle' c
  rw [hc'] at h1
  rw [hc] at h2
  exact UInt64.toNat_inj.mp (Nat.le_antisymm h1 h2)

def AppendedAtMost (out : List UInt64) (numSamples : ℤ) (w : Window n) : Prop :=
  ∃ appended, w.outEffective = out ++ appended ∧
    ∀ c, appended.length ≤ w.indices c ∧ w.indices c ≤ numSamples.toNat

theorem appendedAtMost_pair {v : UInt64} (h : AppendedAtMost out numSamples w)
    (hin : InRange numSamples w.indices) :
    AppendedAtMost out numSamples ⟨fun c => w.indices c + 1, w.outEffective ++ [v]⟩ := by
  obtain ⟨appended, he, hle⟩ := h
  refine ⟨appended ++ [v], ?_, ?_⟩
  · change w.outEffective ++ [v] = _
    rw [he, List.append_assoc]
  · intro c
    have hc := hin c
    have hlec := hle c
    rw [List.length_append, List.length_singleton]
    change appended.length + 1 ≤ w.indices c + 1 ∧ w.indices c + 1 ≤ numSamples.toNat
    omega

theorem appendedAtMost_advance (h : AppendedAtMost out numSamples w)
    (hin : InRange numSamples w.indices) (c : Fin n) : AppendedAtMost out numSamples
      { w with indices := Function.update w.indices c (w.indices c + 1) } := by
  obtain ⟨appended, he, hle⟩ := h
  refine ⟨appended, he, ?_⟩
  intro d
  change appended.length ≤ Function.update w.indices c (w.indices c + 1) d ∧
    Function.update w.indices c (w.indices c + 1) d ≤ numSamples.toNat
  have hled := hle d
  rcases update_succ_cases w.indices c d with ⟨_, he⟩ | ⟨_, he⟩
  · have hd := hin d
    rw [he]
    omega
  · rw [he]
    exact hled

def OnRow (allSamples : AllSamples n) (out : List UInt64) (numSamples : ℤ) (w : Window n) : Prop :=
  ∃ k, w.indices = (fun _ => k) ∧ k ≤ numSamples.toNat ∧
    w.outEffective = out ++ (List.range k).map (rowMin allSamples)

theorem onRow_pair (hn : 0 < n) {v : UInt64} (h : OnRow allSamples out numSamples w)
    (hin : InRange numSamples w.indices) (hv : IsMinLatency allSamples w.indices v) :
    OnRow allSamples out numSamples ⟨fun c => w.indices c + 1, w.outEffective ++ [v]⟩ := by
  obtain ⟨k, hk, _, hout⟩ := h
  rw [hk] at hin hv
  have hlt : (k : ℤ) < numSamples := hin ⟨0, hn⟩
  refine ⟨k + 1, ?_, by omega, ?_⟩
  · change (fun c => w.indices c + 1) = _
    rw [hk]
  · change w.outEffective ++ [v] = _
    rw [hout, hv.unique (isMinLatency_rowMin hn allSamples k), List.range_succ, List.map_append,
      List.append_assoc]
    rfl

/-- No channel of a synchronised row lags behind another. -/
theorem not_lagging (hsync : Synchronised allSamples numSamples)
    (h : OnRow allSamples out numSamples w) (hin : InRange numSamples w.indices) {c d : Fin n}
    (hfar : (sampleAt allSamples w.indices c).timestamp.toNat + MAX_PAIR_GAP.toNat ≤
      (sampleAt allSamples w.indices d).timestamp.toNat) : False := by
  obtain ⟨k, hk, _, _⟩ := h
  rw [hk] at hin hfar
  have hgap := hsync k (hin c) d c
  omega

/-- On synchronised samples the sliding window appends what the rows do, and on any samples it
appends no more values than there are rows. -/
theorem pairSamplesN_pairSamplesN2 (hn : 0 < n) (maxLatency : UInt64) (allSamples : AllSamples n)
    (numSamples : ℤ) (out : List UInt64) {fuel : ℕ} (hfuel : n * numSamples.toNat < fuel) :
    ∃ windowed rows, pairSamplesN fuel allSamples numSamples out =
        some (.ok (Int32.ofNat (out ++ windowed).length, out ++ windowed)) ∧
      pairSamplesN2 maxLatency allSamples numSamples out =
        (Int32.ofNat (out ++ rows).length, out ++ rows) ∧
      windowed.length ≤ rows.length ∧ (Synchronised allSamples numSamples → windowed = rows) := by
  let I : Window n → Prop := fun w => AppendedAtMost out numSamples w ∧
    (Synchronised allSamples numSamples → OnRow allSamples out numSamples w)
  have h0 : I ⟨fun _ => 0, out⟩ :=
    ⟨⟨[], (List.append_nil _).symm, fun _ => ⟨Nat.le_refl _, Nat.zero_le _⟩⟩,
      fun _ => ⟨0, rfl, Nat.zero_le _, (List.append_nil _).symm⟩⟩
  have hI : KeptByPairing allSamples numSamples I := by
    constructor
    · intro w v h hin _ hv
      exact ⟨appendedAtMost_pair h.1 hin, fun hsync => onRow_pair hn (h.2 hsync) hin hv⟩
    · intro w c d h hin _ hfar
      exact ⟨appendedAtMost_advance h.1 hin c,
        fun hsync => (not_lagging hsync (h.2 hsync) hin hfar).elim⟩
  obtain ⟨w, hrun, ⟨⟨appended, he, hle⟩, hrow⟩, hstop⟩ := pairSamplesN_total hn out h0 hI hfuel
  refine ⟨appended, (List.range numSamples.toNat).map (rowMin allSamples), he ▸ hrun,
    pairSamplesN2_eq hn maxLatency allSamples numSamples out, ?_, ?_⟩
  · have h0 := hle ⟨0, hn⟩
    rw [List.length_map, List.length_range]
    omega
  · intro hsync
    obtain ⟨k, hk, hkle, hout⟩ := hrow hsync
    obtain ⟨c, hc⟩ := hstop
    have hend : numSamples ≤ k := by rwa [hk] at hc
    obtain rfl : k = numSamples.toNat := by omega
    exact List.append_cancel_left (he.symm.trans hout)

/-- Two channels, the second always ten cycles behind the first. -/
theorem pairSamplesN_pairSamplesN2_twoChannels :
    ∃ windowed rows, pairSamplesN (n := 2) 7
        (fun c i => ⟨UInt64.ofNat (1000 * i + 10 * c.val), 80⟩) 3 [] =
        some (.ok (Int32.ofNat ([] ++ windowed).length, [] ++ windowed)) ∧
      pairSamplesN2 (n := 2) 17 (fun c i => ⟨UInt64.ofNat (1000 * i + 10 * c.val), 80⟩) 3 [] =
        (Int32.ofNat ([] ++ rows).length, [] ++ rows) ∧
      windowed.length ≤ rows.length ∧ (Synchronised (n := 2)
        (fun c i => ⟨UInt64.ofNat (1000 * i + 10 * c.val), 80⟩) 3 → windowed = rows) :=
  pairSamplesN_pairSamplesN2 (by decide) 17 _ 3 [] (by decide)

end Tailslayer.Benchmark
