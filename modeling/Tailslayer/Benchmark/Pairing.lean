import Mathlib.Algebra.BigOperators.Fin
import Mathlib.Algebra.Order.BigOperators.Group.Finset
import Tailslayer.Benchmark.Specification
import Tailslayer.Foundations.Outcome

/-! One iteration of the pairing loop, and its termination. -/
namespace Tailslayer.Benchmark

variable {n : ℕ} {allSamples : AllSamples n} {numSamples : ℤ} {w : Window n}

/-- A tuple of sample indices, one for each channel. -/
abbrev IndexTuple (n : ℕ) := Fin n → ℕ

/-- The sample a tuple selects from a channel. -/
def sampleAt (allSamples : AllSamples n) (t : IndexTuple n) (c : Fin n) : Sample :=
  allSamples c (t c)

def InRange (numSamples : ℤ) (t : IndexTuple n) : Prop := ∀ c, (t c : ℤ) < numSamples

/-- The largest and the smallest timestamp of a tuple differ by less than the gap. -/
def WithinGap (allSamples : AllSamples n) (t : IndexTuple n) : Prop :=
  ∀ c d, (sampleAt allSamples t c).timestamp.toNat <
    (sampleAt allSamples t d).timestamp.toNat + MAX_PAIR_GAP.toNat

def IsMinLatency (allSamples : AllSamples n) (t : IndexTuple n) (v : UInt64) : Prop :=
  (∃ c, (sampleAt allSamples t c).latency = v) ∧
    ∀ c, v.toNat ≤ (sampleAt allSamples t c).latency.toNat

/-- The extremes over the channels visited so far. -/
structure Spread.Extremes (sp : Spread n) (allSamples : AllSamples n) (t : IndexTuple n)
    (visited : List (Fin n)) : Prop where
  minTs_le : ∀ c ∈ visited, sp.minTs.toNat ≤ (sampleAt allSamples t c).timestamp.toNat
  minTs_eq : sp.minTs = UINT64_MAX ∨ ∃ c ∈ visited, (sampleAt allSamples t c).timestamp = sp.minTs
  le_maxTs : ∀ c ∈ visited, (sampleAt allSamples t c).timestamp.toNat ≤ sp.maxTs.toNat
  maxTs_eq : sp.maxTs = 0 ∨ ∃ c ∈ visited, (sampleAt allSamples t c).timestamp = sp.maxTs
  minIdxChannel : ∀ c, sp.minIdxChannel = some c →
    c ∈ visited ∧ (sampleAt allSamples t c).timestamp = sp.minTs
  minIdxChannel_none : sp.minIdxChannel = none → sp.minTs = UINT64_MAX
  minLatency_le : ∀ c ∈ visited, sp.minLatency.toNat ≤ (sampleAt allSamples t c).latency.toNat
  minLatency_eq : sp.minLatency = UINT64_MAX ∨
    ∃ c ∈ visited, (sampleAt allSamples t c).latency = sp.minLatency

theorem extremes_start (allSamples : AllSamples n) (t : IndexTuple n) :
    (Spread.start : Spread n).Extremes allSamples t [] where
  minTs_le := by simp
  minTs_eq := Or.inl rfl
  le_maxTs := by simp
  maxTs_eq := Or.inl rfl
  minIdxChannel := by simp [Spread.start]
  minIdxChannel_none := fun _ => rfl
  minLatency_le := by simp
  minLatency_eq := Or.inl rfl

theorem toNat_ite_min (a b : UInt64) : (if a < b then a else b).toNat = min a.toNat b.toNat := by
  split
  · next h => exact (Nat.min_eq_left (UInt64.lt_iff_toNat_lt.mp h).le).symm
  · next h =>
    have hle : b.toNat ≤ a.toNat := Nat.le_of_not_lt (fun hlt => h (UInt64.lt_iff_toNat_lt.mpr hlt))
    exact (Nat.min_eq_right hle).symm

theorem toNat_ite_max (a b : UInt64) : (if b < a then a else b).toNat = max a.toNat b.toNat := by
  split
  · next h => exact (Nat.max_eq_left (UInt64.lt_iff_toNat_lt.mp h).le).symm
  · next h =>
    have hle : a.toNat ≤ b.toNat := Nat.le_of_not_lt (fun hlt => h (UInt64.lt_iff_toNat_lt.mpr hlt))
    exact (Nat.max_eq_right hle).symm

/-- A minimum over the visited elements extends to one element more. -/
theorem ite_min_eq {f : Fin n → UInt64} {visited : List (Fin n)} {m top : UInt64} (c : Fin n)
    (h : m = top ∨ ∃ d ∈ visited, f d = m) :
    (if f c < m then f c else m) = top ∨
      ∃ d ∈ visited ++ [c], f d = if f c < m then f c else m := by
  split
  · exact Or.inr ⟨c, by simp, rfl⟩
  · rcases h with h | ⟨d, hd, he⟩
    · exact Or.inl h
    · exact Or.inr ⟨d, by simp [hd], he⟩

theorem ite_max_eq {f : Fin n → UInt64} {visited : List (Fin n)} {m bot : UInt64} (c : Fin n)
    (h : m = bot ∨ ∃ d ∈ visited, f d = m) :
    (if m < f c then f c else m) = bot ∨
      ∃ d ∈ visited ++ [c], f d = if m < f c then f c else m := by
  split
  · exact Or.inr ⟨c, by simp, rfl⟩
  · rcases h with h | ⟨d, hd, he⟩
    · exact Or.inl h
    · exact Or.inr ⟨d, by simp [hd], he⟩

theorem extremes_add {sp : Spread n} {t : IndexTuple n} {visited : List (Fin n)}
    (h : sp.Extremes allSamples t visited) (c : Fin n) :
    (sp.add c (sampleAt allSamples t c)).Extremes allSamples t (visited ++ [c]) where
  minTs_le := by
    intro d hd
    change (ite _ _ _ : UInt64).toNat ≤ _
    rw [toNat_ite_min]
    rcases List.mem_append.mp hd with hd | hd
    · exact (Nat.min_le_right _ _).trans (h.minTs_le d hd)
    · rw [List.mem_singleton.mp hd]
      exact Nat.min_le_left _ _
  minTs_eq := ite_min_eq c h.minTs_eq
  le_maxTs := by
    intro d hd
    change _ ≤ (ite _ _ _ : UInt64).toNat
    rw [toNat_ite_max]
    rcases List.mem_append.mp hd with hd | hd
    · exact (h.le_maxTs d hd).trans (Nat.le_max_right _ _)
    · rw [List.mem_singleton.mp hd]
      exact Nat.le_max_left _ _
  maxTs_eq := ite_max_eq c h.maxTs_eq
  minIdxChannel := by
    intro d hd
    simp only [Spread.add] at hd ⊢
    split at hd
    · next hlt =>
      cases hd
      exact ⟨by simp, by rw [if_pos hlt]⟩
    · next hlt =>
      obtain ⟨hv, he⟩ := h.minIdxChannel d hd
      exact ⟨by simp [hv], by rw [if_neg hlt, he]⟩
  minIdxChannel_none := by
    intro hn
    simp only [Spread.add] at hn ⊢
    split at hn
    · cases hn
    · next hlt => rw [if_neg hlt, h.minIdxChannel_none hn]
  minLatency_le := by
    intro d hd
    change (ite _ _ _ : UInt64).toNat ≤ _
    rw [toNat_ite_min]
    rcases List.mem_append.mp hd with hd | hd
    · exact (Nat.min_le_right _ _).trans (h.minLatency_le d hd)
    · rw [List.mem_singleton.mp hd]
      exact Nat.min_le_left _ _
  minLatency_eq := ite_min_eq c h.minLatency_eq

theorem extremes_foldl {t : IndexTuple n} (cs visited : List (Fin n)) (sp : Spread n)
    (h : sp.Extremes allSamples t visited) :
    (cs.foldl (fun sp c => sp.add c (sampleAt allSamples t c)) sp).Extremes allSamples t
      (visited ++ cs) := by
  induction cs generalizing sp visited with
  | nil => simpa using h
  | cons c cs ih => simpa using ih _ _ (extremes_add h c)

/-- The scan breaks off exactly when some index is out of bounds, else it finds the extremes. -/
theorem scan_cases (allSamples : AllSamples n) (numSamples : ℤ) (t : IndexTuple n) :
    (∃ c, numSamples ≤ t c) ∧ scan allSamples numSamples t = none ∨
      InRange numSamples t ∧ ∃ sp, scan allSamples numSamples t = some sp ∧
        sp.Extremes allSamples t (List.finRange n) := by
  rw [scan, Option.foldlM_guarded]
  by_cases hout : ∃ c, numSamples ≤ t c
  · exact Or.inl ⟨hout, if_pos (by simpa using hout)⟩
  · refine Or.inr ⟨fun c => lt_of_not_ge (fun hle => hout ⟨c, hle⟩), _,
      if_neg (by simpa using hout), ?_⟩
    exact extremes_foldl _ [] _ (extremes_start allSamples t)

theorem toNat_le_max (x : UInt64) : x.toNat ≤ UINT64_MAX.toNat := by
  have hx := x.toNat_lt
  change x.toNat ≤ 18446744073709551615
  omega

theorem isMinLatency_of_extremes {sp : Spread n} {t : IndexTuple n} (hn : 0 < n)
    (h : sp.Extremes allSamples t (List.finRange n)) :
    IsMinLatency allSamples t sp.minLatency := by
  refine ⟨?_, fun c => h.minLatency_le c (List.mem_finRange c)⟩
  rcases h.minLatency_eq with he | ⟨c, _, he⟩
  · refine ⟨⟨0, hn⟩, UInt64.toNat_inj.mp (le_antisymm ?_ ?_)⟩
    · rw [he]
      exact toNat_le_max _
    · exact h.minLatency_le _ (List.mem_finRange _)
  · exact ⟨c, he⟩

theorem exists_maxTs {sp : Spread n} {t : IndexTuple n} (hn : 0 < n)
    (h : sp.Extremes allSamples t (List.finRange n)) :
    ∃ c, (sampleAt allSamples t c).timestamp = sp.maxTs := by
  rcases h.maxTs_eq with he | ⟨c, _, he⟩
  · refine ⟨⟨0, hn⟩, UInt64.toNat_inj.mp (le_antisymm ?_ ?_)⟩
    · exact h.le_maxTs _ (List.mem_finRange _)
    · rw [he]
      exact Nat.zero_le _
  · exact ⟨c, he⟩

/-- The test of the loop, on the extremes of the current tuple. -/
theorem withinGap_iff {sp : Spread n} {t : IndexTuple n} (hn : 0 < n)
    (h : sp.Extremes allSamples t (List.finRange n)) :
    WithinGap allSamples t ↔ sp.maxTs - sp.minTs < MAX_PAIR_GAP := by
  have hmin := fun c => h.minTs_le c (List.mem_finRange c)
  have hmax := fun c => h.le_maxTs c (List.mem_finRange c)
  have hle : sp.minTs.toNat ≤ sp.maxTs.toNat := (hmin ⟨0, hn⟩).trans (hmax ⟨0, hn⟩)
  rw [UInt64.lt_iff_toNat_lt, UInt64.toNat_sub_of_le _ _ (UInt64.le_iff_toNat_le.mpr hle)]
  have hgap : 0 < MAX_PAIR_GAP.toNat := by decide
  constructor
  · intro hg
    obtain ⟨d, hd⟩ := exists_maxTs hn h
    rcases h.minTs_eq with he | ⟨c, _, hc⟩
    · have htop := toNat_le_max sp.maxTs
      rw [he]
      omega
    · have hdc := hg d c
      rw [hd, hc] at hdc
      omega
  · intro hg c d
    have hc := hmax c
    have hd := hmin d
    omega

/-- What one iteration can do. -/
theorem pairStep_cases (hn : 0 < n) (allSamples : AllSamples n) (numSamples : ℤ) (w : Window n) :
    (∃ c, numSamples ≤ w.indices c) ∧ pairStep allSamples numSamples w = .ok none ∨
    (InRange numSamples w.indices ∧ WithinGap allSamples w.indices ∧
      ∃ v, IsMinLatency allSamples w.indices v ∧ pairStep allSamples numSamples w =
        .ok (some ⟨fun c => w.indices c + 1, w.outEffective ++ [v]⟩)) ∨
    (InRange numSamples w.indices ∧ ∃ c d,
      (∀ e, (sampleAt allSamples w.indices c).timestamp.toNat ≤
        (sampleAt allSamples w.indices e).timestamp.toNat) ∧
      (sampleAt allSamples w.indices c).timestamp.toNat + MAX_PAIR_GAP.toNat ≤
        (sampleAt allSamples w.indices d).timestamp.toNat ∧
      pairStep allSamples numSamples w =
        .ok (some { w with indices := Function.update w.indices c (w.indices c + 1) })) := by
  rcases scan_cases allSamples numSamples w.indices with ⟨hout, hs⟩ | ⟨hin, sp, hs, hex⟩
  · exact Or.inl ⟨hout, by simp [pairStep, hs]⟩
  · by_cases hgap : sp.maxTs - sp.minTs < MAX_PAIR_GAP
    · refine Or.inr (Or.inl ⟨hin, (withinGap_iff hn hex).mpr hgap, sp.minLatency,
        isMinLatency_of_extremes hn hex, ?_⟩)
      simp [pairStep, hs, hgap]
    · refine Or.inr (Or.inr ⟨hin, ?_⟩)
      obtain ⟨d, hd⟩ := exists_maxTs hn hex
      have hmin := fun c => hex.minTs_le c (List.mem_finRange c)
      have hle : sp.minTs.toNat ≤ sp.maxTs.toNat := by
        rw [← hd]
        exact hmin d
      have hfar : sp.minTs.toNat + MAX_PAIR_GAP.toNat ≤ sp.maxTs.toNat := by
        rw [UInt64.lt_iff_toNat_lt,
          UInt64.toNat_sub_of_le _ _ (UInt64.le_iff_toNat_le.mpr hle)] at hgap
        omega
      cases hc : sp.minIdxChannel with
      | none =>
        -- no channel was below the initial minimum, so nothing lies above it either
        have htop := toNat_le_max sp.maxTs
        have hpos : 0 < MAX_PAIR_GAP.toNat := by decide
        rw [hex.minIdxChannel_none hc] at hfar
        omega
      | some c =>
        obtain ⟨_, hts⟩ := hex.minIdxChannel c hc
        refine ⟨c, d, ?_, ?_, ?_⟩
        · rw [hts]
          exact hmin
        · rwa [hts, hd]
        · simp [pairStep, hs, hgap, hc]

/-- Advancing one channel: its index moves on by one, the others stay. -/
theorem update_succ_cases (t : IndexTuple n) (c d : Fin n) :
    d = c ∧ Function.update t c (t c + 1) d = t d + 1 ∨
      d ≠ c ∧ Function.update t c (t c + 1) d = t d := by
  by_cases hd : d = c
  · subst hd
    exact Or.inl ⟨rfl, Function.update_self _ _ _⟩
  · exact Or.inr ⟨hd, Function.update_of_ne hd _ _⟩

/-- The samples that are left below the bound. -/
def remaining (numSamples : ℤ) (w : Window n) : ℕ :=
  ∑ c, (numSamples.toNat - w.indices c)

theorem remaining_pair (hn : 0 < n) (hin : InRange numSamples w.indices) (out : List UInt64) :
    remaining numSamples ⟨fun c => w.indices c + 1, out⟩ < remaining numSamples w := by
  apply Finset.sum_lt_sum
  · intro c _
    exact Nat.sub_le_sub_left (Nat.le_succ _) _
  · refine ⟨⟨0, hn⟩, Finset.mem_univ _, ?_⟩
    have h0 := hin ⟨0, hn⟩
    change numSamples.toNat - (w.indices ⟨0, hn⟩ + 1) < _
    omega

theorem remaining_advance (hin : InRange numSamples w.indices) (c : Fin n) :
    remaining numSamples { w with indices := Function.update w.indices c (w.indices c + 1) } <
      remaining numSamples w := by
  apply Finset.sum_lt_sum
  · intro d _
    rcases update_succ_cases w.indices c d with ⟨_, he⟩ | ⟨_, he⟩ <;> simp only [he] <;> omega
  · refine ⟨c, Finset.mem_univ _, ?_⟩
    have hc := hin c
    simp only [Function.update_self]
    omega

/-- What both kinds of iteration keep. -/
structure KeptByPairing (allSamples : AllSamples n) (numSamples : ℤ) (I : Window n → Prop) :
    Prop where
  pair : ∀ w v, I w → InRange numSamples w.indices → WithinGap allSamples w.indices →
    IsMinLatency allSamples w.indices v → I ⟨fun c => w.indices c + 1, w.outEffective ++ [v]⟩
  advance : ∀ w c d, I w → InRange numSamples w.indices →
    (∀ e, (sampleAt allSamples w.indices c).timestamp.toNat ≤
      (sampleAt allSamples w.indices e).timestamp.toNat) →
    (sampleAt allSamples w.indices c).timestamp.toNat + MAX_PAIR_GAP.toNat ≤
      (sampleAt allSamples w.indices d).timestamp.toNat →
    I { w with indices := Function.update w.indices c (w.indices c + 1) }

theorem keptByPairing_true (allSamples : AllSamples n) (numSamples : ℤ) :
    KeptByPairing allSamples numSamples (fun _ => True) :=
  ⟨fun _ _ _ _ _ _ => trivial, fun _ _ _ _ _ _ _ => trivial⟩

theorem pairStep_progresses (hn : 0 < n) {allSamples : AllSamples n} {numSamples : ℤ}
    {I : Window n → Prop} (hI : KeptByPairing allSamples numSamples I) :
    WhileLoop.Progresses (pairStep allSamples numSamples) I (remaining numSamples) := by
  intro w hw
  rcases pairStep_cases hn allSamples numSamples w with ⟨_, hs⟩ | ⟨hin, hgap, v, hv, hs⟩ |
    ⟨hin, c, d, hmin, hfar, hs⟩
  · exact Or.inl hs
  · exact Or.inr ⟨_, hs, hI.pair w v hw hin hgap hv, remaining_pair hn hin _⟩
  · exact Or.inr ⟨_, hs, hI.advance w c d hw hin hmin hfar, remaining_advance hin c⟩

theorem remaining_start (numSamples : ℤ) (out : List UInt64) :
    remaining numSamples (⟨fun _ => 0, out⟩ : Window n) = n * numSamples.toNat := by
  simp [remaining]

/-- The loop rule of `pair_samples_n`: what both kinds of iteration keep holds at the end. -/
theorem pairSamplesN_total (hn : 0 < n) {allSamples : AllSamples n} {numSamples : ℤ}
    (out : List UInt64) {I : Window n → Prop} (h0 : I ⟨fun _ => 0, out⟩)
    (hI : KeptByPairing allSamples numSamples I) {fuel : ℕ} (hfuel : n * numSamples.toNat < fuel) :
    ∃ w, pairSamplesN fuel allSamples numSamples out =
        some (.ok (Int32.ofNat w.outEffective.length, w.outEffective)) ∧
      I w ∧ ∃ c, numSamples ≤ w.indices c := by
  have hprog := pairStep_progresses hn hI
  have hμ : remaining numSamples (⟨fun _ => 0, out⟩ : Window n) < fuel := by
    rwa [remaining_start]
  obtain ⟨w, hrun, hw, hstop⟩ := WhileLoop.run_total hprog fuel _ h0 hμ
  refine ⟨w, ?_, hw, ?_⟩
  · rw [pairSamplesN, if_neg (by omega), hrun]
    rfl
  · rcases pairStep_cases hn allSamples numSamples w with ⟨hout, _⟩ | ⟨_, _, _, _, hs⟩ |
      ⟨_, _, _, _, _, hs⟩
    · exact hout
    · rw [hs] at hstop
      cases hstop
    · rw [hs] at hstop
      cases hstop

end Tailslayer.Benchmark
