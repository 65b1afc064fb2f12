import Tailslayer.Benchmark.Pairing

/-! The loop of `pair_samples_n` as a run of iterations: what each of them reads and moves. -/
namespace Tailslayer.Benchmark

variable {n : ℕ} {allSamples : AllSamples n} {numSamples : ℤ} {w : Window n} {out : List UInt64}
  {k : ℕ}

/-- The loop over the channels, with the samples that it reads. -/
def scanReads (allSamples : AllSamples n) (numSamples : ℤ) (indices : Fin n → ℕ) :
    List (Fin n) → Spread n → List (Fin n × ℕ) × Option (Spread n)
  | [], sp => ([], some sp)
  | c :: cs, sp =>
    if numSamples ≤ indices c then ([], none)
    else
      let rest := scanReads allSamples numSamples indices cs
        (sp.add c (allSamples c (indices c)))
      ((c, indices c) :: rest.1, rest.2)

def reads (allSamples : AllSamples n) (numSamples : ℤ) (indices : Fin n → ℕ) :
    List (Fin n × ℕ) :=
  (scanReads allSamples numSamples indices (List.finRange n) .start).1

/-- The reads belong to the modelled loop: without them it is `scan`. -/
theorem scanReads_snd (allSamples : AllSamples n) (numSamples : ℤ) (indices : Fin n → ℕ) :
    (scanReads allSamples numSamples indices (List.finRange n) .start).2 =
      scan allSamples numSamples indices := by
  have hgeneral : ∀ cs sp, (scanReads allSamples numSamples indices cs sp).2 =
      cs.foldlM (fun sp c => if numSamples ≤ indices c then none
        else some (sp.add c (allSamples c (indices c)))) sp := by
    intro cs
    induction cs with
    | nil => intro sp; rfl
    | cons c cs ih =>
      intro sp
      rw [List.foldlM_cons, scanReads]
      split
      · rfl
      · exact ih _
  exact hgeneral _ _

theorem mem_scanReads {indices : Fin n → ℕ} {cs : List (Fin n)} {sp : Spread n} {r : Fin n × ℕ}
    (h : r ∈ (scanReads allSamples numSamples indices cs sp).1) :
    r.2 = indices r.1 ∧ (indices r.1 : ℤ) < numSamples := by
  induction cs generalizing sp with
  | nil => cases h
  | cons c cs ih =>
    rw [scanReads] at h
    split at h
    · cases h
    · next hin =>
      rcases List.mem_cons.mp h with rfl | h
      · exact ⟨rfl, lt_of_not_ge hin⟩
      · exact ih h

/-- An iteration reads inside the sample arrays, knows a lagging channel when it needs one, and
stops or moves some index on. The indices stay within `num_samples`, so they stay `int`s. -/
structure SafeIteration (allSamples : AllSamples n) (numSamples : ℤ) (w : Window n) : Prop where
  indices_le : ∀ c, (w.indices c : ℤ) ≤ numSamples
  reads : ∀ r ∈ reads allSamples numSamples w.indices, 0 ≤ (r.2 : ℤ) ∧ (r.2 : ℤ) < numSamples
  lagging : ∀ sp, scan allSamples numSamples w.indices = some sp →
    ¬ sp.maxTs - sp.minTs < MAX_PAIR_GAP → ∃ c, sp.minIdxChannel = some c
  moves : pairStep allSamples numSamples w = .ok none ∨
    ∃ w', pairStep allSamples numSamples w = .ok (some w') ∧
      (∀ c, w.indices c ≤ w'.indices c) ∧ ∃ c, w.indices c < w'.indices c

theorem moves_pairStep (hn : 0 < n) (allSamples : AllSamples n) (numSamples : ℤ) (w : Window n) :
    pairStep allSamples numSamples w = .ok none ∨
      ∃ w', pairStep allSamples numSamples w = .ok (some w') ∧
        (∀ c, w.indices c ≤ w'.indices c) ∧ ∃ c, w.indices c < w'.indices c := by
  rcases pairStep_cases hn allSamples numSamples w with ⟨_, hs⟩ | ⟨_, _, v, _, hs⟩ |
    ⟨_, c, _, _, _, hs⟩
  · exact Or.inl hs
  · exact Or.inr ⟨_, hs, fun c => Nat.le_succ _, ⟨0, hn⟩, Nat.lt_succ_self _⟩
  · refine Or.inr ⟨_, hs, ?_, c, ?_⟩
    · intro d
      change w.indices d ≤ Function.update w.indices c (w.indices c + 1) d
      rcases update_succ_cases w.indices c d with ⟨_, he⟩ | ⟨_, he⟩
      · rw [he]
        exact Nat.le_succ _
      · rw [he]
    · change w.indices c < Function.update w.indices c (w.indices c + 1) c
      rw [Function.update_self]
      exact Nat.lt_succ_self _

/-- The else branch with `min_idx_channel == -1` would fault, which no iteration does. -/
theorem lagging_of_pairStep (hn : 0 < n) {sp : Spread n}
    (hs : scan allSamples numSamples w.indices = some sp)
    (hgap : ¬ sp.maxTs - sp.minTs < MAX_PAIR_GAP) : ∃ c, sp.minIdxChannel = some c := by
  cases hc : sp.minIdxChannel with
  | some c => exact ⟨c, rfl⟩
  | none =>
    have hfault : pairStep allSamples numSamples w = .error .negativeIndex := by
      simp [pairStep, hs, hgap, hc]
    rcases moves_pairStep hn allSamples numSamples w with h | ⟨_, h, _⟩
    · rw [hfault] at h
      cases h
    · rw [hfault] at h
      cases h

def IndicesLe (numSamples : ℤ) (w : Window n) : Prop := ∀ c, (w.indices c : ℤ) ≤ numSamples

theorem indicesLe_pair {v : UInt64} (hin : InRange numSamples w.indices) :
    IndicesLe numSamples ⟨fun c => w.indices c + 1, w.outEffective ++ [v]⟩ := by
  intro c
  have hc := hin c
  change ((w.indices c + 1 : ℕ) : ℤ) ≤ numSamples
  omega

theorem indicesLe_advance (h : IndicesLe numSamples w) (hin : InRange numSamples w.indices)
    (c : Fin n) : IndicesLe numSamples
      { w with indices := Function.update w.indices c (w.indices c + 1) } := by
  intro d
  change ((Function.update w.indices c (w.indices c + 1) d : ℕ) : ℤ) ≤ numSamples
  rcases update_succ_cases w.indices c d with ⟨_, he⟩ | ⟨_, he⟩
  · have hd := hin d
    rw [he]
    omega
  · rw [he]
    exact h d

theorem pairStep_progresses_indicesLe (hn : 0 < n) (allSamples : AllSamples n) (numSamples : ℤ) :
    WhileLoop.Progresses (pairStep allSamples numSamples) (IndicesLe numSamples)
      (remaining numSamples) :=
  pairStep_progresses hn ⟨fun _ _ _ hin _ _ => indicesLe_pair hin,
    fun _ c _ h hin _ _ => indicesLe_advance h hin c⟩

/-- Whatever the samples: every iteration that the loop gets to is safe and is among the first
`n_channels * num_samples + 1`, and within as many iterations the loop ends. -/
theorem pairSamplesN_safe (hn : 0 < n) (hs : 0 ≤ numSamples) (allSamples : AllSamples n)
    (out : List UInt64) :
    (∀ k w, WhileLoop.Reaches (pairStep allSamples numSamples) ⟨fun _ => 0, out⟩ k w →
      SafeIteration allSamples numSamples w ∧ k + 1 ≤ n * numSamples.toNat + 1) ∧
    ∃ out', pairSamplesN (n * numSamples.toNat + 1) allSamples numSamples out =
      some (.ok (Int32.ofNat out'.length, out')) := by
  have hprog := pairStep_progresses_indicesLe hn allSamples numSamples
  have hstart : IndicesLe numSamples (⟨fun _ => 0, out⟩ : Window n) := fun _ => hs
  constructor
  · intro k w hreach
    obtain ⟨hle, hμ⟩ := hreach.measure_add_le hprog hstart
    rw [remaining_start] at hμ
    refine ⟨⟨hle, ?_, fun sp h hgap => lagging_of_pairStep hn h hgap,
      moves_pairStep hn allSamples numSamples w⟩, by omega⟩
    intro r hr
    obtain ⟨hindex, hlt⟩ := mem_scanReads hr
    rw [hindex]
    exact ⟨Int.natCast_nonneg _, hlt⟩
  · obtain ⟨w, hrun, _⟩ := pairSamplesN_total hn out trivial
      (keptByPairing_true allSamples numSamples) (Nat.lt_succ_self _)
    exact ⟨w.outEffective, hrun⟩

/-- Two channels whose timestamps are all the largest, the smallest or equal. -/
theorem pairSamplesN_safe_extremeTimestamps :
    (∀ k w, WhileLoop.Reaches
      (pairStep (n := 2) (fun c _ => ⟨if c = 0 then UINT64_MAX else 0, 5⟩) 3)
      ⟨fun _ => 0, []⟩ k w →
      SafeIteration (n := 2) (fun c _ => ⟨if c = 0 then UINT64_MAX else 0, 5⟩) 3 w ∧
        k + 1 ≤ 2 * (3 : ℤ).toNat + 1) ∧
    ∃ out', pairSamplesN (n := 2) (2 * (3 : ℤ).toNat + 1)
      (fun c _ => ⟨if c = 0 then UINT64_MAX else 0, 5⟩) 3 [] =
        some (.ok (Int32.ofNat out'.length, out')) :=
  pairSamplesN_safe (by decide) (by decide) _ _

end Tailslayer.Benchmark
