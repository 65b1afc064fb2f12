import Tailslayer.Benchmark.ArmProgress

/-! What the arms report by the end of any run, and the plain path that reports the same. -/
namespace Tailslayer.Benchmark

open ForkJoin (Command)
open Phases (lt_iff)

/-- What is reported about an arm, by whomever. -/
def Shared.reportsOn (v : Shared) (k : ℕ) : List Stats.Report :=
  (v.log.filter fun e => e.1.arm = k).map Prod.snd

/-- A list is a rearrangement of its parts by author. -/
theorem perm_flatMap_filter {α β : Type*} [DecidableEq α] {authors : List α} {l : List (α × β)}
    (hnodup : authors.Nodup) (h : ∀ e ∈ l, e.1 ∈ authors) :
    l.Perm (authors.flatMap fun a => l.filter fun e => e.1 = a) := by
  induction authors generalizing l with
  | nil =>
    cases l with
    | nil => exact .refl _
    | cons e l => exact absurd (h e List.mem_cons_self) List.not_mem_nil
  | cons a authors ih =>
    obtain ⟨ha, hnodup⟩ := List.nodup_cons.mp hnodup
    have hrest : ∀ e ∈ l.filter (fun e => !decide (e.1 = a)), e.1 ∈ authors := by
      intro e he
      obtain ⟨he, hne⟩ := List.mem_filter.mp he
      have hne' : e.1 ≠ a := by simpa using hne
      exact (List.mem_cons.mp (h e he)).resolve_left hne'
    have hsplit := List.filter_append_perm (fun e : α × β => e.1 = a) l
    refine hsplit.symm.trans (.append_left _ ((ih hnodup hrest).trans (.of_eq ?_)))
    refine List.flatMap_congr ?_
    intro b hb
    rw [List.filter_filter]
    refine List.filter_congr ?_
    intro e _
    by_cases he : e.1 = b
    · have hba : b ≠ a := by
        rintro rfl
        exact ha hb
      simp [he, hba]
    · simp [he]

namespace Session

variable {session : Session} {s : State} {k c i : ℕ} {v : Shared}

/-- What a run that came to its end has reported. -/
structure AllReported (session : Session) (v : Shared) : Prop where
  channels : ∀ k < session.arms.length, ∀ c < (session.arm k).numChannels,
    v.reportsOf ⟨k, some c⟩ = session.channelReports k c
  pairs : ∀ k < session.arms.length, v.reportsOf ⟨k, none⟩ = session.pairReports k
  others : ∀ e ∈ v.log, e.1.arm < session.arms.length ∧
    ∀ c, e.1.channel = some c → c < (session.arm e.1.arm).numChannels
  sorted : (v.log.map fun e => e.1.arm).Pairwise (· ≤ ·)

/-- By the end of any interleaving, everything is reported: all channels' statistics of exactly the
samples that their threads took, and those of the pairs. -/
theorem allReported_of_finished (h : session.Reaches s) (hf : session.system.Finished s) :
    session.AllReported s.shared := by
  have hall : ∀ x, x ∈ session.executed s ↔ session.Issues x := by
    intro x
    rw [executed, hf.executed]
    exact mem_executeBenchmarks
  refine ⟨?_, ?_, ?_, log_sorted h⟩
  · intro k hk c hc
    have hjoin : .join (.process k c) ∈ session.executed s := (hall _).mpr ⟨hk, hc⟩
    obtain ⟨z, hz, hended⟩ := ForkJoin.System.ended_of_joined h hjoin
    have hreported := (knows_reported session).worker h hz
    cases z with
    | reading => cases hended
    | reporting rest =>
      cases rest with
      | nil =>
        rw [← List.append_nil (s.shared.reportsOf _)]
        exact hreported
      | cons => cases hended
  · intro k hk
    obtain ⟨m, hm, hreports⟩ := reportsOf_main h k
    obtain rfl : session.pairReportCount k = m := by
      refine Nat.le_antisymm ?_ ?_
      · by_contra hlt
        have hdone := (hall (.act (.report k m))).mpr ⟨hk, by omega⟩
        exact lt_irrefl m ((hm m).mp hdone)
      · by_contra hlt
        have hdone := (hm (session.pairReportCount k)).mpr (by omega)
        obtain ⟨-, hirrefl⟩ := (hall _).mp hdone
        exact lt_irrefl _ hirrefl
    rw [hreports, ← processHedgedData_expected.2, List.take_length]
  · rintro ⟨⟨k, channel⟩, r⟩ he
    have horigin := issues_of_executed (origin_executed h _ he)
    cases channel with
    | none => exact ⟨horigin, by simp⟩
    | some c =>
      obtain ⟨hk, hc⟩ := horigin
      refine ⟨hk, ?_⟩
      rintro c' hc'
      cases hc'
      exact hc

theorem AllReported.reportsOf_eq {u : Shared} (hv : session.AllReported v)
    (hu : session.AllReported u) (author : Author) : v.reportsOf author = u.reportsOf author := by
  have hnone : ∀ {v : Shared}, session.AllReported v →
      ¬ (author.arm < session.arms.length ∧
        ∀ c, author.channel = some c → c < (session.arm author.arm).numChannels) →
      v.reportsOf author = [] := by
    intro v hv hother
    have hnone : v.log.filter (fun e => e.1 = author) = [] := by
      rw [List.filter_eq_nil_iff]
      intro e he hauthor
      obtain rfl := of_decide_eq_true hauthor
      exact hother (hv.others e he)
    rw [Shared.reportsOf, hnone]
    rfl
  by_cases hother : author.arm < session.arms.length ∧
      ∀ c, author.channel = some c → c < (session.arm author.arm).numChannels
  · obtain ⟨k, channel⟩ := author
    obtain ⟨hk, hc⟩ := hother
    cases channel with
    | none => rw [hv.pairs k hk, hu.pairs k hk]
    | some c => rw [hv.channels k hk c (hc c rfl), hu.channels k hk c (hc c rfl)]
  · rw [hnone hv hother, hnone hu hother]

/-- The machine without priorities, for one sample. -/
def refusedOnce : Session := { refused with
  numSamples := 1
  numSamples_lt := by decide }

/-- The processing threads of the two channels run one after the other, this one first. -/
def processFirst (c c' : ℕ) : List (Option Worker) :=
  bothProcessing ++ List.replicate 6 (some (.process 0 c)) ++
    List.replicate 6 (some (.process 0 c')) ++ List.replicate 12 none

/-- How many commands the main thread got through, and the first channel to report. -/
def ending (s : State) : ℕ × Option (Option ℕ) :=
  (s.done, (s.shared.log.map fun e => e.1.channel).head?)

theorem ending_processFirst :
    (refusedOnce.scheduled (processFirst 0 1)).map ending = some (26, some (some 0)) ∧
      (refusedOnce.scheduled (processFirst 1 0)).map ending = some (26, some (some 1)) := by
  decide +kernel

def authors (session : Session) (k : ℕ) : List Author :=
  (List.range (session.arm k).numChannels).map (fun c => ⟨k, some c⟩) ++ [⟨k, none⟩]

theorem nodup_authors (session : Session) (k : ℕ) : (session.authors k).Nodup := by
  rw [authors, List.nodup_append]
  refine ⟨?_, List.nodup_singleton _, by simp⟩
  refine List.Nodup.map ?_ List.nodup_range
  intro c c' he
  cases he
  rfl

/-- The reports on an arm are those of its channels and its pairs, in some order. -/
theorem AllReported.perm (hv : session.AllReported v) (hk : k < session.arms.length) :
    (v.reportsOn k).Perm (((List.range (session.arm k).numChannels).map
      (session.channelReports k)).flatten ++ session.pairReports k) := by
  have hmem : ∀ e ∈ v.log.filter (fun e => e.1.arm = k), e.1 ∈ session.authors k := by
    rintro ⟨⟨k', channel⟩, r⟩ he
    obtain ⟨hlog, hk'⟩ := List.mem_filter.mp he
    obtain rfl : k' = k := by simpa using hk'
    obtain ⟨-, hchannel⟩ := hv.others _ hlog
    cases channel with
    | none => simp [authors]
    | some c => simpa [authors] using hchannel c rfl
  have hpart : ∀ author : Author, author.arm = k →
      ((v.log.filter fun e => e.1.arm = k).filter fun e => e.1 = author).map Prod.snd =
        v.reportsOf author := by
    intro author ha
    rw [List.filter_filter, Shared.reportsOf]
    congr 1
    refine List.filter_congr ?_
    intro e _
    by_cases he : e.1 = author
    · simp [he, ha]
    · simp [he]
  have hperm := (perm_flatMap_filter (session.nodup_authors k) hmem).map Prod.snd
  refine hperm.trans (.of_eq ?_)
  rw [List.map_flatMap, authors, List.flatMap_append, List.flatMap_map, List.flatMap_singleton,
    hpart _ rfl, hv.pairs k hk, List.flatMap_def]
  congr 2
  refine List.map_congr_left ?_
  intro c hc
  exact (hpart _ rfl).trans (hv.channels k hk c (List.mem_range.mp hc))

theorem pairReports_of_le (hn : (session.arm k).numChannels ≤ 1) :
    session.pairReports k = [] := by
  have hlen : (session.pairReports k).length = session.pairReportCount k :=
    processHedgedData_expected.2
  rw [pairReportCount, if_pos hn] at hlen
  exact List.eq_nil_of_length_eq_zero hlen

/-- What `process_and_write` reports on an arm's samples. -/
theorem processAndWrite_expected (session : Session) (k : ℕ) :
    session.stats.processAndWrite (session.arm k).name (session.expectedChannels k)
      session.numSamples =
    some (if (session.arm k).numChannels = 1 then
        session.stats.channelReports
          (Stats.snprintf 128 (ByteStrings.bytes (session.arm k).name)) false
          (session.expectedSamples k 0)
      else ((List.range (session.arm k).numChannels).map (session.channelReports k)).flatten ++
        session.pairReports k) := by
  have hlen : (session.expectedChannels k).length = (session.arm k).numChannels := by
    rw [expectedChannels, List.length_map, List.length_range]
  have hprocess : ∀ c label withStride, session.stats.processChannel label withStride
      (session.expectedSamples k c) session.numSamples =
        .ok (session.stats.channelReports label withStride (session.expectedSamples k c)) := by
    intro c label withStride
    have heq := session.stats.processChannel_eq label withStride (s := session.expectedSamples k c)
      (by rw [length_expectedSamples]; exact session.numSamples_lt)
    rwa [length_expectedSamples] at heq
  have hchannels : ∀ c ∈ List.range (session.arm k).numChannels,
      session.stats.writeChannel (session.arm k).name (session.expectedChannels k)
        session.numSamples c =
      some (if (session.arm k).numChannels = 1 then session.stats.channelReports
        (Stats.snprintf 128 (ByteStrings.bytes (session.arm k).name)) false
        (session.expectedSamples k c)
        else session.channelReports k c) := by
    intro c hc
    have hget : (session.expectedChannels k)[c]? = some (session.expectedSamples k c) := by
      rw [expectedChannels, List.getElem?_map, List.getElem?_range (List.mem_range.mp hc)]
      rfl
    rw [Stats.writeChannel, hget, hlen]
    simp only [Option.bind_eq_bind, Option.bind_some, hprocess]
    split <;> rfl
  rw [Stats.processAndWrite, hlen, Option.mapM_of_some hchannels, processHedgedData_expected.1]
  by_cases hone : (session.arm k).numChannels = 1
  · simp [hone, pairReports_of_le]
  · simp [hone]

/-- With a single channel, there is a single author. -/
theorem AllReported.single (hv : session.AllReported v) (hk : k < session.arms.length)
    (hn : (session.arm k).numChannels = 1) : v.reportsOn k = session.channelReports k 0 := by
  rw [← hv.channels k hk 0 (by omega), Shared.reportsOn, Shared.reportsOf]
  congr 1
  refine List.filter_congr ?_
  rintro ⟨⟨k', channel⟩, r⟩ he
  obtain ⟨-, hchannel⟩ := hv.others _ he
  by_cases hk' : k' = k
  · subst hk'
    cases channel with
    | none =>
      have hnone := hv.pairs k' hk
      rw [pairReports_of_le hn.le, Shared.reportsOf, List.map_eq_nil_iff,
        List.filter_eq_nil_iff] at hnone
      exact absurd (decide_eq_true rfl) (hnone _ he)
    | some c =>
      have hc : c < (session.arm k').numChannels := hchannel c rfl
      obtain rfl : c = 0 := by omega
      simp
  · simp [hk']

/-- With several channels, every interleaving that comes to its end reports on an arm what the plain
path would have reported, in some order. With a single channel the reports are about a channel 0
and its strides, where the plain path reports on the arm itself. -/
theorem reportsOn_perm_processAndWrite (h : session.Reaches s) (hf : session.system.Finished s)
    (hk : k < session.arms.length) :
    (1 < (session.arm k).numChannels → ∃ plain,
      session.stats.processAndWrite (session.arm k).name (session.expectedChannels k)
        session.numSamples = some plain ∧ (s.shared.reportsOn k).Perm plain) ∧
    ((session.arm k).numChannels = 1 →
      s.shared.reportsOn k = session.channelReports k 0 ∧
      session.stats.processAndWrite (session.arm k).name (session.expectedChannels k)
        session.numSamples = some (session.stats.channelReports
          (Stats.snprintf 128 (ByteStrings.bytes (session.arm k).name)) false
          (session.expectedSamples k 0))) := by
  have hv := allReported_of_finished h hf
  rw [processAndWrite_expected]
  constructor
  · intro hn
    exact ⟨_, rfl, by rw [if_neg (by omega)]; exact hv.perm hk⟩
  · intro hn
    exact ⟨hv.single hk hn, by rw [if_pos hn]⟩

theorem reportsOn_perm_processAndWrite_twoChannels : ∃ s plain, twoChannels.Reaches s ∧
    twoChannels.stats.processAndWrite "hedged_stress" (twoChannels.expectedChannels 0) 3 =
      some plain ∧ (s.shared.reportsOn 0).Perm plain := by
  obtain ⟨s, h, hf⟩ := served_twoChannels.exists_finished
  obtain ⟨plain, hplain, hperm⟩ :=
    (reportsOn_perm_processAndWrite (k := 0) h hf (by decide)).1 (by decide)
  exact ⟨s, plain, h, hplain, hperm⟩

theorem expectedSamples_of_givesUp (h : session.givesUp k c = true) :
    session.expectedSamples k c = List.replicate session.numSamples ⟨0, 0⟩ := if_pos h

theorem expectedSamples_of_goes (h : session.givesUp k c = false) : session.expectedSamples k c =
    (List.range session.numSamples).map (session.record k c) := if_neg (Bool.eq_false_iff.mp h)

theorem length_expectedChannels : (session.expectedChannels k).length =
    (session.arm k).numChannels := by
  rw [expectedChannels, List.length_map, List.length_range]

theorem allSamples_expected (d : Fin (session.expectedChannels k).length) (i : ℕ) :
    Stats.allSamples (session.expectedChannels k) d i =
      (session.expectedSamples k d).getD i ⟨0, 0⟩ := by
  have hget : (session.expectedChannels k)[d] = session.expectedSamples k d := by
    rw [Fin.getElem_fin]
    simp [expectedChannels]
  rw [Stats.allSamples, hget]

/-- A channel without measurements reads as zeros. -/
theorem allSamples_of_givesUp {d : Fin (session.expectedChannels k).length}
    (h : session.givesUp k d = true) (i : ℕ) :
    Stats.allSamples (session.expectedChannels k) d i = ⟨0, 0⟩ := by
  rw [allSamples_expected, expectedSamples_of_givesUp h]
  by_cases hi : i < session.numSamples
  · simp [hi]
  · simp [Nat.le_of_not_lt hi]

theorem allSamples_of_goes {d : Fin (session.expectedChannels k).length}
    (h : session.givesUp k d = false) {i : ℕ} (hi : i < session.numSamples) :
    Stats.allSamples (session.expectedChannels k) d i = session.record k d i := by
  rw [allSamples_expected, expectedSamples_of_goes h]
  simp [hi]

theorem pairReports_of_pairChannels (hn : 1 < (session.arm k).numChannels)
    {effective : List UInt64} (hle : effective.length ≤ session.numSamples)
    (h : Stats.pairChannels (session.expectedChannels k) session.numSamples =
      some (Int32.ofNat effective.length, effective)) :
    session.pairReports k = session.stats.pairsReports (session.arm k).name session.numSamples
      (session.arm k).numChannels effective := by
  have hpairs := session.stats.processPairs_of_pairChannels (session.arm k).name
    session.numSamples_lt hle h
  rw [pairReports, Stats.processHedgedData, length_expectedChannels, if_neg (by omega), hpairs,
    length_expectedChannels]
  rfl

/-- A channel without measurements keeps the others from being paired, if these are late enough for
the zeros. -/
theorem pairReports_of_gap {c' : ℕ} (hc : c < (session.arm k).numChannels)
    (hc' : c' < (session.arm k).numChannels) (hgave : session.givesUp k c = true)
    (hgoes : session.givesUp k c' = false)
    (hclock : ∀ i < session.numSamples, MAX_PAIR_GAP ≤ (session.clock k c' i).1) :
    session.pairReports k = session.stats.pairsReports (session.arm k).name session.numSamples
      (session.arm k).numChannels [] := by
  have hne : c ≠ c' := by
    rintro rfl
    rw [hgave] at hgoes
    cases hgoes
  have hlen : (session.expectedChannels k).length = (session.arm k).numChannels :=
    length_expectedChannels
  let d : Fin (session.expectedChannels k).length := ⟨c, hlen ▸ hc⟩
  let d' : Fin (session.expectedChannels k).length := ⟨c', hlen ▸ hc'⟩
  have hkept : KeptByPairing (Stats.allSamples (session.expectedChannels k))
      (session.numSamples : ℤ) (fun w => w.outEffective = []) := by
    constructor
    · intro w v _ hin hgap _
      -- the zeros and the late measurement are too far apart
      have hi : w.indices d' < session.numSamples := by exact_mod_cast hin d'
      have hlt := hgap d' d
      rw [sampleAt, sampleAt, allSamples_of_givesUp (d := d) hgave,
        allSamples_of_goes (d := d') hgoes hi] at hlt
      have hle := UInt64.le_iff_toNat_le.mp (hclock _ hi)
      change (session.clock k c' _).1.toNat < 0 + _ at hlt
      omega
    · intro w c d hw _ _ _
      exact hw
  have hpos : 0 < (session.expectedChannels k).length := Nat.zero_lt_of_lt d.isLt
  obtain ⟨w, hrun, hw, -⟩ := Stats.pairChannels_of_kept hpos (by rfl) hkept
  rw [hw] at hrun
  have hn : 1 < (session.arm k).numChannels := by omega
  exact pairReports_of_pairChannels hn (Nat.zero_le _) hrun

/-- Channels without any measurement are paired all along, at no latency. -/
theorem pairReports_of_all_gave_up (hn : 1 < (session.arm k).numChannels)
    (hgave : ∀ c < (session.arm k).numChannels, session.givesUp k c = true) :
    session.pairReports k = session.stats.pairsReports (session.arm k).name session.numSamples
      (session.arm k).numChannels (List.replicate session.numSamples 0) := by
  have hlen : (session.expectedChannels k).length = (session.arm k).numChannels :=
    length_expectedChannels
  have hzero : ∀ (t : IndexTuple (session.expectedChannels k).length) d,
      sampleAt (Stats.allSamples (session.expectedChannels k)) t d = ⟨0, 0⟩ :=
    fun t d => allSamples_of_givesUp (hgave d (hlen ▸ d.isLt)) _
  have hkept : KeptByPairing (Stats.allSamples (session.expectedChannels k))
      (session.numSamples : ℤ) (fun w => ∃ m, m ≤ session.numSamples ∧
        w.indices = (fun _ => m) ∧ w.outEffective = List.replicate m 0) := by
    constructor
    · rintro w v ⟨m, -, hm, hout⟩ hin - ⟨⟨d, hd⟩, -⟩
      have hlt : m < session.numSamples := by
        have hind := hin d
        rw [hm] at hind
        exact_mod_cast hind
      obtain rfl : v = 0 := by rw [← hd, hzero]
      refine ⟨m + 1, hlt, by rw [hm], ?_⟩
      rw [hout, List.replicate_succ']
    · intro w c d hw _ _ hfar
      rw [hzero, hzero] at hfar
      exact absurd hfar (by decide)
  obtain ⟨w, hrun, ⟨m, hm, hind, hout⟩, d, hd⟩ :=
    Stats.pairChannels_of_kept (by omega) ⟨0, Nat.zero_le _, rfl, rfl⟩ hkept
  rw [hind] at hd
  obtain rfl : m = session.numSamples := Nat.le_antisymm hm hd
  rw [hout] at hrun
  exact pairReports_of_pairChannels hn (by rw [List.length_replicate]) hrun

end Session

end Tailslayer.Benchmark
