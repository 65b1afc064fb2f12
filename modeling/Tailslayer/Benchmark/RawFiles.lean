import Tailslayer.Benchmark.ArmResults
import Tailslayer.Scripts.PlotLatencies

/-! The latencies that the arms leave on the disk, and what `plot_latencies.py` draws of them. -/
namespace Tailslayer.Benchmark

open ByteStrings
open PlotLatencies (plotFile IsSurvival)

/-- The names that `execute_benchmarks` gives to the arms. -/
def armNames : List String := ["single_quiet", "hedged_quiet", "single_stress", "hedged_stress"]

/-- The lines of the files, by their paths. -/
abbrev Disk := List UInt8 → Option (List String)

namespace Disk

/-- `fopen(path, "w")` empties a file that is already there. -/
def write (disk : Disk) : Stats.Report → Disk
  | .file path lines => Function.update disk path (some lines)
  | _ => disk

def after (disk : Disk) (log : List (Author × Stats.Report)) : Disk :=
  log.foldl (fun disk e => disk.write e.2) disk

variable {disk : Disk} {log : List (Author × Stats.Report)} {path : List UInt8}
  {lines : List String}

theorem write_of_ne {r : Stats.Report} (h : ∀ lines, r ≠ .file path lines) :
    disk.write r path = disk path := by
  cases r with
  | file p lines =>
    have hp : path ≠ p := by
      rintro rfl
      exact h lines rfl
    exact Function.update_of_ne hp _ _
  | _ => rfl

/-- A file that nobody writes stays as it is. -/
theorem after_of_not_written (h : ∀ e ∈ log, ∀ lines, e.2 ≠ .file path lines) :
    disk.after log path = disk path := by
  induction log generalizing disk with
  | nil => rfl
  | cons e log ih =>
    rw [after, List.foldl_cons, ← after, ih fun e' he' => h e' (List.mem_cons_of_mem e he')]
    exact write_of_ne (h e List.mem_cons_self)

variable (disk) in
/-- A file that is written holds what one of the writes put there. -/
theorem after_of_written (hex : ∃ e ∈ log, ∃ lines, e.2 = .file path lines) :
    ∃ e ∈ log, ∃ lines, e.2 = .file path lines ∧ disk.after log path = some lines := by
  -- by induction from the last write on
  induction log using List.reverseRecOn with
  | nil =>
    obtain ⟨e, he, -⟩ := hex
    cases he
  | append_singleton log e ih =>
    have hlast : disk.after (log ++ [e]) path = (disk.after log).write e.2 path := by
      rw [after, List.foldl_append, ← after]
      rfl
    rw [hlast]
    by_cases he : ∃ lines, e.2 = .file path lines
    · obtain ⟨lines, he⟩ := he
      refine ⟨e, by simp, lines, he, ?_⟩
      rw [he]
      exact Function.update_self _ _ _
    · rw [write_of_ne fun lines hl => he ⟨lines, hl⟩]
      obtain ⟨e', he', hfile⟩ := hex
      rcases List.mem_append.mp he' with he' | he'
      · obtain ⟨e'', he'', hafter⟩ := ih ⟨e', he', hfile⟩
        exact ⟨e'', List.mem_append_left _ he'', hafter⟩
      · obtain rfl := List.mem_singleton.mp he'
        exact absurd hfile he

end Disk

namespace Session

variable {session : Session} {s : State} {k c : ℕ} {v : Shared} {author : Author}

/-- The effective latencies of the pairs of an arm. -/
def effective (session : Session) (k : ℕ) : List UInt64 :=
  ((Stats.pairChannels (session.expectedChannels k) session.numSamples).map Prod.snd).getD []

/-- The name in the path of a dump. -/
def dumpLabel (session : Session) (author : Author) : List UInt8 :=
  match author.channel with
  | some c => Stats.channelLabel (session.arm author.arm).name c
  | none => bytes (session.arm author.arm).name

def dumpPath (session : Session) (author : Author) : List UInt8 :=
  session.stats.rawPath (session.dumpLabel author)

/-- The latencies that are dumped. -/
def latencies (session : Session) (author : Author) : List UInt64 :=
  match author.channel with
  | some c => (session.expectedSamples author.arm c).map Sample.latency
  | none => session.effective author.arm

/-- The channels of the arms, and the pairs of the arms with several channels. -/
def Dumps (session : Session) (author : Author) : Prop :=
  author.arm < session.arms.length ∧
    match author.channel with
    | some c => c < (session.arm author.arm).numChannels
    | none => 1 < (session.arm author.arm).numChannels

theorem file_mem_printPercentiles {stats : Stats} {path label : List UInt8}
    {lines : List String} {n : ℤ} {p : Stats.Percentiles} {mean : ℚ} :
    .file path lines ∉ stats.printPercentiles label n p mean := by
  simp [Stats.printPercentiles]

theorem file_mem_dump {stats : Stats} {path label : List UInt8} {lines : List String}
    {lat : List UInt64} : .file path lines ∈ stats.dumpRawLatencies label lat ↔
      stats.rawPrefix ≠ [] ∧ stats.fopen (stats.rawPath label) = true ∧
        path = stats.rawPath label ∧ lines = Stats.dumpLines lat := by
  unfold Stats.dumpRawLatencies
  dsimp only
  split
  · next hempty => simp [hempty]
  · next hshort =>
    split
    · next hopen => simp [hshort, hopen]
    · next hopen => simp [hopen]

theorem file_mem_channelReports {path : List UInt8} {lines : List String} :
    .file path lines ∈ session.channelReports k c ↔
      session.stats.rawPrefix ≠ [] ∧ session.stats.fopen (session.dumpPath ⟨k, some c⟩) = true ∧
        path = session.dumpPath ⟨k, some c⟩ ∧
        lines = Stats.dumpLines (Stats.sort (session.latencies ⟨k, some c⟩)) := by
  have hstride : .file path lines ∉ Stats.strideReport
      (Stats.channelLabel (session.arm k).name c) (session.expectedSamples k c) := by
    unfold Stats.strideReport
    split <;> simp
  simp only [channelReports, Stats.channelReports, if_true, List.mem_append,
    file_mem_printPercentiles, hstride, Stats.emitCsvRow, List.mem_singleton, reduceCtorEq,
    false_or, file_mem_dump]
  rfl

theorem pairReports_effective (hn : 1 < (session.arm k).numChannels) :
    session.pairReports k = session.stats.pairsReports (session.arm k).name session.numSamples
      (session.arm k).numChannels (session.effective k) := by
  have hpos : 0 < (session.expectedChannels k).length := by
    rw [length_expectedChannels]
    omega
  obtain ⟨effective, hle, hpairs⟩ := Stats.pairChannels_eq (n := session.numSamples) hpos
  have heffective : session.effective k = effective := by rw [Session.effective, hpairs]; rfl
  rw [heffective]
  exact pairReports_of_pairChannels hn hle hpairs

theorem file_mem_pairReports {path : List UInt8} {lines : List String} :
    .file path lines ∈ session.pairReports k ↔ 1 < (session.arm k).numChannels ∧
      session.stats.rawPrefix ≠ [] ∧ session.stats.fopen (session.dumpPath ⟨k, none⟩) = true ∧
        path = session.dumpPath ⟨k, none⟩ ∧
        lines = Stats.dumpLines (Stats.sort (session.latencies ⟨k, none⟩)) := by
  by_cases hn : 1 < (session.arm k).numChannels
  · simp only [pairReports_effective hn, Stats.pairsReports, List.mem_append,
      file_mem_printPercentiles, Stats.emitCsvRow, List.mem_singleton, reduceCtorEq, false_or,
      file_mem_dump, hn, true_and]
    rfl
  · have hnone : session.pairReports k = [] := by
      rw [pairReports, Stats.processHedgedData, length_expectedChannels, if_pos (by omega)]
      rfl
    simp [hnone, hn]

theorem mem_reportsOf {r : Stats.Report} : r ∈ v.reportsOf author ↔ (author, r) ∈ v.log := by
  simp [Shared.reportsOf]

/-- The files that are written in any run that came to its end. -/
theorem file_mem_log (hv : session.AllReported v) {path : List UInt8} {lines : List String} :
    (author, .file path lines) ∈ v.log ↔ session.Dumps author ∧
      session.stats.rawPrefix ≠ [] ∧ session.stats.fopen (session.dumpPath author) = true ∧
        path = session.dumpPath author ∧
        lines = Stats.dumpLines (Stats.sort (session.latencies author)) := by
  obtain ⟨k, channel⟩ := author
  rw [← mem_reportsOf]
  by_cases hk : k < session.arms.length
  · cases channel with
    | none =>
      rw [hv.pairs k hk, file_mem_pairReports]
      simp [Dumps, hk]
    | some c =>
      by_cases hc : c < (session.arm k).numChannels
      · rw [hv.channels k hk c hc, file_mem_channelReports]
        simp [Dumps, hk, hc]
      · refine iff_of_false (fun hmem => hc ?_) (fun hdumps => hc hdumps.1.2)
        exact (hv.others _ (mem_reportsOf.mp hmem)).2 c rfl
  · refine iff_of_false (fun hmem => hk ?_) (fun hdumps => hk hdumps.1.1)
    exact (hv.others _ (mem_reportsOf.mp hmem)).1

/-- The arms have the names of `execute_benchmarks`, each at most once, and the numbers of channels
are those of an `int`. -/
structure Named (session : Session) : Prop where
  known : ∀ k < session.arms.length, (session.arm k).name ∈ armNames
  distinct : (session.arms.map ArmThreads.name).Nodup
  channels : ∀ k < session.arms.length, (session.arm k).numChannels < 2 ^ 31

/-- Twelve letters tell the arms apart. -/
theorem armNames_take : ∀ name ∈ armNames, ∀ name' ∈ armNames,
    (bytes name).take 12 = (bytes name').take 12 → name = name' := by
  decide

theorem length_armNames : ∀ name ∈ armNames, 12 ≤ (bytes name).length ∧
    (bytes name).length ≤ 13 := by
  decide

theorem Named.arm_inj (hn : session.Named) {k' : ℕ} (hk : k < session.arms.length)
    (hk' : k' < session.arms.length) (h : (session.arm k).name = (session.arm k').name) :
    k = k' := by
  have hname : ∀ {i}, i < session.arms.length →
      (session.arms.map ArmThreads.name)[i]? = some (session.arm i).name := by
    intro i hi
    simp [arm, hi]
  refine (List.getElem?_inj (by simpa using hk) hn.distinct).mp ?_
  rw [hname hk, hname hk', h]

theorem snprintf_of_lt {size : ℕ} {text : List UInt8} (h : text.length < size) :
    Stats.snprintf size text = text := by
  rw [Stats.snprintf, List.take_of_length_le (by omega)]

/-- The part of a label after the name of the arm. -/
def labelSuffix : Option ℕ → List UInt8
  | some c => bytes "_ch" ++ bytes c.repr
  | none => []

theorem labelSuffix_inj {channel channel' : Option ℕ}
    (h : labelSuffix channel = labelSuffix channel') : channel = channel' := by
  have hmark : (bytes "_ch").length = 3 := rfl
  cases channel with
  | none =>
    cases channel' with
    | none => rfl
    | some c =>
      have hlen := congrArg List.length h
      simp only [labelSuffix, List.length_append, List.length_nil] at hlen
      omega
  | some c =>
    cases channel' with
    | none =>
      have hlen := congrArg List.length h
      simp only [labelSuffix, List.length_append, List.length_nil] at hlen
      omega
    | some c' =>
      have hrepr : c.repr = c'.repr := bytes_inj (List.append_cancel_left h)
      have hdigits : Nat.toDigits 10 c = Nat.toDigits 10 c' := by
        rw [← Nat.toList_repr, hrepr, Nat.toList_repr]
      have hvalue := congrArg (fun l => Nat.ofDigitChars 10 l 0) hdigits
      simp only [Nat.ofDigitChars_toDigits (b := 10) (by decide) (by decide)] at hvalue
      rw [hvalue]

theorem Named.dumpLabel_eq (hn : session.Named) (ha : session.Dumps author) :
    session.dumpLabel author =
      bytes (session.arm author.arm).name ++ labelSuffix author.channel ∧
    (session.dumpLabel author).length ≤ 26 := by
  obtain ⟨k, channel⟩ := author
  obtain ⟨hk, hc⟩ := ha
  have hlen := (length_armNames _ (hn.known k hk)).2
  cases channel with
  | none =>
    simp only [dumpLabel, labelSuffix, List.append_nil]
    exact ⟨trivial, by omega⟩
  | some c =>
    have hmark : (bytes "_ch").length = 3 := rfl
    have hdigits : (Nat.toDigits 10 c).length ≤ 10 := by
      rw [Nat.length_toDigits_le_iff (by decide) (by decide)]
      have hc' := hn.channels k hk
      simp only at hc
      omega
    have htext : (bytes (session.arm k).name ++ bytes "_ch" ++ bytes c.repr).length ≤ 26 := by
      rw [List.length_append, List.length_append, length_bytes_repr]
      omega
    simp only [dumpLabel, Stats.channelLabel, labelSuffix]
    rw [snprintf_of_lt (by omega), ← List.append_assoc]
    exact ⟨rfl, htext⟩

/-- With a prefix of at most 480 bytes no two dumps go to the same file. -/
theorem Named.dumpPath_inj (hn : session.Named)
    (hshort : session.stats.rawPrefix.length ≤ 480) {author' : Author}
    (ha : session.Dumps author) (ha' : session.Dumps author')
    (h : session.dumpPath author = session.dumpPath author') : author = author' := by
  obtain ⟨hlabel, hlen⟩ := hn.dumpLabel_eq ha
  obtain ⟨hlabel', hlen'⟩ := hn.dumpLabel_eq ha'
  have hends : (bytes "_").length = 1 ∧ (bytes ".csv").length = 4 := ⟨rfl, rfl⟩
  simp only [dumpPath, Stats.rawPath] at h
  rw [snprintf_of_lt (by simp only [List.length_append]; omega),
    snprintf_of_lt (by simp only [List.length_append]; omega)] at h
  have hsame := List.append_cancel_left (List.append_cancel_right h)
  rw [hlabel, hlabel'] at hsame
  have hname := hn.known _ ha.1
  have hname' := hn.known _ ha'.1
  have htake := congrArg (List.take 12) hsame
  rw [List.take_append_of_le_length (length_armNames _ hname).1,
    List.take_append_of_le_length (length_armNames _ hname').1] at htake
  have harm := armNames_take _ hname _ hname' htake
  rw [harm] at hsame
  obtain ⟨k, channel⟩ := author
  obtain ⟨k', channel'⟩ := author'
  obtain rfl := hn.arm_inj ha.1 ha'.1 harm
  have hchannel : channel = channel' := labelSuffix_inj (List.append_cancel_left hsame)
  rw [hchannel]

/-- The file of a dump holds a dump, though maybe not its own. -/
theorem disk_of_dumped (hv : session.AllReported v) (hne : session.stats.rawPrefix ≠ [])
    (ha : session.Dumps author) (hopen : session.stats.fopen (session.dumpPath author) = true)
    (disk : Disk) : ∃ author', session.Dumps author' ∧
      session.dumpPath author' = session.dumpPath author ∧
      disk.after v.log (session.dumpPath author) =
        some (Stats.dumpLines (Stats.sort (session.latencies author'))) := by
  obtain ⟨⟨author', r⟩, he, lines, hr, hafter⟩ := Disk.after_of_written disk
    ⟨_, (file_mem_log hv).mpr ⟨ha, hne, hopen, rfl, rfl⟩, _, rfl⟩
  obtain rfl : r = _ := hr
  obtain ⟨ha', -, -, hpath, rfl⟩ := (file_mem_log hv).mp he
  exact ⟨author', ha', hpath.symm, hafter⟩

theorem disk_of_short (hv : session.AllReported v) (hn : session.Named)
    (hshort : session.stats.rawPrefix.length ≤ 480) (hne : session.stats.rawPrefix ≠ [])
    (ha : session.Dumps author) (hopen : session.stats.fopen (session.dumpPath author) = true)
    (disk : Disk) : disk.after v.log (session.dumpPath author) =
      some (Stats.dumpLines (Stats.sort (session.latencies author))) := by
  obtain ⟨author', ha', hpath, hafter⟩ := disk_of_dumped hv hne ha hopen disk
  rw [hafter, hn.dumpPath_inj hshort ha' ha hpath]

theorem disk_of_not_dumped (hv : session.AllReported v) {path : List UInt8}
    (hpath : ∀ author, session.Dumps author → path ≠ session.dumpPath author) (disk : Disk) :
    disk.after v.log path = disk path := by
  refine Disk.after_of_not_written ?_
  rintro ⟨author, r⟩ he lines hr
  obtain rfl : r = _ := hr
  obtain ⟨ha, -, -, rfl, -⟩ := (file_mem_log hv).mp he
  exact hpath author ha rfl

/-- The session of two channels, with a prefix for its dumps. -/
def twoChannelsDumped : Session := { twoChannels with
  stats := ⟨3, bytes "run", fun _ => true⟩ }

theorem named_twoChannelsDumped : twoChannelsDumped.Named where
  known := by decide
  distinct := by decide
  channels := by decide

theorem served_twoChannelsDumped : twoChannelsDumped.Served where
  memory := fun _ _ _ _ => rfl
  cores := by decide
  stress := by decide

/-- With a prefix that fills the buffer of the path all dumps go to one file, and it holds one of
them in the end. -/
theorem dumps_collide (h : session.Reaches s) (hf : session.system.Finished s)
    (hlong : 511 ≤ session.stats.rawPrefix.length)
    (ha : session.Dumps author) (hopen : session.stats.fopen (session.dumpPath author) = true)
    (disk : Disk) :
    (∀ author', session.dumpPath author' = session.dumpPath author) ∧
    ∃ author', session.Dumps author' ∧ disk.after s.shared.log (session.dumpPath author) =
      some (Stats.dumpLines (Stats.sort (session.latencies author'))) := by
  have hpath : ∀ author', session.dumpPath author' = session.stats.rawPrefix.take 511 := by
    intro author'
    rw [dumpPath, Stats.rawPath, Stats.snprintf, List.append_assoc, List.append_assoc,
      List.take_append_of_le_length hlong]
  have hne : session.stats.rawPrefix ≠ [] := by
    intro hempty
    rw [hempty] at hlong
    exact absurd hlong (by decide)
  refine ⟨fun author' => (hpath author').trans (hpath author).symm, ?_⟩
  obtain ⟨author', ha', -, hafter⟩ :=
    disk_of_dumped (allReported_of_finished h hf) hne ha hopen disk
  exact ⟨author', ha', hafter⟩

end Session

end Tailslayer.Benchmark
