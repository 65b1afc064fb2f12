import Tailslayer.ThreadManager.Counters
import Mathlib.Data.List.TakeWhile

/-! Topology detection on Linux: the processors are read from files, the counts are not set
(`proc.cpp`). -/
namespace Tailslayer.Linux

open DynamicThreadManager

/-- `cpu_set_t` -/
abbrev CpuSet := BitVec 1024

/-- `CPU_SET` leaves a set as it is for a processor that has no place in it. -/
def cpuSet (i : ℕ) (s : CpuSet) : CpuSet := s ||| BitVec.twoPow 1024 i

def cpuIsSet (i : ℕ) (s : CpuSet) : Bool := s.getLsbD i

def isSpace (c : UInt8) : Bool := c = 32 || 9 ≤ c && c ≤ 13

def isDigit (c : UInt8) : Bool := 48 ≤ c && c ≤ 57

/-- `strtoll` to base 10, with its clamping; `none` when it converts nothing. -/
def strtoll (buf : List UInt8) : Option Int64 :=
  let unsigned (negative : Bool) (s : List UInt8) : Option Int64 :=
    let digits := s.takeWhile isDigit
    if digits = [] then none
    else
      let value : ℤ := digits.foldl (fun v c => 10 * v + (c.toNat - 48 : ℕ)) 0
      let value := if negative then -value else value
      some (Int64.ofInt (max (-2 ^ 63) (min value (2 ^ 63 - 1))))
  match buf.dropWhile isSpace with
  | 45 :: s => unsigned true s
  | 43 :: s => unsigned false s
  | s => unsigned false s

/-- What is read of a file is at most 31 bytes; `none` when it cannot be read. -/
def readSysfsInt (contents : Option (List UInt8)) : Int64 :=
  match contents with
  | none => -1
  | some bytes => if bytes = [] then -1 else (strtoll (bytes.take 31)).getD (-1)

/-- What the operating system answers to the calls of the parser. -/
structure System where
  numProcessors : Int32
  allowedMask : Option CpuSet
  coreIDFile : ℕ → Option (List UInt8)
  packageIDFile : ℕ → Option (List UInt8)

namespace System

def readCoreID (sys : System) (i : ℕ) : Int64 := readSysfsInt (sys.coreIDFile i)

def readPackageID (sys : System) (i : ℕ) : Int64 := readSysfsInt (sys.packageIDFile i)

/-- The files of the processor do not hold, or count as, -1. -/
def Readable (sys : System) (i : ℕ) : Prop :=
  sys.readCoreID i ≠ -1 ∧ sys.readPackageID i ≠ -1

instance (sys : System) (i : ℕ) : Decidable (sys.Readable i) :=
  inferInstanceAs (Decidable (_ ∧ _))

/-- The casts to the widths of the fields. -/
def coreID (sys : System) (i : ℕ) : UInt32 := (sys.readCoreID i).toUInt64.toUInt32

def pkgID (sys : System) (i : ℕ) : UInt16 := (sys.readPackageID i).toUInt64.toUInt16

def processor (sys : System) (allowedMask : CpuSet) (i : ℕ) : LogicalProcessor CpuSet where
  globalID := UInt32.ofNat i
  coreID := sys.coreID i
  pkgID := sys.pkgID i
  usable := if cpuIsSet i allowedMask then 1 else 0
  affinityMask := cpuSet i 0

/-- The number of rounds of the loop. -/
def rounds (sys : System) : ℕ := sys.numProcessors.toInt.toNat

end System

/-- The loop over the processors, given those that are left. -/
def readProcessors (sys : System) (allowedMask : CpuSet) :
    List ℕ → List (LogicalProcessor CpuSet) → Bool × List (LogicalProcessor CpuSet)
  | [], proc => (true, proc)
  | i :: rest, proc =>
    if sys.Readable i then
      readProcessors sys allowedMask rest (proc ++ [sys.processor allowedMask i])
    else (false, proc)

def processCurrentConfiguration (sys : System) (cfg : ProcessorConfigurationVector CpuSet) :
    Bool × ProcessorConfigurationVector CpuSet :=
  if sys.numProcessors ≤ 0 then (false, cfg)
  else
    match sys.allowedMask with
    | none => (false, cfg)
    | some allowedMask =>
      let (status, proc) := readProcessors sys allowedMask (List.range sys.rounds) cfg.proc
      (status, { cfg with proc })

def initializeCurrent (sys : System) (cfg : ProcessorConfigurationVector CpuSet) :
    Bool × ProcessorConfigurationVector CpuSet :=
  processCurrentConfiguration sys { cfg with proc := [] }

/-- The counts are those of the processors, and the thread manager starts with them. -/
structure CountsExact {Mask : Type} (cfg : ProcessorConfigurationVector Mask) : Prop where
  threads : cfg.logicalCoreCount.toNat = cfg.proc.length
  cores : cfg.physicalCoreCount'.toNat =
    (cfg.proc.map LogicalProcessor.uniqueCoreID).toFinset.card
  packages : cfg.packageCount.toNat = (cfg.proc.map LogicalProcessor.pkgID).toFinset.card
  freeThreads : (initial cfg).freeThreads.toNat = (initial cfg).storedThreads
  freeCores : (initial cfg).freeCores.toNat = FiniteMap.size (initial cfg).freeCoreMap

/-- The fields already held the counts of the processors whose files are read. -/
structure CountsHeld (sys : System) (cfg : ProcessorConfigurationVector CpuSet) : Prop where
  threads : cfg.threadCount.toNat = sys.rounds
  cores : cfg.physicalCoreCount.toNat =
    ((List.range sys.rounds).map (fun i => (sys.coreID i, sys.pkgID i))).toFinset.card
  packages : cfg.corePackageCount.toNat = ((List.range sys.rounds).map sys.pkgID).toFinset.card

variable {sys : System} {allowedMask : CpuSet} {cfg cfg' : ProcessorConfigurationVector CpuSet}
  {is : List ℕ} {proc out : List (LogicalProcessor CpuSet)} {i : ℕ}

/-- The loop appends the processors before the first that cannot be read. -/
theorem readProcessors_eq (sys : System) (allowedMask : CpuSet) (is : List ℕ)
    (proc : List (LogicalProcessor CpuSet)) : readProcessors sys allowedMask is proc =
      (decide (∀ i ∈ is, sys.Readable i),
        proc ++ (is.takeWhile (fun i => sys.Readable i)).map (sys.processor allowedMask)) := by
  induction is generalizing proc with
  | nil => simp [readProcessors]
  | cons i is ih =>
    rw [readProcessors, List.takeWhile_cons]
    by_cases hi : sys.Readable i
    · simp [hi, ih]
    · simp [hi]

theorem readProcessors_true (h : readProcessors sys allowedMask is proc = (true, out)) :
    out = proc ++ is.map (sys.processor allowedMask) := by
  rw [readProcessors_eq] at h
  obtain ⟨hall, rfl⟩ := Prod.mk.inj h
  have hread : is.takeWhile (fun i => sys.Readable i) = is :=
    List.takeWhile_eq_self_iff.mpr (fun i hi => decide_eq_true (of_decide_eq_true hall i hi))
  rw [hread]

/-- A successful detection has an entry for each processor, and the fields as they were. -/
theorem initializeCurrent_true (h : initializeCurrent sys cfg = (true, cfg')) :
    0 < sys.rounds ∧ ∃ allowedMask, cfg' = { cfg with
      proc := (List.range sys.rounds).map (sys.processor allowedMask) } := by
  unfold initializeCurrent processCurrentConfiguration at h
  split at h
  · cases h
  · next hpos =>
    have hpos : 0 < sys.numProcessors.toInt := Int32.lt_iff_toInt_lt.mp (Int32.not_le.mp hpos)
    split at h
    · cases h
    · next allowedMask _ =>
      cases hread : readProcessors sys allowedMask (List.range sys.rounds) [] with
      | mk status proc =>
        simp only [hread] at h
        obtain ⟨rfl, rfl⟩ := Prod.mk.inj h
        obtain rfl := readProcessors_true hread
        exact ⟨by unfold System.rounds; omega, allowedMask, rfl⟩

theorem map_processor_ne_nil (h : 0 < sys.rounds) (allowedMask : CpuSet) :
    (List.range sys.rounds).map (sys.processor allowedMask) ≠ [] := by
  simp only [ne_eq, List.map_eq_nil_iff, List.range_eq_nil]
  omega

/-- Core keys tell apart what the pairs of core and package numbers do. -/
theorem card_uniqueCoreID (is : List ℕ) :
    ((is.map (sys.processor allowedMask)).map LogicalProcessor.uniqueCoreID).toFinset.card =
      (is.map (fun i => (sys.coreID i, sys.pkgID i))).toFinset.card := by
  let key : UInt32 × UInt16 → UInt64 := fun c =>
    (⟨0, c.1, c.2, 0, 0⟩ : LogicalProcessor CpuSet).uniqueCoreID
  have hinj : Function.Injective key := by
    intro c d h
    obtain ⟨hc, hp⟩ := LogicalProcessor.uniqueCoreID_inj.mp h
    exact Prod.ext hc hp
  have hmap : (is.map (sys.processor allowedMask)).map LogicalProcessor.uniqueCoreID =
      (is.map (fun i => (sys.coreID i, sys.pkgID i))).map key := by
    simp only [List.map_map]
    rfl
  have himage : ((is.map (fun i => (sys.coreID i, sys.pkgID i))).map key).toFinset =
      (is.map (fun i => (sys.coreID i, sys.pkgID i))).toFinset.image key := by
    ext k
    simp
  rw [hmap, himage, Finset.card_image_of_injective _ hinj]

/-- A successful detection with the right counts is what the thread manager asks for. -/
theorem wellFormed_of_counts (hpos : 0 < sys.rounds)
    (hcfg : cfg' = { cfg with proc := (List.range sys.rounds).map (sys.processor allowedMask) })
    (h : CountsHeld sys cfg) : cfg'.WellFormed := by
  subst hcfg
  have hlt : sys.rounds < 2 ^ 31 := by
    have hmax := sys.numProcessors.toInt_lt
    unfold System.rounds
    omega
  refine ⟨map_processor_ne_nil hpos _, ?_, ?_, ?_⟩
  · intro i hi
    simp only [List.length_map, List.length_range] at hi
    simp only [List.getElem_map, List.getElem_range, System.processor, UInt32.toNat_ofNat']
    omega
  · simpa using h.threads
  · rw [card_uniqueCoreID]
    exact h.cores

/-- After a successful detection the counts are right just when the fields held them before. -/
theorem countsExact_iff (h : initializeCurrent sys cfg = (true, cfg')) :
    CountsExact cfg' ↔ CountsHeld sys cfg := by
  obtain ⟨hpos, allowedMask, hcfg⟩ := initializeCurrent_true h
  have hne : cfg'.proc ≠ [] := by
    subst hcfg
    exact map_processor_ne_nil hpos _
  have hthreads : cfg'.logicalCoreCount = cfg.threadCount := by
    rw [ProcessorConfigurationVector.logicalCoreCount, if_neg hne, hcfg]
  have hcores : cfg'.physicalCoreCount' = cfg.physicalCoreCount := by
    rw [ProcessorConfigurationVector.physicalCoreCount', if_neg hne, hcfg]
  have hpackages : cfg'.packageCount.toNat = cfg.corePackageCount.toNat := by
    rw [ProcessorConfigurationVector.packageCount, if_neg hne, hcfg, UInt16.toNat_toUInt32]
  have hlength : cfg'.proc.length = sys.rounds := by simp [hcfg]
  have hkeys : (cfg'.proc.map LogicalProcessor.uniqueCoreID).toFinset.card =
      ((List.range sys.rounds).map (fun i => (sys.coreID i, sys.pkgID i))).toFinset.card := by
    rw [hcfg]
    exact card_uniqueCoreID _
  have hids : cfg'.proc.map LogicalProcessor.pkgID = (List.range sys.rounds).map sys.pkgID := by
    rw [hcfg, List.map_map]
    rfl
  constructor
  · intro hexact
    refine ⟨?_, ?_, ?_⟩
    · rw [← hthreads, hexact.threads, hlength]
    · rw [← hcores, hexact.cores, hkeys]
    · rw [← hpackages, hexact.packages, hids]
  · intro hheld
    have hw := wellFormed_of_counts hpos hcfg hheld
    refine ⟨?_, ?_, ?_, (countsFree_initial hw).1, (invariant_initial hw).coreCount⟩
    · rw [hthreads, hheld.threads, hlength]
    · rw [hcores, hheld.cores, hkeys]
    · rw [hpackages, hheld.packages, hids]

/-- Two cores of one package, read into fresh fields. -/
def twoCores : System where
  numProcessors := 2
  allowedMask := some 3
  coreIDFile := fun i => some [48 + UInt8.ofNat i, 10]
  packageIDFile := fun _ => some [48, 10]

def twoCoresProc : List (LogicalProcessor CpuSet) := (List.range 2).map (twoCores.processor 3)

theorem initializeCurrent_twoCores (threads cores : UInt32) (packages : UInt16) :
    initializeCurrent twoCores ⟨[], threads, cores, packages⟩ =
      (true, ⟨twoCoresProc, threads, cores, packages⟩) := by
  rfl

theorem countsExact_iff_twoCores :
    CountsExact ⟨twoCoresProc, 2, 2, 1⟩ ↔ CountsHeld twoCores ⟨[], 2, 2, 1⟩ :=
  countsExact_iff (initializeCurrent_twoCores 2 2 1)

/-- Nothing sets the counts. -/
theorem not_countsExact : ¬ ∀ (sys : System) (cfg cfg' : ProcessorConfigurationVector CpuSet),
    initializeCurrent sys cfg = (true, cfg') → CountsExact cfg' := by
  intro h
  exact absurd (h _ _ _ (initializeCurrent_twoCores 0 0 0)).threads (by decide)

end Tailslayer.Linux
