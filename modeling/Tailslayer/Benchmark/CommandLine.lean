import Tailslayer.Foundations.Outcome
import Tailslayer.HedgedReader.Specification
import Tailslayer.ThreadManager.Ownership

/-! `AppConfig` and its `parse_cli` (`app_config.hpp`, `app_config.cpp`). -/
namespace Tailslayer.Benchmark

open DynamicThreadManager

def DEFAULT_CHANNEL_OFFSET : Int32 := 256

def DEFAULT_CHANNEL_BIT : Int32 := 8

def DEFAULT_NUM_CHANNELS : Int32 := 2

def SUPERPAGE_SIZE : UInt64 := (1 : UInt64) <<< 30

def DEFAULT_SAMPLES : Int32 := 5000000

def DEFAULT_STRESS : Int32 := 4

/-- The kinds of run that are asked for. -/
structure Arms where
  allBenchmarks : Bool
  singleThreadNoload : Bool
  hedgedThreadsNoload : Bool
  singleThreadWithload : Bool
  hedgedThreadsWithload : Bool
  deriving DecidableEq, Repr

def Arms.withload (a : Arms) : Bool := a.singleThreadWithload || a.hedgedThreadsWithload

def Arms.noArm (a : Arms) : Bool :=
  !a.singleThreadNoload && !a.hedgedThreadsNoload &&
    !a.singleThreadWithload && !a.hedgedThreadsWithload

structure AppConfig (Mask : Type) extends Arms where
  nSamples : Int32
  nStress : Int32
  channelBit : Int32
  channelOffset : Int32
  nChannels : Int32
  mainThreadCoreID : LogicalProcessor Mask
  coreCfg : ProcessorConfigurationVector Mask
  coreAlloc : DynamicThreadManager Mask
  rawPrefix : String

/-- The options found on the command line, each with the last value given for it. -/
structure Options where
  help : Bool
  all : Bool
  arm : Option String
  samples : Option Int32
  stressThreads : Option Int32
  channelBit : Option Int32
  channelOffset : Option Int32
  channels : Option Int32
  rawPrefix : Option String
  deriving DecidableEq, Repr

/-- How `parse_cli` ends without a configuration. -/
inductive Exit
  | status (code : ℕ)
  | undefinedShift
  | fault (f : Tailslayer.Fault)
  deriving DecidableEq, Repr

/-- The flags for the argument of `--arm`. -/
def Arms.ofName (armType : String) : Arms where
  allBenchmarks := false
  singleThreadNoload := armType = "single_ch_quiet"
  hedgedThreadsNoload := armType = "multi_ch_quiet"
  singleThreadWithload := armType = "single_ch_stress"
  hedgedThreadsWithload := armType = "multi_ch_stress"

/-- `--all` sets every flag; otherwise `--arm` sets the flag with that name. -/
def Options.arms (options : Options) : Except Exit Arms :=
  if options.all then .ok ⟨true, true, true, true, true⟩
  else
    match options.arm with
    | none => .ok ⟨false, false, false, false, false⟩
    | some armType =>
      if (Arms.ofName armType).noArm then .error (.status 1) else .ok (.ofName armType)

/-- `1 << channel_bit`, a shift of `int`. -/
def shiftOne (channelBit : Int32) : Except Exit Int32 :=
  if 0 ≤ channelBit ∧ channelBit < 32 then .ok (1 <<< channelBit) else .error .undefinedShift

/-- A channel bit without an offset determines the offset. -/
def Options.offset (options : Options) : Except Exit Int32 :=
  match options.channelBit, options.channelOffset with
  | some channelBit, none => shiftOne channelBit
  | _, channelOffset => .ok (channelOffset.getD DEFAULT_CHANNEL_OFFSET)

/-- The comparison of an `int` with an unsigned number converts the `int`. -/
def clampStress (nStress : Int32) (logicalCoreCount : UInt32) : Int32 :=
  if logicalCoreCount < nStress.toUInt32 then logicalCoreCount.toInt32 else nStress

variable {Mask : Type} [Inhabited Mask]

/-- `result` is what the option parser yields, if it raises no exception, `detected` what
`m_coreCfg.initialize()` returns and leaves. -/
def parseCli (result : Option Options) (detected : Bool × ProcessorConfigurationVector Mask)
    (main : Begin) : Except Exit (AppConfig Mask) :=
  match result with
  | none => .error (.status 1)
  | some options =>
    if options.help then .error (.status 0)
    else do
      let arms ← options.arms
      let channelOffset ← options.offset
      if arms.noArm then .error (.status 1)
      else if detected.1 = false then .error (.status 1)
      else
        let coreAlloc := initial detected.2
        let nStress := if arms.withload then options.stressThreads.getD DEFAULT_STRESS else 0
        match coreAlloc.allocateProcessor' main with
        | .error f => .error (.fault f)
        | .ok (mainThreadCoreID, coreAlloc) => .ok {
          arms with
          nSamples := options.samples.getD DEFAULT_SAMPLES
          nStress := clampStress nStress detected.2.logicalCoreCount
          channelBit := options.channelBit.getD DEFAULT_CHANNEL_BIT
          channelOffset
          nChannels := options.channels.getD DEFAULT_NUM_CHANNELS
          mainThreadCoreID
          coreCfg := detected.2
          coreAlloc
          rawPrefix := options.rawPrefix.getD "" }

variable {result : Option Options} {options : Options} {arms : Arms}
  {detected : Bool × ProcessorConfigurationVector Mask} {main : Begin} {config : AppConfig Mask}

/-- The flags of a run: all of them, or exactly one. -/
def Arms.Possible (a : Arms) : Prop :=
  a = ⟨true, true, true, true, true⟩ ∨ a = ⟨false, true, false, false, false⟩ ∨
    a = ⟨false, false, true, false, false⟩ ∨ a = ⟨false, false, false, true, false⟩ ∨
    a = ⟨false, false, false, false, true⟩

/-- The four names are different. -/
theorem possible_ofName {armType : String} (hno : (Arms.ofName armType).noArm = false) :
    (Arms.ofName armType).Possible := by
  by_cases h₁ : armType = "single_ch_quiet"
  · subst h₁
    exact Or.inr (Or.inl rfl)
  by_cases h₂ : armType = "multi_ch_quiet"
  · subst h₂
    exact Or.inr (Or.inr (Or.inl rfl))
  by_cases h₃ : armType = "single_ch_stress"
  · subst h₃
    exact Or.inr (Or.inr (Or.inr (Or.inl rfl)))
  by_cases h₄ : armType = "multi_ch_stress"
  · subst h₄
    exact Or.inr (Or.inr (Or.inr (Or.inr rfl)))
  simp [Arms.ofName, Arms.noArm, h₁, h₂, h₃, h₄] at hno

theorem possible_arms (h : options.arms = .ok arms) (hno : arms.noArm = false) :
    arms.Possible := by
  unfold Options.arms at h
  split at h
  · cases h
    exact Or.inl rfl
  · split at h
    · cases h
      cases hno
    · split at h
      · cases h
      · cases h
        exact possible_ofName hno

/-- What the returned configuration has from the options and from the machine. -/
structure Parsed (options : Options) (detected : Bool × ProcessorConfigurationVector Mask)
    (main : Begin) (config : AppConfig Mask) : Prop where
  arms : options.arms = .ok config.toArms
  someArm : config.noArm = false
  offset : options.offset = .ok config.channelOffset
  stress : config.nStress = clampStress
    (if config.withload then options.stressThreads.getD DEFAULT_STRESS else 0)
    detected.2.logicalCoreCount
  channels : config.nChannels = options.channels.getD DEFAULT_NUM_CHANNELS
  detected : detected = (true, config.coreCfg)
  main : (initial config.coreCfg).allocateProcessor' main =
    .ok (config.mainThreadCoreID, config.coreAlloc)

theorem parsed_of_parseCli (h : parseCli result detected main = .ok config) :
    ∃ options, result = some options ∧ Parsed options detected main config := by
  unfold parseCli at h
  cases result with
  | none => cases h
  | some options =>
    simp only at h
    split at h
    · cases h
    · obtain ⟨arms, harms, h⟩ := Except.bind_eq_ok_iff.mp h
      obtain ⟨channelOffset, hoffset, h⟩ := Except.bind_eq_ok_iff.mp h
      split at h
      · cases h
      · next hno =>
        split at h
        · cases h
        · next hdet =>
          split at h
          · cases h
          · next mainThreadCoreID coreAlloc hmain =>
            cases h
            refine ⟨options, rfl, harms, by simpa using hno, hoffset, rfl, rfl, ?_, hmain⟩
            cases detected with
            | mk ok cfg =>
              cases ok with
              | false => exact absurd rfl hdet
              | true => rfl

theorem Parsed.possible (h : Parsed options detected main config) : config.Possible :=
  possible_arms h.arms h.someArm

end Tailslayer.Benchmark
