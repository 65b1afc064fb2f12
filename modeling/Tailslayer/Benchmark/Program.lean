import Tailslayer.Benchmark.ArmResults
import Tailslayer.Benchmark.ArmsServed

/-! The whole benchmark: the arms that the command line asks for, run by threads on the processors
that were allocated for them, up to what they report. -/
namespace Tailslayer.Benchmark

open DynamicThreadManager ProcessorConfigurationVector Memory
open HedgedReader (Build)
open Phases (lt_iff)
open ByteStrings (bytes)

/-- The argument of `--arm`. -/
def ArmName.option : ArmName → String
  | .singleQuiet => "single_ch_quiet"
  | .hedgedQuiet => "multi_ch_quiet"
  | .singleStress => "single_ch_stress"
  | .hedgedStress => "multi_ch_stress"

/-- The name that `execute_benchmarks` passes to `run_arm`. -/
def ArmName.label : ArmName → String
  | .singleQuiet => "single_quiet"
  | .hedgedQuiet => "hedged_quiet"
  | .singleStress => "single_stress"
  | .hedgedStress => "hedged_stress"

/-- What the arms of a run get from the machine: the calibrated frequency of the time stamp counter,
and what a `Session` fixes. -/
structure Machine where
  tscGhz : ℚ
  malloc : ℕ → ℕ → Bool
  measurementAnswers : ℕ → ℕ → ThreadAnswers
  stressAnswers : ℕ → ℕ → ThreadAnswers
  clock : ℕ → ℕ → ℕ → UInt64 × UInt64
  context : ℕ → ℕ → UInt64
  fopen : List UInt8 → Bool

theorem toNat_int32_lt (x : Int32) : x.toInt.toNat < 2 ^ 31 := by
  have hlt := x.toInt_lt
  omega

variable {Mask : Type}

/-- A call of `run_arm`, as its threads see it. -/
def ArmCall.threads (config : AppConfig Mask) (c : ArmCall Mask) : ArmThreads where
  name := c.name.label
  numChannels := c.channelAddrs.length
  numCores := c.channelCores.length
  stressCores := c.stressThreads.length
  numStress := config.nStress.toInt.toNat

/-- The threads of `execute_benchmarks`. -/
def Execution.session (e : Execution Mask) (config : AppConfig Mask) (machine : Machine) :
    Session where
  arms := e.calls.map (ArmCall.threads config)
  numSamples := config.nSamples.toInt.toNat
  numSamples_lt := toNat_int32_lt config.nSamples
  stats := ⟨machine.tscGhz, bytes config.rawPrefix, machine.fopen⟩
  malloc := machine.malloc
  measurementAnswers := machine.measurementAnswers
  stressAnswers := machine.stressAnswers
  clock := machine.clock
  context := machine.context

/-- The `core_id` in the context of a thread, where the call has one for it. Stress threads take
theirs from the back; the processing threads do not ask for a processor. -/
def ArmCall.processor (call : ArmCall Mask) : Worker → Option (LogicalProcessor Mask)
  | .measurement _ c => call.channelCores[c]?
  | .stress _ j => call.stressThreads.reverse[j]?
  | .process _ _ => none

def Execution.processor (e : Execution Mask) (w : Worker) : Option (LogicalProcessor Mask) :=
  e.calls[w.arm]?.bind fun call => call.processor w

namespace Session

variable {session : Session} {s : State} {w w' : Worker}

theorem not_arm_lt (h : session.Reaches s) (ha : session.Active s w) (ha' : session.Active s w') :
    ¬ w.arm < w'.arm := by
  intro hlt
  obtain ⟨hspawn, -⟩ := ha'.between h
  refine not_join_lt h ha hspawn (lt_iff.mpr (.inl ?_))
  cases w <;> cases w' <;> exact hlt

/-- Threads that run at the same time belong to the same arm. -/
theorem arm_eq_of_active (h : session.Reaches s) (ha : session.Active s w)
    (ha' : session.Active s w') : w.arm = w'.arm :=
  Nat.le_antisymm (Nat.not_lt.mp (not_arm_lt h ha' ha)) (Nat.not_lt.mp (not_arm_lt h ha ha'))

end Session

/-- No thread twice, the main thread's included, and no core twice for the channels and the main
thread. -/
structure Exclusive (main : LogicalProcessor Mask)
    (channelCores stressThreads : List (LogicalProcessor Mask)) : Prop where
  threads : ((main :: (channelCores ++ stressThreads)).map LogicalProcessor.globalID).Nodup
  cores : ((main :: channelCores).map LogicalProcessor.uniqueCoreID).Nodup

variable [Inhabited Mask] {options : Options} {result : Option Options}
  {detected : Bool × ProcessorConfigurationVector Mask} {main : Begin} {config : AppConfig Mask}
  {build : Build} {orders : Orders} {mem : MemorySetup} {e : Execution Mask}
  {channelCores stressThreads : List (LogicalProcessor Mask)}

/-- There is a free core for the main thread. -/
theorem main_taken {cfg : ProcessorConfigurationVector Mask} (hw : cfg.WellFormed)
    {p : LogicalProcessor Mask} {s : DynamicThreadManager Mask}
    (hmain : (initial cfg).allocateProcessor' main = .ok (p, s)) :
    s.Invariant cfg ∧ p ∈ cfg.proc ∧ p.globalID ∉ s.pool := by
  obtain ⟨status, out, hcall, htrue, -⟩ := allocateProcessor'_eq hmain
  obtain ⟨r, u, hr, he⟩ := call_effect hw (invariant_initial hw) main .allocateProcessor trivial
  obtain ⟨rfl, rfl⟩ := Prod.mk.inj (Except.ok.inj (hcall.symm.trans hr))
  obtain ⟨-, htaken⟩ := pool_of_effect hw (invariant_initial hw) rfl he
  have hinv := invariant_effect hw (invariant_initial hw) he
  generalize hrep : Reply.processors status out = r at he
  cases he with
  | noCore hempty =>
    obtain ⟨q, hq⟩ := List.exists_mem_of_ne_nil _ hw.nonempty
    have hfree := (mem_initial hw).mpr ⟨q, hq, rfl⟩
    rw [hempty] at hfree
    exact absurd hfree Finmap.notMem_empty
  | core k _ =>
    obtain ⟨rfl, rfl⟩ := Reply.processors.inj hrep
    obtain ⟨ps, hps⟩ := htrue rfl
    obtain ⟨hmem, -⟩ := ProcessorConfigurationVector.mem_coreProcs.mp
      (hps ▸ List.mem_cons_self : p ∈ cfg.coreProcs k)
    obtain ⟨-, hout⟩ := htaken p (hps ▸ List.mem_cons_self)
    exact ⟨hinv, hmem, hout⟩

theorem exclusive_allocateThreads {cfg : ProcessorConfigurationVector Mask} (hw : cfg.WellFormed)
    {p : LogicalProcessor Mask} {s : DynamicThreadManager Mask} {channels stress : UInt32}
    (hmain : (initial cfg).allocateProcessor' main = .ok (p, s))
    (h : allocateThreads orders channels stress s = .ok (true, channelCores, stressThreads)) :
    Exclusive p channelCores stressThreads := by
  obtain ⟨⟨success, cores, t⟩, hcores, h⟩ := Except.bind_eq_ok_iff.mp h
  cases success with
  | false => cases h
  | true =>
    obtain ⟨⟨success, threads, u⟩, hthreads, h⟩ := Except.bind_eq_ok_iff.mp h
    cases h
    obtain ⟨hinv, hp, hout⟩ := main_taken hw hmain
    have hchannels := allocateEach_takes
      (fun b s p t h ha hp => allocateProcessor'_takes hw h ha hp) hinv hcores
    have hstress := allocateEach_takes
      (fun b s p t h ha hp => allocateThread_takes hw h ha hp) hchannels.invariant hthreads
    have hcons : (p :: channelCores).Pairwise fun q p => q.uniqueCoreID ≠ p.uniqueCoreID :=
      List.pairwise_cons.mpr ⟨hchannels.fresh p hp hout, hchannels.pairwise⟩
    have htaken : ∀ q ∈ p :: channelCores, q ∈ cfg.proc ∧ q.globalID ∉ t.pool := by
      intro q hq
      rcases List.mem_cons.mp hq with rfl | hq
      · exact ⟨hp, fun hin => hout (hchannels.shrinks hin)⟩
      · exact hchannels.mem q hq
    refine ⟨?_, List.pairwise_map.mpr hcons⟩
    rw [← List.cons_append]
    refine List.pairwise_map.mpr (List.pairwise_append.mpr ⟨?_, hstress.pairwise, ?_⟩)
    · refine hcons.imp_of_mem ?_
      intro q r hq hr hne he
      exact hne (by rw [hw.globalID_inj (htaken q hq).1 (htaken r hr).1 he])
    · intro q hq r hr
      exact hstress.fresh q (htaken q hq).1 (htaken q hq).2 r hr

/-- All arms are called with the same processors, those without load with no stress threads. -/
theorem exclusive_executeBenchmarks (hparse : parseCli result detected main = .ok config)
    (hw : config.coreCfg.WellFormed) (h : executeBenchmarks build orders config mem = .ok e)
    (hsuccess : e.success = true) :
    ∃ channelCores stressThreads, Exclusive config.mainThreadCoreID channelCores stressThreads ∧
      ∀ c ∈ e.calls, c.channelCores = channelCores ∧
        c.stressThreads.Sublist stressThreads := by
  obtain ⟨options, -, hparsed⟩ := parsed_of_parseCli hparse
  obtain ⟨_, -, h⟩ := Except.bind_eq_ok_iff.mp h
  obtain ⟨_, -, h⟩ := Except.bind_eq_ok_iff.mp h
  obtain ⟨⟨success, channelCores, stressThreads⟩, halloc, h⟩ := Except.bind_eq_ok_iff.mp h
  obtain ⟨_, -, h⟩ := Except.bind_eq_ok_iff.mp h
  obtain ⟨calls, hcalls, h⟩ := Except.bind_eq_ok_iff.mp h
  cases h
  change success = true at hsuccess
  subst hsuccess
  refine ⟨channelCores, stressThreads, exclusive_allocateThreads hw hparsed.main
    (Except.mapError_eq_ok_iff.mp halloc), ?_⟩
  intro c hc
  obtain ⟨name, -, hcall⟩ := (Except.mem_mapM hcalls).2 c hc
  obtain ⟨addrs, -, he⟩ := Except.bind_eq_ok_iff.mp hcall
  cases he
  refine ⟨rfl, ?_⟩
  cases name.withload with
  | true => exact List.Sublist.refl stressThreads
  | false => exact List.nil_sublist stressThreads

/-- The thread measures; the others that have a processor make the load. -/
def Worker.measures : Worker → Bool
  | .measurement _ _ => true
  | .stress _ _ | .process _ _ => false

/-- The thread asks for a processor. -/
def Worker.pinned : Worker → Bool
  | .measurement _ _ | .stress _ _ => true
  | .process _ _ => false

theorem map_ne_of_getElem? {α β : Type*} {f : α → β} {l : List α} (h : (l.map f).Nodup) {i j : ℕ}
    {a b : α} (hij : i ≠ j) (hi : l[i]? = some a) (hj : l[j]? = some b) : f a ≠ f b := by
  intro he
  have hlt : i < (l.map f).length := by
    rw [List.length_map]
    exact (List.getElem?_eq_some_iff.mp hi).1
  refine hij ((List.getElem?_inj hlt h).mp ?_)
  rw [List.getElem?_map, List.getElem?_map, hi, hj, Option.map_some, Option.map_some, he]

omit [Inhabited Mask] in
/-- The main thread, the threads of the channels and those of the load, each with its own. -/
theorem Exclusive.nodup {m : LogicalProcessor Mask} (h : Exclusive m channelCores stressThreads)
    {qs : List (LogicalProcessor Mask)} (hqs : qs.Subperm stressThreads) :
    ((m :: (channelCores ++ qs)).map LogicalProcessor.globalID).Nodup := by
  have hsub : (m :: (channelCores ++ qs)).Subperm (m :: (channelCores ++ stressThreads)) :=
    (List.subperm_cons m).mpr ((List.subperm_append_left channelCores).mpr hqs)
  obtain ⟨l, hperm, hl⟩ := hsub
  exact (hperm.map _).nodup_iff.mp (h.threads.sublist (hl.map _))

/-- The place of a thread among the processors of its arm, the main thread's being the first. -/
def Worker.place (channels : ℕ) : Worker → ℕ
  | .measurement _ c => c + 1
  | .stress _ j => channels + j + 1
  | .process _ _ => 0

omit [Inhabited Mask] in
/-- All threads of an arm get their processors from one list. -/
theorem exists_places {m : LogicalProcessor Mask} (hex : Exclusive m channelCores stressThreads)
    (hcalls : ∀ c ∈ e.calls, c.channelCores = channelCores ∧
      c.stressThreads.Sublist stressThreads) (k : ℕ) :
    ∃ qs : List (LogicalProcessor Mask),
      ((m :: (channelCores ++ qs)).map LogicalProcessor.globalID).Nodup ∧
      ∀ w p, w.arm = k → e.processor w = some p →
        (m :: (channelCores ++ qs))[w.place channelCores.length]? = some p ∧
        0 < w.place channelCores.length ∧
        (w.measures = true → (m :: channelCores)[w.place channelCores.length]? = some p) := by
  cases hk : e.calls[k]? with
  | none =>
    refine ⟨[], hex.nodup List.nil_subperm, ?_⟩
    rintro w p rfl hp
    obtain ⟨call, hcall, -⟩ := Option.bind_eq_some_iff.mp hp
    rw [hk] at hcall
    cases hcall
  | some call =>
    obtain ⟨hcores, hstress⟩ := hcalls call (List.mem_of_getElem? hk)
    have hreverse : call.stressThreads.reverse.Subperm stressThreads :=
      (List.reverse_perm call.stressThreads).subperm.trans hstress.subperm
    refine ⟨call.stressThreads.reverse, hex.nodup hreverse, ?_⟩
    rintro w p rfl hp
    obtain ⟨call', hcall', hp⟩ := Option.bind_eq_some_iff.mp hp
    obtain rfl := Option.some.inj (hk.symm.trans hcall')
    cases w with
    | measurement _ c =>
      change call.channelCores[c]? = some p at hp
      rw [hcores] at hp
      refine ⟨?_, Nat.succ_pos c, fun _ => hp⟩
      change (channelCores ++ _)[c]? = some p
      rw [List.getElem?_append_left (List.getElem?_eq_some_iff.mp hp).1, hp]
    | stress _ j =>
      refine ⟨?_, Nat.succ_pos _, fun hmeasures => by cases hmeasures⟩
      change (channelCores ++ _)[channelCores.length + j]? = some p
      rw [List.getElem?_append_right (Nat.le_add_right _ _), Nat.add_sub_cancel_left]
      exact hp
    | process => cases hp

/-- Threads of one arm are at different places. -/
theorem place_ne {channels : ℕ} {w w' : Worker} (harm : w.arm = w'.arm) (hne : w ≠ w')
    (hpos : 0 < w.place channels) (hpos' : 0 < w'.place channels)
    (hw : w.measures = true → w.place channels ≤ channels)
    (hw' : w'.measures = true → w'.place channels ≤ channels) :
    w.place channels ≠ w'.place channels := by
  intro he
  cases w with
  | process => exact absurd hpos (lt_irrefl 0)
  | measurement k c =>
    have hc : c + 1 ≤ channels := hw rfl
    cases w' with
    | process => exact absurd hpos' (lt_irrefl 0)
    | measurement k' c' =>
      obtain rfl : k = k' := harm
      obtain rfl : c = c' := Nat.succ.inj he
      exact hne rfl
    | stress k' j =>
      change c + 1 = channels + j + 1 at he
      omega
  | stress k j =>
    cases w' with
    | process => exact absurd hpos' (lt_irrefl 0)
    | measurement k' c' =>
      have hc : c' + 1 ≤ channels := hw' rfl
      change channels + j + 1 = c' + 1 at he
      omega
    | stress k' j' =>
      obtain rfl : k = k' := harm
      change channels + j + 1 = channels + j' + 1 at he
      obtain rfl : j = j' := by omega
      exact hne rfl

omit [Inhabited Mask] in
theorem arm_session (e : Execution Mask) (config : AppConfig Mask) (machine : Machine) {k : ℕ}
    (hk : k < (e.session config machine).arms.length) :
    ∃ call, e.calls[k]? = some call ∧ call ∈ e.calls ∧
      (e.session config machine).arm k = call.threads config := by
  have hlt : k < e.calls.length := by
    rwa [Execution.session, List.length_map] at hk
  refine ⟨e.calls[k], List.getElem?_eq_getElem hlt, List.getElem_mem hlt, ?_⟩
  change (e.calls.map _).getD k _ = _
  rw [List.getD_eq_getElem?_getD, List.getElem?_map, List.getElem?_eq_getElem hlt]
  rfl

omit [Inhabited Mask] in
/-- A thread that was started got its processor before, or the run would have ended there. -/
theorem exists_processor {machine : Machine} {s : Session.State}
    (hs : (e.session config machine).Reaches s) {w : Worker}
    (ha : (e.session config machine).Active s w) (hpinned : w.pinned = true) :
    ∃ p, e.processor w = some p := by
  obtain ⟨hspawn, -⟩ := ha.between hs
  cases w with
  | process => cases hpinned
  | measurement k c =>
    obtain ⟨hk, hc⟩ := Session.issues_of_executed hspawn
    have hallocated : .act (.allocate k c) ∈ (e.session config machine).executed s :=
      Session.executed_of_key_lt hspawn ⟨hk, hc⟩ (by simp [lt_iff, Session.key])
    obtain ⟨v, u, hact⟩ := ForkJoin.System.acts_of_executed hs hallocated
    obtain ⟨call, hcall, -, harm⟩ := arm_session e config machine hk
    change (e.session config machine).act (.allocate k c) v = some u at hact
    cases Session.effect_of_act hact with
    | allocate hmemory hcore =>
      rw [harm] at hcore
      change c < call.channelCores.length at hcore
      refine ⟨call.channelCores[c], ?_⟩
      change e.calls[k]?.bind _ = _
      rw [hcall]
      exact List.getElem?_eq_getElem hcore
  | stress k j =>
    obtain ⟨hk, hload, hj⟩ := Session.issues_of_executed hspawn
    have htaken : .act (.takeStress k j) ∈ (e.session config machine).executed s :=
      Session.executed_of_key_lt hspawn ⟨hk, hload, hj⟩ (by simp [lt_iff, Session.key])
    obtain ⟨v, u, hact⟩ := ForkJoin.System.acts_of_executed hs htaken
    obtain ⟨call, hcall, -, harm⟩ := arm_session e config machine hk
    change (e.session config machine).act (.takeStress k j) v = some u at hact
    cases Session.effect_of_act hact with
    | takeStress hleft =>
      rw [harm] at hleft
      change j < call.stressThreads.length at hleft
      have hlt : j < call.stressThreads.reverse.length := by
        rwa [List.length_reverse]
      refine ⟨call.stressThreads.reverse[j], ?_⟩
      change e.calls[k]?.bind _ = _
      rw [hcall]
      exact List.getElem?_eq_getElem hlt

/-- The hedged arm under load, on four cores of two threads each. -/
def hedgedStress : Options :=
  ⟨false, false, some "multi_ch_stress", some 3, some 2, none, none, none, none⟩

def hedgedStressConfig : AppConfig GroupAffinity := { allArmsConfig with
  toArms := ⟨false, false, false, false, true⟩
  nSamples := 3
  nStress := 2 }

theorem parseCli_hedgedStress : parseCli (some hedgedStress) (true, fourCoresConfiguration)
    Begin.largest = .ok hedgedStressConfig := by
  rfl

/-- The main thread got core 3, the channels get threads of the cores 2 and 1, and the load both
threads of core 0. -/
def hedgedStressExecution : Execution GroupAffinity where
  success := true
  calls := [⟨.hedgedStress, [0x10000000000, 0x10000000100],
    [⟨4, 2, 0, 1, ⟨0x10, 0⟩⟩, ⟨2, 1, 0, 1, ⟨0x4, 0⟩⟩],
    [⟨1, 0, 0, 1, ⟨0x2, 0⟩⟩, ⟨0, 0, 0, 1, ⟨0x1, 0⟩⟩], 0x10040000000⟩]

theorem executeBenchmarks_hedgedStress : executeBenchmarks .release largest hedgedStressConfig
    twoReplicas = .ok hedgedStressExecution := by
  rfl

/-- The machine of `twoChannels`. -/
def grantsAll : Machine where
  tscGhz := Session.twoChannels.stats.tscGhz
  malloc := Session.twoChannels.malloc
  measurementAnswers := Session.twoChannels.measurementAnswers
  stressAnswers := Session.twoChannels.stressAnswers
  clock := Session.twoChannels.clock
  context := Session.twoChannels.context
  fopen := Session.twoChannels.stats.fopen

theorem exists_option {armType : String} (h : (Arms.ofName armType).noArm = false) :
    ∃ name : ArmName, armType = name.option := by
  by_contra hnot
  have hne : ∀ name : ArmName, armType ≠ name.option := fun name he => hnot ⟨name, he⟩
  have h₁ : armType ≠ "single_ch_quiet" := hne .singleQuiet
  have h₂ : armType ≠ "multi_ch_quiet" := hne .hedgedQuiet
  have h₃ : armType ≠ "single_ch_stress" := hne .singleStress
  have h₄ : armType ≠ "multi_ch_stress" := hne .hedgedStress
  simp [Arms.ofName, Arms.noArm, h₁, h₂, h₃, h₄] at h

/-- Without `--all`, the arm is the one that is named. -/
theorem arms_of_parsed (h : Parsed options detected main config) (hall : options.all = false) :
    ∃ name : ArmName, options.arm = some name.option ∧
      config.toArms = Arms.ofName name.option := by
  have harms := h.arms
  have hsome := h.someArm
  rw [Options.arms, if_neg (by simp [hall])] at harms
  cases harm : options.arm with
  | none =>
    rw [harm] at harms
    rw [← Except.ok.inj harms] at hsome
    cases hsome
  | some armType =>
    rw [harm] at harms
    simp only at harms
    split at harms
    · cases harms
    · next hno =>
      obtain ⟨name, rfl⟩ := exists_option (by simpa using hno)
      exact ⟨name, rfl, (Except.ok.inj harms).symm⟩

omit [Inhabited Mask] in
theorem channelsToBenchmark_of_name {name : ArmName}
    (h : config.toArms = Arms.ofName name.option) :
    config.channelsToBenchmark = if name.single then 1 else config.nChannels.toUInt32 := by
  rw [AppConfig.channelsToBenchmark, h]
  cases name <;> rfl

omit [Inhabited Mask] in
theorem stressThreadsToUse_of_name {name : ArmName}
    (h : config.toArms = Arms.ofName name.option) :
    config.stressThreadsToUse = if name.withload then config.nStress.toUInt32 else 0 := by
  rw [AppConfig.stressThreadsToUse, h]
  cases name <;> rfl

theorem calls_oneArm {name : ArmName} (harms : config.toArms = Arms.ofName name.option)
    (h : executeBenchmarks build orders config mem = .ok e) (hsuccess : e.success = true) :
    ∃ c channelCores stressThreads, e.calls = [c] ∧
      armCall mem channelCores stressThreads name = .ok c ∧
      channelCores.length = config.channelsToBenchmark.toNat ∧
      stressThreads.length = config.stressThreadsToUse.toNat := by
  obtain ⟨_, -, h⟩ := Except.bind_eq_ok_iff.mp h
  obtain ⟨_, -, h⟩ := Except.bind_eq_ok_iff.mp h
  obtain ⟨⟨success, channelCores, stressThreads⟩, halloc, h⟩ := Except.bind_eq_ok_iff.mp h
  obtain ⟨_, -, h⟩ := Except.bind_eq_ok_iff.mp h
  obtain ⟨calls, hcalls, h⟩ := Except.bind_eq_ok_iff.mp h
  cases h
  change success = true at hsuccess
  subst hsuccess
  obtain ⟨hcores, hthreads⟩ := length_allocateThreads (Except.mapError_eq_ok_iff.mp halloc)
  have hruns : [ArmName.singleQuiet, .hedgedQuiet, .singleStress, .hedgedStress].filter
      config.runs = [name] := by
    rw [harms]
    cases name <;> rfl
  rw [hruns, List.mapM_cons] at hcalls
  obtain ⟨c, hc, hcalls⟩ := Except.bind_eq_ok_iff.mp hcalls
  cases hcalls
  exact ⟨c, channelCores, stressThreads, rfl, hc, hcores, hthreads⟩

omit [Inhabited Mask] in
theorem length_channelAddrs {name : ArmName} {addrs : List UInt64}
    (h : name.channelAddrs mem = .ok addrs) :
    addrs.length = if name.single then 1 else mem.replicas.length := by
  cases hs : name.single with
  | false =>
    rw [ArmName.channelAddrs, if_neg (by simp [hs])] at h
    cases h
    rfl
  | true =>
    rw [ArmName.channelAddrs, if_pos hs] at h
    cases hr : mem.replicas with
    | nil =>
      rw [hr] at h
      cases h
    | cons replica rest =>
      rw [hr] at h
      cases h
      rfl

/-- The threads of a single arm. -/
def oneArm (config : AppConfig Mask) (name : ArmName) : ArmThreads where
  name := name.label
  numChannels := if name.single then 1 else config.nChannels.toInt.toNat
  numCores := if name.single then 1 else config.nChannels.toInt.toNat
  stressCores := if name.withload then config.nStress.toInt.toNat else 0
  numStress := config.nStress.toInt.toNat

omit [Inhabited Mask] in
theorem threads_oneArm {name : ArmName} {c : ArmCall Mask}
    (harms : config.toArms = Arms.ofName name.option) (hchannels : 0 ≤ config.nChannels.toInt)
    (hstress : 0 ≤ config.nStress.toInt)
    (hmem : (mem.replicas.length : ℤ) = config.nChannels.toInt)
    (hc : armCall mem channelCores stressThreads name = .ok c)
    (hcores : channelCores.length = config.channelsToBenchmark.toNat)
    (hthreads : stressThreads.length = config.stressThreadsToUse.toNat) :
    c.threads config = oneArm config name := by
  have hwide := toNat_toUInt32 hchannels
  have hwideStress := toNat_toUInt32 hstress
  rw [channelsToBenchmark_of_name harms] at hcores
  rw [stressThreadsToUse_of_name harms] at hthreads
  obtain ⟨addrs, haddrs, he⟩ := Except.bind_eq_ok_iff.mp hc
  cases he
  have hnumChannels : addrs.length = if name.single then 1 else config.nChannels.toInt.toNat := by
    rw [length_channelAddrs haddrs]
    split
    · rfl
    · omega
  have hnumCores : channelCores.length =
      if name.single then 1 else config.nChannels.toInt.toNat := by
    rw [hcores]
    split
    · rfl
    · omega
  have hload : (if name.withload then stressThreads else []).length =
      if name.withload then config.nStress.toInt.toNat else 0 := by
    cases hw : name.withload with
    | false => rfl
    | true =>
      rw [hw, if_pos rfl] at hthreads
      rw [if_pos rfl, if_pos rfl]
      omega
  rw [ArmCall.threads, oneArm, hnumChannels, hnumCores, hload]

omit [Inhabited Mask] in
theorem le_of_startStressThreads {n : ℕ} {ps qs : List (LogicalProcessor Mask)}
    (h : startStressThreads n ps = some qs) : n ≤ ps.length := by
  induction n generalizing ps qs with
  | zero => exact Nat.zero_le ps.length
  | succ n ih =>
    cases hl : ps.getLast? with
    | none => simp [startStressThreads, hl] at h
    | some p =>
      simp only [startStressThreads, hl, Option.map_eq_some_iff] at h
      obtain ⟨rest, hrest, -⟩ := h
      have hle := ih hrest
      have hne : ps ≠ [] := by
        rintro rfl
        cases hl
      have hpos := List.length_pos_iff.mpr hne
      rw [List.length_dropLast] at hle
      omega

omit [Inhabited Mask] in
/-- Where every call has the processors it uses, only memory can be missing. -/
theorem served_session (hserved : ∀ c ∈ e.calls, c.Served config) {machine : Machine}
    (hmalloc : ∀ k c, machine.malloc k c = true) : (e.session config machine).Served where
  memory := fun k _ c _ => hmalloc k c
  cores := by
    intro k hk
    obtain ⟨call, -, hmem, harm⟩ := arm_session e config machine hk
    rw [harm]
    exact (hserved call hmem).cores
  stress := by
    intro k hk hload
    obtain ⟨call, -, hmem, harm⟩ := arm_session e config machine hk
    rw [harm] at hload ⊢
    change decide (call.stressThreads.length ≠ 0) = true at hload
    obtain ⟨arm, hruns, -⟩ := (hserved call hmem).runs
    have hne : call.stressThreads ≠ [] := by
      intro hnil
      rw [hnil] at hload
      cases hload
    rw [runArm, if_neg (Nat.not_lt.mpr (hserved call hmem).cores)] at hruns
    simp only [if_neg hne] at hruns
    obtain ⟨qs, hqs, -⟩ := Option.map_eq_some_iff.mp hruns
    exact le_of_startStressThreads hqs

theorem setupMemory_hedgedStress : setupMemory (fortyGiB onePiece) onePiece 1025
    hedgedStressConfig .fresh = some (.ok (true, twoReplicas, [.virtualAlloc 0x10000000000])) := by
  have hrequest : request hedgedStressConfig = .ofSize 0x80000000 := by decide
  rw [setupMemory, hrequest, allocateLargePageMin_onePiece]
  decide

end Tailslayer.Benchmark
