import Tailslayer.HedgedReader.Delivery
import Tailslayer.HedgedReader.PageBounds

/-! The end of a `HedgedReader`: what was delivered by then, which reads race with inserts, and when
the destructor returns. -/
namespace Tailslayer.HedgedReader.Usage

open ForkJoin (Command)
open Phases (lt_iff)
open WordBits
open ForkJoin.System (Finished before_of_key effect_of_step next_not_mem executed_next)

variable {cfg : Config} {usage : Usage cfg} {s : State cfg} {i : Fin cfg.N.toNat} {a : Action cfg}
  {index : UInt64} {n : ℕ}

/-- The reader takes all inserts, within its page, and all processor numbers can be shifted to. -/
structure Roomy (usage : Usage cfg) : Prop where
  offset : 0 ≤ cfg.channelOffset
  noOverflow : cfg.NoOverflow
  safe : MemorySafe cfg
  page : usage.page ≠ 0
  room : usage.vals.length < usage.reader.capacity.toNat
  few : cfg.N.toNat ≤ 31

theorem Roomy.inPage (hu : usage.Roomy) {l : UInt64}
    (hl : l.toNat + 1 < usage.reader.capacity.toNat) (i : Fin cfg.N.toNat)
    (b : Fin cfg.sizeofT.toNat) :
    usage.InPage (usage.reader.address i l + b) := by
  have hadmitted : usage.reader.Admitted usage.mem l :=
    (admitted_iff (filled_reader usage) hu.page).mpr hl
  obtain ⟨hlo, hhi⟩ := hu.safe.inPage _ _ _ _ hu.page usage.constructed l hadmitted i
  have hb := b.isLt
  change _ + cfg.sizeofT.toNat ≤ _ at hhi
  exact ⟨by omega, by omega⟩

theorem page_of_live (h : usage.Reaches s) (hlive : s.shared.live = true) :
    s.shared.reader.replicaPage = usage.page := by
  refine ForkJoin.System.invariant_shared
    (P := fun v : Shared cfg => v.live = true → v.reader.replicaPage = usage.page)
    ?_ ?_ ?_ h hlive
  · exact fun _ => (filled_reader usage).setUp.page_eq
  · intro a v u hv hacts
    cases effect_of_act hacts with
    | free => exact nofun
    | enter | store | advance => exact hv
  · intro i x v y u hv hworks
    cases effect_of_worker hworks <;> exact hv

theorem act_proceeds (hu : usage.Roomy) (h : usage.Reaches s)
    (hnext : usage.main[s.done]? = some (.act a)) : ∃ v, usage.act a s.shared = some v := by
  have hs := stored hu.offset hu.noOverflow h
  have hlive := (live_iff h).mpr (not_freed_of_next hnext)
  have hissued := issues_of_next hnext
  cases a with
  | enter j =>
    have hj : j < usage.vals.length := hissued
    have hlen := hu.room
    refine ⟨s.shared, if_pos ⟨?_, ?_⟩⟩
    · rw [page_of_live h hlive]
      exact hu.page
    · rw [UInt64.lt_iff_toNat_lt, hs.succ hnext rfl, hs.capacity]
      omega
  | store j i b =>
    have hj : j < usage.vals.length := hissued
    have hindex := hs.logicalIndex hnext rfl
    have hroom := hs.entered hnext rfl (by simp)
    have hpage := hu.inPage (l := s.shared.reader.logicalIndex) (by omega) i b
    rw [← hs.address] at hpage
    simp only [act, List.getElem?_eq_getElem hj, Option.bind_eq_bind, Option.bind_some, hlive,
      hpage, and_self, if_true]
    exact ⟨_, rfl⟩
  | advance j => exact ⟨_, rfl⟩
  | free => exact ⟨_, rfl⟩

theorem exists_mask (hu : usage.Roomy) (i : Fin cfg.N.toNat) : ∃ m, usage.mask i = some m := by
  have hi := i.isLt
  have hfew := hu.few
  rw [mask_eq usage (by omega)]
  split
  · exact ⟨_, rfl⟩
  · rw [if_pos (by omega)]
    exact ⟨_, rfl⟩

/-- How many steps a worker has to go. -/
def stepsLeft (size : ℕ) : WorkerState → ℕ
  | .pinning => size + 4
  | .waiting => size + 3
  | .reading _ bytes => size - bytes.length + 2
  | .working => 1
  | .finished => 0

/-- A worker that is joined comes closer to its end: its mask is defined, its index in the page. -/
theorem worker_proceeds (hu : usage.Roomy) (h : usage.Reaches s)
    (hindices : ∀ i index, usage.waitWork i = some index →
      index.toNat + 1 < usage.reader.capacity.toNat)
    (hreturns : ∀ i, (usage.waitWork i).isSome ∧ usage.finalWork i = true)
    (hlive : s.shared.live = true) {pc : WorkerState} (hpc : s.worker i = some pc)
    (hrunning : ended pc = false) : ∃ pc' v, usage.worker i pc s.shared = some (pc', v) ∧
      stepsLeft cfg.sizeofT.toNat pc' < stepsLeft cfg.sizeofT.toNat pc := by
  have hs := stored hu.offset hu.noOverflow h
  have hinformed := (knows_informed hu.offset hu.noOverflow usage).worker h hpc
  cases pc with
  | pinning =>
    obtain ⟨mask, hmask⟩ := exists_mask hu i
    have hcores : s.shared.reader.cores = usage.reader.cores := by rw [hs.same]
    rw [Usage.mask, ← hcores] at hmask
    refine ⟨.waiting, { s.shared with masks := s.shared.masks ++ [(i, mask)] }, ?_,
      Nat.lt_succ_self _⟩
    simp only [worker, hmask, Option.map_some]
  | waiting =>
    obtain ⟨index, hindex⟩ := Option.isSome_iff_exists.mp (hreturns i).1
    refine ⟨.reading index [], s.shared, ?_, Nat.lt_succ_self _⟩
    simp only [worker, hindex, Option.map_some]
  | reading index bytes =>
    obtain ⟨-, -, hindex, hlen, -⟩ := hinformed
    by_cases hcomplete : bytes.length = cfg.sizeofT.toNat
    · refine ⟨.working, _, if_pos hcomplete, ?_⟩
      simp [stepsLeft]
    · have hpage := hu.inPage (hindices i index hindex) i ⟨bytes.length, by omega⟩
      rw [← hs.address] at hpage
      refine ⟨_, _, (if_neg hcomplete).trans (if_pos ⟨hlive, hpage⟩), ?_⟩
      simp only [stepsLeft, List.length_append, List.length_singleton]
      omega
  | working => exact ⟨.finished, s.shared, if_pos (hreturns i).2, Nat.lt_succ_self 0⟩
  | finished => cases hrunning

theorem progresses (hu : usage.Roomy)
    (hindices : ∀ i index, usage.waitWork i = some index →
      index.toNat + 1 < usage.reader.capacity.toNat)
    (hreturns : ∀ i, (usage.waitWork i).isSome ∧ usage.finalWork i = true) :
    usage.system.Progresses usage.initial (fun _ => stepsLeft cfg.sizeofT.toNat) where
  forked i hi := by
    refine before_of_key (S := usage.system) (sorted_main usage) (mem_main.mpr trivial) hi ?_
    rw [lt_iff]
    left
    change usage.before.length < usage.vals.length + 1
    rw [vals, List.length_append]
    omega
  act _ _ h hnext := act_proceeds hu h hnext
  join s i pc h hnext hpc hended :=
    worker_proceeds hu h hindices hreturns ((live_iff h).mpr (not_freed_of_next hnext)) hpc hended

theorem freed_of_finished (h : usage.Reaches s) (hf : usage.system.Finished s) :
    s.shared.live = false := by
  rw [not_live_iff h, executed, hf.executed]
  exact mem_main.mpr trivial

/-- In every interleaving of the bytes of inserts, workers and destructor: each worker calls
`final_work` at most once, with the value under the index that its `wait_work` returned; it has done
so when the page is freed; and the mask it installs is that of the processor next to those of the
workers before it, as long as the shift has it, and never has the main thread's processor 0. -/
theorem finalWork_sound (h0 : 0 ≤ cfg.channelOffset) (ho : cfg.NoOverflow)
    (h : usage.Reaches s) (i : Fin cfg.N.toNat) :
    (∀ bytes ∈ s.shared.workedBy i, usage.Right i bytes) ∧ (s.shared.workedBy i).length ≤ 1 ∧
      (s.shared.live = false → (s.shared.workedBy i).length = 1) ∧
      (cfg.N.toNat < 2 ^ 31 → ∀ mask ∈ s.shared.masksOf i,
        mask.toNat.testBit 0 = false ∧ (i.val + 1 < 31 → mask = bit (i + 1))) := by
  have hmasks : cfg.N.toNat < 2 ^ 31 → ∀ mask ∈ s.shared.masksOf i,
      mask.toNat.testBit 0 = false ∧ (i.val + 1 < 31 → mask = bit (i + 1)) :=
    fun hN mask hmask => mask_sound hN (masks_installed h0 ho h hmask)
  rcases worked_cases (i := i) h0 ho h with ⟨hlive, hworked⟩ | ⟨bytes, hworked, hright⟩
  · rw [hworked]
    refine ⟨nofun, Nat.zero_le 1, fun hfreed => ?_, hmasks⟩
    rw [hlive] at hfreed
    cases hfreed
  · rw [hworked]
    refine ⟨?_, le_rfl, fun _ => rfl, hmasks⟩
    intro bytes' hbytes'
    rw [List.mem_singleton.mp hbytes']
    exact hright

/-- A reader of two-byte elements in chunks of two: two inserts before the workers, one next to
them. -/
def twoByteElements : Config where
  sizeofT := 2
  sizeofT_pos := by decide
  N := 2
  channelOffset := 4
  channelBit := 8
  numChannels := 2

theorem checksHold_twoByteElements : twoByteElements.ChecksHold := ⟨by decide, by decide⟩

theorem noOverflow_twoByteElements : twoByteElements.NoOverflow := by
  unfold Config.NoOverflow
  decide

def twoByteUsage : Usage twoByteElements where
  page := 4096
  oldMem := fun _ => 0
  reader := setUpReader ⟨268435456, 1, 1, 4⟩ (Vector.ofFn fun i => if i.val = 0 then 1 else 2) 4096
  mem := ByteMemory.fill 4096 0x42 kHUGEPAGE_SIZE.toNat (fun _ => 0)
  constructed := construct_eq_ok_iff.mpr
    ⟨checksHold_twoByteElements, _, _, _, by decide +kernel, by decide +kernel, rfl, rfl⟩
  before := [fun _ => 0x43, fun _ => 0x44]
  after := [fun _ => 0x45]
  waitWork i := some (UInt64.ofNat (i + 1))
  finalWork _ := true

theorem roomy_twoByteUsage : twoByteUsage.Roomy where
  offset := by decide
  noOverflow := noOverflow_twoByteElements
  safe := by
    have hg : twoByteElements.geometry = .ok ⟨268435456, 1, 1, 4⟩ := by decide +kernel
    have hd := describes_of_geometry (by decide) hg
    refine (memorySafe_iff_allEndBy (by decide) checksHold_twoByteElements hg).mpr
      ((fitsPage_iff_allEndBy (by decide) checksHold_twoByteElements hd.shift hd.stride_pos).mp ?_)
    exact fitsPage_of_two_pow checksHold_twoByteElements (by decide) (by decide) (by decide)
      (s := 1) (by decide)
  page := by decide
  room := by
    change 3 < (268435456 : ℕ)
    omega
  few := by decide

theorem indices_twoByteUsage : ∀ i index, twoByteUsage.waitWork i = some index →
    index.toNat + 1 < twoByteUsage.reader.capacity.toNat := by
  intro i index hindex
  obtain rfl := Option.some.inj hindex
  have hi : i.val < 2 := i.isLt
  have hlen : (UInt64.ofNat (i.val + 1)).toNat = i.val + 1 := by
    rw [UInt64.toNat_ofNat']
    exact Nat.mod_eq_of_lt (by omega)
  rw [hlen]
  change i.val + 1 + 1 < (268435456 : ℕ)
  omega

theorem finalWork_sound_twoByteUsage :
    ∃ s, twoByteUsage.Reaches s ∧ s.shared.live = false ∧ ∀ i,
      (∀ bytes ∈ s.shared.workedBy i, twoByteUsage.Right i bytes) ∧
      (s.shared.workedBy i).length ≤ 1 ∧
      (s.shared.live = false → (s.shared.workedBy i).length = 1) ∧
      (twoByteElements.N.toNat < 2 ^ 31 → ∀ mask ∈ s.shared.masksOf i,
        mask.toNat.testBit 0 = false ∧ (i.val + 1 < 31 → mask = bit (i + 1))) := by
  obtain ⟨s, hs, hf⟩ := ForkJoin.System.exists_finished
    (progresses roomy_twoByteUsage indices_twoByteUsage fun _ => ⟨rfl, rfl⟩)
  exact ⟨s, hs, freed_of_finished hs hf,
    finalWork_sound (by decide) noOverflow_twoByteElements hs⟩

/-- The worker is about to read the byte. -/
def ReadsNext (s : State cfg) (i : Fin cfg.N.toNat) (byte : ℕ) : Prop :=
  ∃ index bytes, s.worker i = some (.reading index bytes) ∧
    bytes.length < cfg.sizeofT.toNat ∧ byte = s.shared.reader.address i index + bytes.length

/-- The main thread is about to store the byte, in one of the replicas. -/
def StoresNext (usage : Usage cfg) (s : State cfg) (byte : ℕ) : Prop :=
  ∃ j k, ∃ b : Fin cfg.sizeofT.toNat, usage.main[s.done]? = some (.act (.store j k b)) ∧
    byte = s.shared.reader.address k s.shared.reader.logicalIndex + b

/-- The main thread alone gets to every command in front of the destructor. -/
theorem reaches_main (hu : usage.Roomy) (hn : n ≤ (inserts cfg 0 usage.before.length ++
    startWorkers cfg ++ inserts cfg usage.before.length usage.after.length).length) :
    ∃ s, usage.Reaches s ∧ s.done = n ∧ ∀ i pc, s.worker i = some pc → pc = .pinning := by
  induction n with
  | zero => exact ⟨_, .start, rfl, nofun⟩
  | succ n ih =>
    obtain ⟨s, hs, rfl, hpinning⟩ := ih (Nat.le_of_succ_le hn)
    have hnext : usage.main[s.done]? = (inserts cfg 0 usage.before.length ++ startWorkers cfg ++
        inserts cfg usage.before.length usage.after.length)[s.done]? :=
      List.getElem?_append_left hn
    obtain ⟨c, hc⟩ : ∃ c, usage.main[s.done]? = some c :=
      ⟨_, hnext.trans (List.getElem?_eq_getElem hn)⟩
    have hmem := List.mem_of_getElem? (hnext.symm.trans hc)
    cases c with
    | spawn i =>
      have hstep : usage.system.step s none = some ⟨s.done + 1, s.shared,
          Function.update s.worker i (some .pinning)⟩ := by
        simp only [ForkJoin.System.step, system, hc]
      refine ⟨_, .next hs hstep, rfl, ?_⟩
      intro j pc hpc
      by_cases hj : j = i
      · subst hj
        simpa using hpc.symm
      · exact hpinning j pc (by simpa [hj] using hpc)
    | join i => simp [inserts, insertSteps, startWorkers] at hmem
    | act a =>
      obtain ⟨v, hv⟩ := act_proceeds hu hs hc
      have hstep : usage.system.step s none = some { s with done := s.done + 1, shared := v } := by
        simp only [ForkJoin.System.step, system, hc, hv, Option.map_some]
      exact ⟨_, .next hs hstep, rfl, hpinning⟩

theorem lt_of_store {j : ℕ} {k : Fin cfg.N.toNat} {b : Fin cfg.sizeofT.toNat}
    (hn : n < usage.main.length) (he : usage.main[n] = .act (.store j k b)) :
    n < (inserts cfg 0 usage.before.length ++ startWorkers cfg ++
      inserts cfg usage.before.length usage.after.length).length := by
  by_contra hge
  have hlast : usage.main[n] ∈ destructor cfg := by
    simp only [main]
    rw [List.getElem_append_right (Nat.not_lt.mp hge)]
    exact List.getElem_mem _
  rw [he] at hlast
  simp [destructor] at hlast

/-- Who is about to be raced with is between the start of the workers and the insert. -/
theorem race_bounds (hu : usage.Roomy) (hcap : index < usage.reader.capacity)
    (hs : usage.Reaches s) (hindex : usage.waitWork i = some index) {byte : ℕ}
    (hread : ReadsNext s i byte) (hstore : usage.StoresNext s byte) :
    usage.before.length ≤ index.toNat ∧ index.toNat < usage.vals.length := by
  obtain ⟨index', bytes, hpc, hlen, rfl⟩ := hread
  obtain ⟨j, k, b, hnext, he⟩ := hstore
  have hstored := stored hu.offset hu.noOverflow hs
  obtain rfl : index' = index := by
    have hinformed := (knows_informed hu.offset hu.noOverflow usage).worker hs hpc
    exact Option.some.inj (hinformed.2.2.1.symm.trans hindex)
  have hissued : j < usage.vals.length := issues_of_next hnext
  have hcount := hstored.logicalIndex hnext rfl
  have hroom : s.shared.reader.logicalIndex < usage.reader.capacity := by
    rw [UInt64.lt_iff_toNat_lt, hcount]
    exact hissued.trans hu.room
  rw [hstored.address, hstored.address] at he
  have hsame : index' = s.shared.reader.logicalIndex := by
    by_contra hne
    exact byte_ne (b := ⟨bytes.length, hlen⟩) hu.offset hu.noOverflow hcap hroom
      (fun h => hne h.2.1) he
  rw [hsame, hcount]
  refine ⟨?_, hissued⟩
  by_contra hlt
  have hkey : usage.key (.act (.store j k b)) < usage.key (.spawn i) := by
    rw [lt_iff]
    left
    change usage.group j < usage.before.length
    rw [group_of_lt (Nat.lt_of_not_le hlt)]
    exact Nat.lt_of_not_le hlt
  have hstarted := (ForkJoin.System.spawned_iff hs).mp ⟨_, hpc⟩
  exact next_not_mem hnext (executed_of_key_lt hstarted (issues_of_next hnext) hkey)

/-- From its entry a worker gets as far as its read while the main thread stays where it is. -/
theorem reaches_reading (hu : usage.Roomy) (hs : usage.Reaches s)
    (hpc : s.worker i = some .pinning) (hindex : usage.waitWork i = some index) :
    ∃ t, usage.Reaches t ∧ t.done = s.done ∧ t.shared.reader = s.shared.reader ∧
      t.worker i = some (.reading index []) := by
  have hstored := stored hu.offset hu.noOverflow hs
  obtain ⟨mask, hmask⟩ : ∃ mask, Benchmark.setCurrentThreadProcessorID
      (s.shared.reader.cores.get i).toUInt32 = some mask := by
    obtain ⟨mask, hmask⟩ := exists_mask hu i
    have hcores : s.shared.reader.cores = usage.reader.cores := by rw [hstored.same]
    exact ⟨mask, hcores ▸ hmask⟩
  have hpins : usage.system.step s (some i) = some { s with
      shared := { s.shared with masks := s.shared.masks ++ [(i, mask)] }
      worker := Function.update s.worker i (some .waiting) } := by
    simp only [ForkJoin.System.step, hpc, system, worker, hmask, Option.map_some]
  have hwaits : usage.system.step { s with
      shared := { s.shared with masks := s.shared.masks ++ [(i, mask)] }
      worker := Function.update s.worker i (some .waiting) } (some i) = some { s with
      shared := { s.shared with masks := s.shared.masks ++ [(i, mask)] }
      worker := Function.update s.worker i (some (.reading index [])) } := by
    simp only [ForkJoin.System.step, system, worker, Function.update_self, hindex,
      Option.map_some, Function.update_idem]
  exact ⟨_, .next (.next hs hpins) hwaits, rfl, rfl, Function.update_self ..⟩

/-- The main thread can stay in front of a store while the worker gets as far as its read. -/
theorem exists_race (hu : usage.Roomy) (hindex : usage.waitWork i = some index)
    (hge : usage.before.length ≤ index.toNat) (hlt : index.toNat < usage.vals.length) :
    ∃ s, usage.Reaches s ∧ ∃ byte, ReadsNext s i byte ∧ usage.StoresNext s byte := by
  have hpos := UInt64.lt_iff_toNat_lt.mp cfg.sizeofT_pos
  have hmem : .act (.store index.toNat i ⟨0, hpos⟩) ∈ usage.main := mem_main.mpr hlt
  obtain ⟨n, hn, he⟩ := List.getElem_of_mem hmem
  obtain ⟨s, hs, rfl, hpinning⟩ := reaches_main hu (lt_of_store hn he).le
  have hnext : usage.main[s.done]? = some (.act (.store index.toNat i ⟨0, hpos⟩)) := by
    rw [List.getElem?_eq_getElem hn, he]
  have hkey : usage.key (.spawn i) < usage.key (.act (.store index.toNat i ⟨0, hpos⟩)) := by
    rw [lt_iff]
    left
    change usage.before.length < usage.group index.toNat
    rw [group_of_le hge]
    omega
  obtain ⟨pc, hpc⟩ := (ForkJoin.System.spawned_iff hs).mpr (executed_of_next hnext trivial hkey)
  obtain rfl := hpinning i pc hpc
  obtain ⟨t, ht, hdone, hreader, hreads⟩ := reaches_reading hu hs hpc hindex
  have hcount : s.shared.reader.logicalIndex = index :=
    UInt64.toNat_inj.mp ((stored hu.offset hu.noOverflow hs).logicalIndex hnext rfl)
  rw [← hdone] at hnext
  refine ⟨t, ht, t.shared.reader.address i index, ⟨index, [], hreads, hpos, rfl⟩, index.toNat, i,
    ⟨0, hpos⟩, hnext, ?_⟩
  rw [hreader, hcount]
  rfl

theorem returns_of_freed (hu : usage.Roomy) (h : usage.Reaches s) (hlive : s.shared.live = false)
    (i : Fin cfg.N.toNat) : (usage.waitWork i).isSome ∧ usage.finalWork i = true := by
  have hpc := finished_of_joined h (joined_of_freed ((not_live_iff h).mp hlive) i)
  have hinformed := (knows_informed hu.offset hu.noOverflow usage).worker h hpc
  obtain ⟨-, hdone, bytes, -, -, index, hindex, -⟩ := hinformed
  rw [hindex]
  exact ⟨rfl, hdone⟩

end Tailslayer.HedgedReader.Usage
