import Tailslayer.ThreadManager.Configuration

/-! What each call can do from a state that satisfies the ownership invariant. -/
namespace Tailslayer.DynamicThreadManager

open FiniteMap ProcessorConfigurationVector

variable {Mask : Type} {cfg : ProcessorConfigurationVector Mask} {s t : DynamicThreadManager Mask}
  {k : UInt64} {i : UInt32} {l : ThreadIdxList} {b : Begin}

/-- The two maps split the free threads core by core; the core table never changes. -/
structure Invariant (cfg : ProcessorConfigurationVector Mask) (s : DynamicThreadManager Mask) :
    Prop where
  map : s.map = cfg
  cores : s.coreToThreadMapIdx = coreTable cfg ∅
  free : ∀ k l, s.freeCoreMap.lookup k = some l → cfg.IsCore k ∧ l = cfg.threadsOf k
  partially : ∀ k l, s.partiallyFreeCoreMap.lookup k = some l →
    l ≠ [] ∧ l.Nodup ∧ l ⊆ cfg.threadsOf k ∧ l.length < (cfg.threadsOf k).length
  disjoint : ∀ k, k ∈ s.freeCoreMap → k ∉ s.partiallyFreeCoreMap
  coreCount : s.freeCoreCount.toNat = size s.freeCoreMap

/-- The thread index is stored in one of the two maps. -/
def Pooled (s : DynamicThreadManager Mask) (i : UInt32) : Prop :=
  ∃ k l, (s.freeCoreMap.lookup k = some l ∨ s.partiallyFreeCoreMap.lookup k = some l) ∧ i ∈ l

/-- The calls a well-behaved client makes: releases name processors and cores of `cfg`. -/
def Allowed (cfg : ProcessorConfigurationVector Mask) : Call Mask → Prop
  | .allocateProcessor => True
  | .allocateThread => True
  | .freeThread id => id ∈ cfg.proc
  | .freeProcessor coreID packageID => ∃ p ∈ cfg.proc, p.coreID = coreID ∧ p.pkgID = packageID

/-- A core's list after its last index was popped: an empty list leaves the map. -/
def shrink (k : UInt64) (l : ThreadIdxList) (m : ProcMap) : ProcMap :=
  if l = [] then m.erase k else m.insert k l

theorem lookup_shrink (k : UInt64) (l : ThreadIdxList) (m : ProcMap) (a : UInt64) :
    (shrink k l m).lookup a =
      if a = k then (if l = [] then none else some l) else m.lookup a := by
  unfold shrink
  split
  · rw [lookup_erase_ite]
  · rw [lookup_insert_ite]

/-- The outcomes of a call, each with its guard and the state it leaves. -/
inductive Effect [Inhabited Mask] (cfg : ProcessorConfigurationVector Mask)
    (s : DynamicThreadManager Mask) : Call Mask → Reply Mask → DynamicThreadManager Mask → Prop
  | noCore (h : s.freeCoreMap = ∅) : Effect cfg s .allocateProcessor (.processors false []) s
  | core (k : UInt64) (h : k ∈ s.freeCoreMap) :
      Effect cfg s .allocateProcessor (.processors true (cfg.coreProcs k)) { s with
        freeCoreMap := s.freeCoreMap.erase k
        freeThreadCount := s.freeThreadCount - UInt32.ofNat (cfg.threadsOf k).length
        freeCoreCount := s.freeCoreCount - 1 }
  | noThread (h : s.freeThreadCount = 0 ∨ (s.partiallyFreeCoreMap = ∅ ∧ s.freeCoreMap = ∅)) :
      Effect cfg s .allocateThread (.thread .sentinel) s
  | threadOfPartial (k : UInt64) (l : ThreadIdxList) (p : LogicalProcessor Mask)
      (hp : p ∈ cfg.proc) (hc : s.freeThreadCount ≠ 0)
      (h : s.partiallyFreeCoreMap.lookup k = some (l ++ [p.globalID])) :
      Effect cfg s .allocateThread (.thread p) { s with
        partiallyFreeCoreMap := shrink k l s.partiallyFreeCoreMap
        freeThreadCount := s.freeThreadCount - 1 }
  | threadOfFree (k : UInt64) (l : ThreadIdxList) (p : LogicalProcessor Mask)
      (hp : p ∈ cfg.proc) (hc : s.freeThreadCount ≠ 0) (he : s.partiallyFreeCoreMap = ∅)
      (hk : k ∈ s.freeCoreMap) (h : cfg.threadsOf k = l ++ [p.globalID]) :
      Effect cfg s .allocateThread (.thread p) { s with
        partiallyFreeCoreMap := shrink k l s.partiallyFreeCoreMap
        freeCoreMap := s.freeCoreMap.erase k
        freeThreadCount := s.freeThreadCount - 1
        freeCoreCount := s.freeCoreCount - 1 }
  | threadAlreadyFree (p : LogicalProcessor Mask) (h : s.Pooled p.globalID) :
      Effect cfg s (.freeThread p) .released s
  | threadReturned (p : LogicalProcessor Mask) (hp : p ∈ cfg.proc) (h : ¬ s.Pooled p.globalID)
      (l : ThreadIdxList) (hl : l = value p.uniqueCoreID s.partiallyFreeCoreMap ++ [p.globalID])
      (hn : l.length < (cfg.threadsOf p.uniqueCoreID).length) :
      Effect cfg s (.freeThread p) .released { s with
        partiallyFreeCoreMap := s.partiallyFreeCoreMap.insert p.uniqueCoreID l
        freeThreadCount := s.freeThreadCount + 1 }
  | coreCompleted (p : LogicalProcessor Mask) (hp : p ∈ cfg.proc) (h : ¬ s.Pooled p.globalID)
      (hn : (value p.uniqueCoreID s.partiallyFreeCoreMap).length + 1 =
        (cfg.threadsOf p.uniqueCoreID).length) :
      Effect cfg s (.freeThread p) .released { s with
        partiallyFreeCoreMap := s.partiallyFreeCoreMap.erase p.uniqueCoreID
        freeCoreMap := s.freeCoreMap.insert p.uniqueCoreID (cfg.threadsOf p.uniqueCoreID)
        freeThreadCount := s.freeThreadCount + 1
        freeCoreCount := s.freeCoreCount + 1 }
  | coreAlreadyFree (p : LogicalProcessor Mask) (hp : p ∈ cfg.proc)
      (h : p.uniqueCoreID ∈ s.freeCoreMap) :
      Effect cfg s (.freeProcessor p.coreID p.pkgID) .released s
  | coreReturned (p : LogicalProcessor Mask) (hp : p ∈ cfg.proc)
      (h : p.uniqueCoreID ∉ s.freeCoreMap) :
      Effect cfg s (.freeProcessor p.coreID p.pkgID) .released { s with
        partiallyFreeCoreMap := s.partiallyFreeCoreMap.erase p.uniqueCoreID
        freeCoreMap := s.freeCoreMap.insert p.uniqueCoreID (cfg.threadsOf p.uniqueCoreID)
        freeThreadCount :=
          s.freeThreadCount + UInt32.ofNat (cfg.threadsOf p.uniqueCoreID).length
        freeCoreCount := s.freeCoreCount + 1 }

namespace Invariant

theorem lookup_free (h : s.Invariant cfg) (hk : k ∈ s.freeCoreMap) :
    s.freeCoreMap.lookup k = some (cfg.threadsOf k) := by
  obtain ⟨l, hl⟩ := Finmap.mem_iff.mp hk
  rw [hl, (h.free k l hl).2]

theorem disjoint_keys (h : s.Invariant cfg) :
    Disjoint s.freeCoreMap.keys s.partiallyFreeCoreMap.keys := by
  rw [Finset.disjoint_left]
  intro k hk hp
  exact h.disjoint k (Finmap.mem_keys.mp hk) (Finmap.mem_keys.mp hp)

theorem isCore_free (h : s.Invariant cfg) (hk : k ∈ s.freeCoreMap) : cfg.IsCore k :=
  (h.free k _ (h.lookup_free hk)).1

theorem isCore_partially (h : s.Invariant cfg) (hk : k ∈ s.partiallyFreeCoreMap) :
    cfg.IsCore k := by
  obtain ⟨l, hl⟩ := Finmap.mem_iff.mp hk
  have hlt := (h.partially k l hl).2.2.2
  apply threadsOf_ne_nil.mp
  intro hn
  simp [hn] at hlt

theorem pooled_iff (h : s.Invariant cfg) : s.Pooled i ↔
    ∃ k, i ∈ cfg.threadsOf k ∧
      (k ∈ s.freeCoreMap ∨ ∃ l, s.partiallyFreeCoreMap.lookup k = some l ∧ i ∈ l) := by
  constructor
  · rintro ⟨k, l, hl | hl, hi⟩
    · have hf := h.free k l hl
      exact ⟨k, hf.2 ▸ hi, Or.inl (Finmap.mem_of_lookup_eq_some hl)⟩
    · exact ⟨k, (h.partially k l hl).2.2.1 hi, Or.inr ⟨l, hl, hi⟩⟩
  · rintro ⟨k, hi, hk | ⟨l, hl, hil⟩⟩
    · exact ⟨k, _, Or.inl (h.lookup_free hk), hi⟩
    · exact ⟨k, l, Or.inr hl, hil⟩

/-- Whether a thread of a given core is free is decided by that core's entries alone. -/
theorem pooled_of_core (hw : cfg.WellFormed) (h : s.Invariant cfg) (hi : i ∈ cfg.threadsOf k) :
    s.Pooled i ↔ k ∈ s.freeCoreMap ∨
      ∃ l, s.partiallyFreeCoreMap.lookup k = some l ∧ i ∈ l := by
  rw [h.pooled_iff]
  constructor
  · rintro ⟨k', hi', hk⟩
    obtain rfl := hw.core_unique hi hi'
    exact hk
  · intro hk
    exact ⟨k, hi, hk⟩

theorem mem_proc_of_pooled (h : s.Invariant cfg) (hi : s.Pooled i) :
    ∃ p ∈ cfg.proc, p.globalID = i := by
  obtain ⟨k, hk, _⟩ := h.pooled_iff.mp hi
  obtain ⟨p, hp, _, he⟩ := mem_threadsOf.mp hk
  exact ⟨p, hp, he⟩

/-- A core is in the free map exactly when every one of its threads is free. -/
theorem mem_free_iff (hw : cfg.WellFormed) (h : s.Invariant cfg) (hc : cfg.IsCore k) :
    k ∈ s.freeCoreMap ↔ ∀ i ∈ cfg.threadsOf k, s.Pooled i := by
  constructor
  · intro hk i hi
    exact (h.pooled_of_core hw hi).mpr (Or.inl hk)
  · intro hall
    by_contra hk
    obtain ⟨i, hi⟩ := List.exists_mem_of_ne_nil _ (threadsOf_ne_nil.mpr hc)
    obtain hf | ⟨l, hl, _⟩ := (h.pooled_of_core hw hi).mp (hall i hi)
    · exact hk hf
    · have hs : cfg.threadsOf k ⊆ l := by
        intro j hj
        obtain hf | ⟨l', hl', hjl⟩ := (h.pooled_of_core hw hj).mp (hall j hj)
        · exact (hk hf).elim
        · rw [hl] at hl'
          exact Option.some.inj hl' ▸ hjl
      have hle := (List.subperm_of_subset (hw.nodup_threadsOf k) hs).length_le
      have hlt := (h.partially k l hl).2.2.2
      omega

end Invariant

/-! The effect of each operation. -/

theorem storesThread_iff (hw : cfg.WellFormed) (h : s.map = cfg) {m : ProcMap}
    {p : LogicalProcessor Mask} (hp : p ∈ cfg.proc)
    (hm : ∀ k l, m.lookup k = some l → l ⊆ cfg.threadsOf k) :
    s.StoresThread m p.globalID ↔ ∃ k l, m.lookup k = some l ∧ p.globalID ∈ l := by
  rw [StoresThread, anyValue_iff, h]
  constructor
  · rintro ⟨k, l, hl, i, hi, he⟩
    obtain ⟨q, hq, _, rfl⟩ := mem_threadsOf.mp (hm k l hl hi)
    rw [hw.getElem_globalID hq, Option.map_some, Option.some.injEq] at he
    exact ⟨k, l, hl, he ▸ hi⟩
  · rintro ⟨k, l, hl, hi⟩
    exact ⟨k, l, hl, _, hi, by rw [hw.getElem_globalID hp, Option.map_some]⟩

theorem not_storesOutside (hw : cfg.WellFormed) (h : s.map = cfg) {m : ProcMap}
    (hm : ∀ k l, m.lookup k = some l → l ⊆ cfg.threadsOf k) : ¬ s.StoresOutside m := by
  rw [StoresOutside, anyValue_iff, h]
  rintro ⟨k, l, hl, i, hi, hle⟩
  obtain ⟨q, hq, _, rfl⟩ := mem_threadsOf.mp (hm k l hl hi)
  have hlt := hw.globalID_lt hq
  omega

/-- Handing out valid indices one by one returns their processors and counts them off. -/
theorem foldlM_handOut (hw : cfg.WellFormed) (ps : List (LogicalProcessor Mask))
    (hps : ∀ p ∈ ps, p ∈ cfg.proc) (out : List (LogicalProcessor Mask)) (n : UInt32) :
    (ps.map LogicalProcessor.globalID).foldlM (m := Except Fault)
      (fun (acc : List (LogicalProcessor Mask) × UInt32) mapIdx => do
        let p ← cfg.at mapIdx
        return (acc.1 ++ [p], acc.2 - 1)) (out, n) =
      .ok (out ++ ps, n - UInt32.ofNat ps.length) := by
  induction ps generalizing out n with
  | nil => simp [pure, Except.pure]
  | cons p ps ih =>
    have hp : cfg.at p.globalID = .ok p := hw.at_globalID (hps p (by simp))
    rw [List.map_cons, List.foldlM_cons, hp]
    change List.foldlM _ (out ++ [p], n - 1) _ = _
    rw [ih (fun q hq => hps q (by simp [hq]))]
    have hn : n - 1 - UInt32.ofNat ps.length = n - UInt32.ofNat (p :: ps).length := by
      rw [List.length_cons, UInt32.ofNat_add]
      grind
    rw [hn]
    simp

/-- A partially free list always has room for one more thread of its core. -/
theorem length_partially_lt (h : s.Invariant cfg) {p : LogicalProcessor Mask}
    (hp : p ∈ cfg.proc) :
    (value p.uniqueCoreID s.partiallyFreeCoreMap).length <
      (cfg.threadsOf p.uniqueCoreID).length := by
  cases hl : s.partiallyFreeCoreMap.lookup p.uniqueCoreID with
  | none =>
    rw [value, hl]
    exact List.length_pos_iff.mpr (threadsOf_ne_nil.mpr ⟨p, hp, rfl⟩)
  | some l =>
    rw [value_of_lookup hl]
    exact (h.partially _ l hl).2.2.2

/-- The shortcut of `freeProcessor`: as many free cores as cores means every core is free. -/
theorem mem_free_of_size_eq (hw : cfg.WellFormed) (h : s.Invariant cfg) (hc : cfg.IsCore k)
    (hs : size s.freeCoreMap = size s.coreToThreadMapIdx) : k ∈ s.freeCoreMap := by
  have hsub : s.freeCoreMap.keys ⊆ s.coreToThreadMapIdx.keys := by
    intro x hx
    rw [Finmap.mem_keys] at hx ⊢
    rw [h.cores]
    exact (mem_coreTable hw).mpr (h.isCore_free hx)
  have he := Finset.eq_of_subset_of_card_le hsub (le_of_eq hs.symm)
  rw [← Finmap.mem_keys, he, Finmap.mem_keys, h.cores]
  exact (mem_coreTable hw).mpr hc

theorem first_of_ne_empty {m : ProcMap} (h : m ≠ ∅) : b.first m = .ok (b.pick m) := by
  simp [Begin.first, h]

theorem freeCoreCount_eq_zero_iff (h : s.Invariant cfg) :
    s.freeCoreCount = 0 ↔ s.freeCoreMap = ∅ := by
  rw [← size_eq_zero_iff, ← h.coreCount, ← UInt32.toNat_inj]
  rfl

/-- Every nonempty list of stored indices ends in the index of a processor of the core. -/
theorem exists_last (hl : l ≠ []) (hs : l ⊆ cfg.threadsOf k) :
    ∃ l' p, p ∈ cfg.proc ∧ l = l' ++ [p.globalID] := by
  obtain ⟨i, hi⟩ := List.getLast?_isSome.mpr hl |> Option.isSome_iff_exists.mp
  obtain ⟨l', rfl⟩ := List.getLast?_eq_some_iff.mp hi
  obtain ⟨p, hp, _, rfl⟩ := mem_threadsOf.mp (hs (by simp : i ∈ l' ++ [i]))
  exact ⟨l', p, hp, rfl⟩

/-- Taking a thread from a state whose partially free map holds `l ++ [p.globalID]` under `k`. -/
theorem takeThread_of_lookup (hw : cfg.WellFormed) (hm : s.map = cfg)
    {p : LogicalProcessor Mask} (hp : p ∈ cfg.proc) (hk : b.pick s.partiallyFreeCoreMap = k)
    (hl : s.partiallyFreeCoreMap.lookup k = some (l ++ [p.globalID])) :
    s.takeThread b = .ok (p, { s with
      partiallyFreeCoreMap := shrink k l s.partiallyFreeCoreMap
      freeThreadCount := s.freeThreadCount - 1 }) := by
  have hne : s.partiallyFreeCoreMap ≠ ∅ := by
    intro he
    simp [he] at hl
  have hv := value_of_lookup hl
  have hs : (if (value k (adjust k List.dropLast s.partiallyFreeCoreMap)).length = 0
      then (adjust k List.dropLast s.partiallyFreeCoreMap).erase k
      else adjust k List.dropLast s.partiallyFreeCoreMap) =
      shrink k l s.partiallyFreeCoreMap := by
    rw [value_adjust]
    simp only [hv, adjust, List.dropLast_concat, List.length_eq_zero_iff, shrink, erase_insert]
  simp only [takeThread, first_of_ne_empty hne, hk, hv, bind, Except.bind,
    List.getLast?_concat, hs, hm, hw.at_globalID hp]
  rfl

section Effects

variable [Inhabited Mask]

omit [Inhabited Mask] in
/-- Where a core is free, all threads of the core that `begin()` picks are handed out. -/
theorem allocateProcessor_of_ne (hw : cfg.WellFormed) (h : s.Invariant cfg)
    (hne : s.freeCoreMap ≠ ∅) :
    s.allocateProcessor b [] = .ok (true, cfg.coreProcs (b.pick s.freeCoreMap), { s with
      freeCoreMap := s.freeCoreMap.erase (b.pick s.freeCoreMap)
      freeThreadCount :=
        s.freeThreadCount - UInt32.ofNat (cfg.threadsOf (b.pick s.freeCoreMap)).length
      freeCoreCount := s.freeCoreCount - 1 }) := by
  have hc : s.freeCoreCount ≠ 0 := fun hc => hne ((freeCoreCount_eq_zero_iff h).mp hc)
  have hv : value (b.pick s.freeCoreMap) s.freeCoreMap =
      (cfg.coreProcs (b.pick s.freeCoreMap)).map LogicalProcessor.globalID :=
    value_of_lookup (h.lookup_free (b.pick_mem s.freeCoreMap hne))
  have hf := foldlM_handOut hw (cfg.coreProcs (b.pick s.freeCoreMap))
    (fun p hp => (mem_coreProcs.mp hp).1) [] s.freeThreadCount
  simp only [allocateProcessor, hc, if_false, first_of_ne_empty hne, hv, h.map, threadsOf,
    List.length_map, bind, Except.bind] at hf ⊢
  rw [hf]
  simp [pure, Except.pure]

theorem allocateProcessor_effect (hw : cfg.WellFormed) (h : s.Invariant cfg) (b : Begin) :
    ∃ r t, s.call b .allocateProcessor = .ok (r, t) ∧ Effect cfg s .allocateProcessor r t := by
  by_cases hne : s.freeCoreMap = ∅
  · have hc := (freeCoreCount_eq_zero_iff h).mpr hne
    refine ⟨.processors false [], s, ?_, .noCore hne⟩
    simp [call, allocateProcessor, hc, bind, Except.bind, pure, Except.pure]
  · refine ⟨_, _, ?_, .core _ (b.pick_mem s.freeCoreMap hne)⟩
    rw [call, allocateProcessor_of_ne hw h hne]
    rfl

theorem allocateThread_effect (hw : cfg.WellFormed) (h : s.Invariant cfg) (b : Begin) :
    ∃ r t, s.call b .allocateThread = .ok (r, t) ∧ Effect cfg s .allocateThread r t := by
  by_cases hc : s.freeThreadCount = 0
  · refine ⟨.thread .sentinel, s, ?_, .noThread (Or.inl hc)⟩
    simp [call, allocateThread, hc, bind, Except.bind, pure, Except.pure]
  by_cases hp : s.partiallyFreeCoreMap = ∅
  · by_cases hf : s.freeCoreMap = ∅
    · refine ⟨.thread .sentinel, s, ?_, .noThread (Or.inr ⟨hp, hf⟩)⟩
      simp [call, allocateThread, hc, hp, hf, bind, Except.bind, pure, Except.pure]
    · have hk := b.pick_mem s.freeCoreMap hf
      have hv := value_of_lookup (h.lookup_free hk)
      obtain ⟨l, p, hpc, hl⟩ := exists_last
        (threadsOf_ne_nil.mpr (h.isCore_free hk)) (List.Subset.refl _)
      -- the opened core is now the only partially free one, so `begin()` picks it again
      have hpick : b.pick (s.partiallyFreeCoreMap.insert (b.pick s.freeCoreMap)
          (cfg.threadsOf (b.pick s.freeCoreMap))) = b.pick s.freeCoreMap := by
        have hm := b.pick_mem (s.partiallyFreeCoreMap.insert (b.pick s.freeCoreMap)
          (cfg.threadsOf (b.pick s.freeCoreMap))) (by
            intro he
            have hin := eq_empty_iff.mp he (b.pick s.freeCoreMap)
            simp [Finmap.mem_insert] at hin)
        rw [Finmap.mem_insert, hp] at hm
        rcases hm with hm | hm
        · rw [hp, hm]
        · exact (Finmap.notMem_empty hm).elim
      refine ⟨_, _, ?_, .threadOfFree _ l p hpc hc hp hk hl⟩
      have ht := takeThread_of_lookup (b := b) (l := l) (s := { s with
          partiallyFreeCoreMap := s.partiallyFreeCoreMap.insert (b.pick s.freeCoreMap)
            (cfg.threadsOf (b.pick s.freeCoreMap))
          freeCoreMap := s.freeCoreMap.erase (b.pick s.freeCoreMap)
          freeCoreCount := s.freeCoreCount - 1 }) hw h.map hpc hpick (by
            rw [lookup_insert_ite, if_pos rfl, hl])
      have hs : shrink (b.pick s.freeCoreMap) l (s.partiallyFreeCoreMap.insert
          (b.pick s.freeCoreMap) (cfg.threadsOf (b.pick s.freeCoreMap))) =
          shrink (b.pick s.freeCoreMap) l s.partiallyFreeCoreMap := by
        apply Finmap.ext_lookup
        intro x
        simp only [lookup_shrink, lookup_insert_ite]
        split <;> rfl
      simp only [hs] at ht
      simp only [call, allocateThread, openCore, hc, if_false, if_pos hp, hf,
        first_of_ne_empty hf, hv, bind, Except.bind, pure, Except.pure, ht]
  · have hk := b.pick_mem s.partiallyFreeCoreMap hp
    obtain ⟨v, hv⟩ := Finmap.mem_iff.mp hk
    obtain ⟨hne, _, hsub, _⟩ := h.partially _ _ hv
    obtain ⟨l, p, hpc, rfl⟩ := exists_last hne hsub
    refine ⟨_, _, ?_, .threadOfPartial _ l p hpc hc hv⟩
    simp only [call, allocateThread, hc, hp, if_false, takeThread_of_lookup hw h.map hpc rfl hv,
      bind, Except.bind]
    rfl

theorem freeThread_effect (hw : cfg.WellFormed) (h : s.Invariant cfg) (b : Begin)
    {p : LogicalProcessor Mask} (hp : p ∈ cfg.proc) :
    ∃ r t, s.call b (.freeThread p) = .ok (r, t) ∧ Effect cfg s (.freeThread p) r t := by
  have hsubf : ∀ k l, s.freeCoreMap.lookup k = some l → l ⊆ cfg.threadsOf k := by
    intro k l hl
    rw [(h.free k l hl).2]
    exact List.Subset.refl _
  have hsubp : ∀ k l, s.partiallyFreeCoreMap.lookup k = some l → l ⊆ cfg.threadsOf k :=
    fun k l hl => (h.partially k l hl).2.2.1
  have hout : ¬ (s.StoresOutside s.partiallyFreeCoreMap ∨ s.StoresOutside s.freeCoreMap) := by
    rintro (ho | ho)
    · exact not_storesOutside hw h.map hsubp ho
    · exact not_storesOutside hw h.map hsubf ho
  have hst : (s.StoresThread s.partiallyFreeCoreMap p.globalID ∨
      s.StoresThread s.freeCoreMap p.globalID) ↔ s.Pooled p.globalID := by
    rw [storesThread_iff hw h.map hp hsubp, storesThread_iff hw h.map hp hsubf]
    constructor
    · rintro (⟨k, l, hl, hi⟩ | ⟨k, l, hl, hi⟩)
      · exact ⟨k, l, Or.inr hl, hi⟩
      · exact ⟨k, l, Or.inl hl, hi⟩
    · rintro ⟨k, l, hl | hl, hi⟩
      · exact Or.inr ⟨k, l, hl, hi⟩
      · exact Or.inl ⟨k, l, hl, hi⟩
  by_cases hpool : s.Pooled p.globalID
  · refine ⟨.released, s, ?_, .threadAlreadyFree p hpool⟩
    simp only [call, freeThread, hout, if_false, if_pos (hst.mpr hpool), bind, Except.bind]
    rfl
  have hst' := fun hs => hpool (hst.mp hs)
  have hcore : cfg.IsCore p.uniqueCoreID := ⟨p, hp, rfl⟩
  have htouch : touch p.uniqueCoreID s.coreToThreadMapIdx = s.coreToThreadMapIdx := by
    rw [h.cores]
    exact touch_of_mem ((mem_coreTable hw).mpr hcore)
  have hval : value p.uniqueCoreID s.coreToThreadMapIdx = _ :=
    h.cores ▸ value_coreTable hw hcore
  have hle := length_partially_lt h hp
  by_cases hn : (value p.uniqueCoreID s.partiallyFreeCoreMap).length + 1 =
      (cfg.threadsOf p.uniqueCoreID).length
  · refine ⟨_, _, ?_, .coreCompleted p hp hpool hn⟩
    simp only [call, freeThread, hout, if_false, if_neg hst', value_insert, hval, htouch,
      toNat_threadCount hw, List.length_append, List.length_singleton, hn, if_true, adjust,
      erase_insert, bind, Except.bind]
    rfl
  · refine ⟨_, _, ?_, .threadReturned p hp hpool _ rfl (by
      rw [List.length_append, List.length_singleton]; omega)⟩
    simp only [call, freeThread, hout, if_false, if_neg hst', value_insert, hval, htouch,
      toNat_threadCount hw, List.length_append, List.length_singleton, if_neg hn, adjust,
      bind, Except.bind]
    rfl

theorem freeProcessor_effect (hw : cfg.WellFormed) (h : s.Invariant cfg) (b : Begin)
    {p : LogicalProcessor Mask} (hp : p ∈ cfg.proc) :
    ∃ r t, s.call b (.freeProcessor p.coreID p.pkgID) = .ok (r, t) ∧
      Effect cfg s (.freeProcessor p.coreID p.pkgID) r t := by
  have hcore : cfg.IsCore p.uniqueCoreID := ⟨p, hp, rfl⟩
  have hkey : (⟨0xffffffff, p.coreID, p.pkgID, 1, default⟩ : LogicalProcessor Mask).uniqueCoreID =
      p.uniqueCoreID := LogicalProcessor.uniqueCoreID_inj.mpr ⟨rfl, rfl⟩
  have hfull := mem_free_of_size_eq hw h hcore
  by_cases hk : p.uniqueCoreID ∈ s.freeCoreMap
  · refine ⟨.released, s, ?_, .coreAlreadyFree p hp hk⟩
    simp only [call, freeProcessor, hkey, hk, or_true, if_true]
  · refine ⟨_, _, ?_, .coreReturned p hp hk⟩
    have htouch : touch p.uniqueCoreID s.coreToThreadMapIdx = s.coreToThreadMapIdx := by
      rw [h.cores]
      exact touch_of_mem ((mem_coreTable hw).mpr hcore)
    have hval : value p.uniqueCoreID s.coreToThreadMapIdx = _ :=
      h.cores ▸ value_coreTable hw hcore
    have hsz : ¬ (size s.freeCoreMap = size s.coreToThreadMapIdx ∨
        p.uniqueCoreID ∈ s.freeCoreMap) := by
      rintro (hs | hs)
      · exact hk (hfull hs)
      · exact hk hs
    simp only [call, freeProcessor, hkey, if_neg hsz, htouch, hval]

/-- No allowed call faults, and each has one of the listed effects. -/
theorem call_effect (hw : cfg.WellFormed) (h : s.Invariant cfg) (b : Begin) (c : Call Mask)
    (hc : Allowed cfg c) : ∃ r t, s.call b c = .ok (r, t) ∧ Effect cfg s c r t := by
  cases c with
  | allocateProcessor => exact allocateProcessor_effect hw h b
  | allocateThread => exact allocateThread_effect hw h b
  | freeThread p => exact freeThread_effect hw h b hc
  | freeProcessor coreID packageID =>
    obtain ⟨p, hp, rfl, rfl⟩ := hc
    exact freeProcessor_effect hw h b hp

end Effects

end Tailslayer.DynamicThreadManager
