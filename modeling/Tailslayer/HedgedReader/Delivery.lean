import Tailslayer.HedgedReader.Workers

/-! What the workers of a `HedgedReader` hand to `final_work`, whatever the order of the steps. -/
namespace Tailslayer.HedgedReader.Usage

open Benchmark (setCurrentThreadProcessorID)
open ForkJoin (Command)
open Phases (lt_iff)
open WordBits
open ForkJoin.System (Latch Active before_of_key effect_of_step next_not_mem executed_next)

variable {cfg : Config} {usage : Usage cfg} {s : State cfg} {i k : Fin cfg.N.toNat}
  {b b' : Fin cfg.sizeofT.toNat} {a : Action cfg} {j : ℕ} {l l' : UInt64}
  {v u : Shared cfg} {x y : Command (Fin cfg.N.toNat) (Action cfg)} {pc pc' : WorkerState}

/-! The order of the commands. -/

theorem executed_of_key_lt (hy : y ∈ usage.executed s) (hx : usage.Issues x)
    (hlt : usage.key x < usage.key y) : x ∈ usage.executed s :=
  (before_of_key (S := usage.system) (sorted_main usage) (mem_main.mpr hx)
    (List.mem_of_mem_take hy) hlt).executed hy

theorem executed_of_next (hy : usage.main[s.done]? = some y) (hx : usage.Issues x)
    (hlt : usage.key x < usage.key y) : x ∈ usage.executed s :=
  (before_of_key (S := usage.system) (sorted_main usage) (mem_main.mpr hx)
    (List.mem_of_getElem? hy) hlt).executed_of_next hy

theorem issues_of_next (h : usage.main[s.done]? = some x) : usage.Issues x :=
  mem_main.mp (List.mem_of_getElem? h)

theorem executed_succ {t : State cfg} (hnext : usage.main[s.done]? = some x)
    (ht : t.done = s.done + 1) : usage.executed t = usage.executed s ++ [x] := by
  rw [executed, ForkJoin.System.executed, ht]
  exact executed_next hnext

theorem executed_other {t : State cfg} (hnext : usage.main[s.done]? = some x)
    (ht : t.done = s.done + 1) (hne : y ≠ x) :
    y ∈ usage.executed t ↔ y ∈ usage.executed s := by
  rw [executed_succ hnext ht, List.mem_append, List.mem_singleton]
  exact or_iff_left hne

/-- What is done does not reach up to the next command. -/
theorem not_executed_of_next (hy : usage.main[s.done]? = some y)
    (hlt : ¬ usage.key x < usage.key y) : x ∉ usage.executed s := by
  intro hx
  have hsorted := sorted_main usage
  rw [← List.take_append_drop s.done usage.main, List.pairwise_append] at hsorted
  refine hlt (hsorted.2.2 x hx y ?_)
  rw [List.drop_eq_getElem_cons (List.getElem?_eq_some_iff.mp hy).1,
    (List.getElem?_eq_some_iff.mp hy).2]
  exact List.mem_cons_self

theorem live_iff (h : usage.Reaches s) :
    s.shared.live = true ↔ .act .free ∉ usage.executed s := by
  have hL : usage.system.Latch (fun v => v.live = false) (· = .free) (fun _ => False) := by
    constructor
    · intro a v w hw
      cases effect_of_act hw <;> simp
    · intro i x v y w hw
      cases effect_of_worker hw <;> exact Iff.rfl
  rw [← Bool.not_eq_false]
  exact not_congr (hL.iff_set (by simp [initial]) h)

theorem key_lt_free (hx : usage.Issues x) (hne : x ≠ .act .free) :
    usage.key x < usage.key (.act .free) := by
  rw [lt_iff]
  rcases x with i | i | (j | ⟨j, i, b⟩ | j | _)
  · have hle : usage.before.length ≤ usage.vals.length := by
      rw [vals, List.length_append]
      exact Nat.le_add_right _ _
    exact .inl (Nat.lt_succ_of_le hle)
  · exact .inr ⟨rfl, .inl (by simp [key])⟩
  · exact .inl (Nat.lt_succ_of_le (group_le hx))
  · exact .inl (Nat.lt_succ_of_le (group_le hx))
  · exact .inl (Nat.lt_succ_of_le (group_le hx))
  · exact absurd rfl hne

/-- The page is there until the main thread is through. -/
theorem not_freed_of_next (hnext : usage.main[s.done]? = some x) :
    .act .free ∉ usage.executed s := by
  intro hfree
  by_cases hx : x = .act .free
  · subst hx
    exact next_not_mem hnext hfree
  · exact next_not_mem hnext
      (executed_of_key_lt hfree (issues_of_next hnext) (key_lt_free (issues_of_next hnext) hx))

/-- The step belongs to the insert of the number. -/
def Belongs (j : ℕ) : Command (Fin cfg.N.toNat) (Action cfg) → Prop
  | .act (.enter j') | .act (.store j' _ _) | .act (.advance j') => j' = j
  | .spawn _ | .join _ | .act .free => False

theorem group_of_belongs (hx : Belongs j x) : (ofLex (usage.key x)).1 = usage.group j := by
  rcases x with i | i | (j' | ⟨j', i, b⟩ | j' | _)
  · cases hx
  · cases hx
  · exact congrArg usage.group hx
  · exact congrArg usage.group hx
  · exact congrArg usage.group hx
  · cases hx

theorem issued_of_belongs (hx : Belongs j x) (h : usage.Issues x) : j < usage.vals.length := by
  rcases x with i | i | (j' | ⟨j', i, b⟩ | j' | _)
  · cases hx
  · cases hx
  · exact lt_of_eq_of_lt (Eq.symm hx) h
  · exact lt_of_eq_of_lt (Eq.symm hx) h
  · exact lt_of_eq_of_lt (Eq.symm hx) h
  · cases hx

/-- The count comes last. -/
theorem key_le_advance (hx : Belongs j x) : ¬ usage.key (.act (.advance j)) < usage.key x := by
  rw [lt_iff, group_of_belongs hx]
  rcases x with i | i | (j' | ⟨j', i, b⟩ | j' | _)
  · cases hx
  · cases hx
  · simp [key]
  · have hi := i.isLt
    simp only [key, ofLex_toLex]
    omega
  · simp [key]
  · cases hx

/-- In the middle of an insert, exactly the earlier ones are counted. -/
theorem advanced_iff_of_next (hnext : usage.main[s.done]? = some x) (hx : Belongs j x)
    {j' : ℕ} : .act (.advance j') ∈ usage.executed s ↔ j' < j := by
  have hgroup : (ofLex (usage.key x)).1 = usage.group j := group_of_belongs hx
  constructor
  · intro hdone
    by_contra hge
    refine not_executed_of_next hnext ?_ hdone
    rcases Nat.lt_or_eq_of_le (Nat.not_lt.mp hge) with hlt | rfl
    · have hlater : usage.group j < usage.group j' := group_lt_iff.mpr hlt
      rw [lt_iff, hgroup]
      simp only [key, ofLex_toLex]
      omega
    · exact key_le_advance hx
  · intro hlt
    have hissued := issued_of_belongs hx (issues_of_next hnext)
    refine executed_of_next hnext (hlt.trans hissued) (lt_iff.mpr (.inl ?_))
    rw [hgroup]
    exact group_lt_iff.mpr hlt

/-- The reader differs from the constructed one in its counter and its page only; a byte of an
element is what was stored there, or as the constructor left it. -/
structure Stored (usage : Usage cfg) (s : State cfg) : Prop where
  same : s.shared.reader = { usage.reader with
    logicalIndex := s.shared.reader.logicalIndex
    replicaPage := s.shared.reader.replicaPage }
  counted : ∀ j, .act (.advance j) ∈ usage.executed s ↔ j < s.shared.reader.logicalIndex.toNat
  room : ∀ j, .act (.enter j) ∈ usage.executed s → j + 1 < usage.reader.capacity.toNat
  written : ∀ i l, ∀ b : Fin cfg.sizeofT.toNat, l < usage.reader.capacity →
    .act (.store l.toNat i b) ∈ usage.executed s → ∃ val, usage.vals[l.toNat]? = some val ∧
      s.shared.mem (usage.reader.address i l + b) = val b
  untouched : ∀ i l, ∀ b : Fin cfg.sizeofT.toNat, l < usage.reader.capacity →
    .act (.store l.toNat i b) ∉ usage.executed s →
      s.shared.mem (usage.reader.address i l + b) = usage.mem (usage.reader.address i l + b)

theorem filled_reader (usage : Usage cfg) : usage.reader.Filled usage.page 0 := by
  obtain ⟨page, hpage, hf⟩ := filled_of_construct usage.constructed
  cases hpage
  exact hf

/-- The reader's own addresses never change. -/
theorem Stored.address (hs : usage.Stored s) (i : Fin cfg.N.toNat) (l : UInt64) :
    s.shared.reader.address i l = usage.reader.address i l := by
  rw [hs.same]
  rfl

theorem Stored.capacity (hs : usage.Stored s) :
    s.shared.reader.capacity = usage.reader.capacity := by
  rw [hs.same]

/-- The insert that is going on is the one that the reader counts to. -/
theorem Stored.logicalIndex (hs : usage.Stored s) (hnext : usage.main[s.done]? = some x)
    (hx : Belongs j x) : s.shared.reader.logicalIndex.toNat = j := by
  have hiff : ∀ j', j' < s.shared.reader.logicalIndex.toNat ↔ j' < j :=
    fun j' => (hs.counted j').symm.trans (advanced_iff_of_next hnext hx)
  apply Nat.le_antisymm
  · exact Nat.not_lt.mp fun hlt => lt_irrefl j ((hiff j).mp hlt)
  · exact Nat.not_lt.mp fun hlt => lt_irrefl _ ((hiff _).mpr hlt)

/-- Past the assertions, the index is below the capacity. -/
theorem Stored.entered (hs : usage.Stored s) (hnext : usage.main[s.done]? = some x)
    (hx : Belongs j x) (hne : x ≠ .act (.enter j)) : j + 1 < usage.reader.capacity.toNat := by
  have hissued := issued_of_belongs hx (issues_of_next hnext)
  refine hs.room j (executed_of_next hnext hissued ?_)
  rw [lt_iff, group_of_belongs hx]
  rcases x with i | i | (j' | ⟨j', i, b⟩ | j' | _)
  · cases hx
  · cases hx
  · exact absurd (congrArg (fun j => Command.act (Action.enter j)) hx) hne
  · exact .inr ⟨rfl, .inl (by simp [key])⟩
  · exact .inr ⟨rfl, .inl (by simp [key])⟩
  · cases hx

/-- The sum does not wrap. -/
theorem Stored.succ (hs : usage.Stored s) (hnext : usage.main[s.done]? = some x)
    (hx : Belongs j x) : (s.shared.reader.logicalIndex + 1).toNat = j + 1 := by
  have hindex := hs.logicalIndex hnext hx
  have hcap := usage.reader.capacity.toNat_lt
  have hlt : j + 1 < 2 ^ 64 := by
    cases j with
    | zero => decide
    | succ j =>
      have hissued := issued_of_belongs hx (issues_of_next hnext)
      have hdone : .act (.advance j) ∈ usage.executed s :=
        (advanced_iff_of_next hnext hx).mpr (Nat.lt_succ_self j)
      have hentered := hs.room j (executed_of_key_lt hdone (Nat.lt_of_succ_lt hissued)
        (lt_iff.mpr (.inr ⟨rfl, .inl (by simp [key])⟩)))
      omega
  rw [UInt64.toNat_add, hindex]
  exact Nat.mod_eq_of_lt hlt

/-- Different bytes of the copies are at different addresses. -/
theorem byte_ne (h0 : 0 ≤ cfg.channelOffset) (ho : cfg.NoOverflow)
    (hl : l < usage.reader.capacity) (hl' : l' < usage.reader.capacity)
    (hne : ¬ (i = k ∧ l = l' ∧ b = b')) :
    usage.reader.address i l + b ≠ usage.reader.address k l' + b' := by
  have hc : cfg.ChecksHold := (construct_eq_ok_iff.mp usage.constructed).1
  have hb := b.isLt
  have hb' := b'.isLt
  by_cases hcopy : i = k ∧ l = l'
  · obtain ⟨rfl, rfl⟩ := hcopy
    intro he
    exact hne ⟨rfl, rfl, Fin.ext (Nat.add_left_cancel he)⟩
  · rcases address_apart h0 hc ho (filled_reader usage).setUp hl hl' hcopy with hapart | hapart
      <;> omega

/-- Steps that are no store and keep the memory. -/
theorem Stored.keep (hs : usage.Stored s) {t : State cfg} (hmem : t.shared.mem = s.shared.mem)
    (hstore : ∀ j i b, .act (.store j i b) ∈ usage.executed t ↔
      .act (.store j i b) ∈ usage.executed s)
    (hsame : t.shared.reader = { usage.reader with
      logicalIndex := t.shared.reader.logicalIndex
      replicaPage := t.shared.reader.replicaPage })
    (hcounted : ∀ j, .act (.advance j) ∈ usage.executed t ↔
      j < t.shared.reader.logicalIndex.toNat)
    (hroom : ∀ j, .act (.enter j) ∈ usage.executed t → j + 1 < usage.reader.capacity.toNat) :
    usage.Stored t where
  same := hsame
  counted := hcounted
  room := hroom
  written := by
    intro i l b hl hdone
    rw [hmem]
    exact hs.written i l b hl ((hstore _ _ _).mp hdone)
  untouched := by
    intro i l b hl hdone
    rw [hmem]
    exact hs.untouched i l b hl fun h => hdone ((hstore _ _ _).mpr h)

/-- A store of the main thread leaves the bytes of all elements alone but its own. -/
theorem Stored.other (h0 : 0 ≤ cfg.channelOffset) (ho : cfg.NoOverflow) (hs : usage.Stored s)
    (hnext : usage.main[s.done]? = some (.act (.store j i b))) {byte : UInt8}
    (hl : l < usage.reader.capacity) (hne : ¬ (j = l.toNat ∧ i = k ∧ b = b')) :
    Function.update s.shared.mem (s.shared.reader.address i s.shared.reader.logicalIndex + b) byte
      (usage.reader.address k l + b') = s.shared.mem (usage.reader.address k l + b') := by
  have hindex := hs.logicalIndex hnext rfl
  have hentered := hs.entered hnext rfl (by simp)
  have hcap : s.shared.reader.logicalIndex < usage.reader.capacity := by
    rw [UInt64.lt_iff_toNat_lt]
    omega
  rw [hs.address]
  apply Function.update_of_ne
  apply byte_ne h0 ho hl hcap
  rintro ⟨rfl, rfl, rfl⟩
  exact hne ⟨hindex.symm, rfl, rfl⟩

/-- A store of the main thread, to a byte of the element that it counts to. -/
theorem Stored.store (h0 : 0 ≤ cfg.channelOffset) (ho : cfg.NoOverflow) (hs : usage.Stored s)
    (hnext : usage.main[s.done]? = some (.act (.store j i b))) {val : Bytes cfg.sizeofT.toNat}
    (hval : usage.vals[j]? = some val) {t : State cfg} (ht : t.done = s.done + 1)
    (hreader : t.shared.reader = s.shared.reader)
    (hmem : t.shared.mem = Function.update s.shared.mem
      (s.shared.reader.address i s.shared.reader.logicalIndex + b) (val b)) : usage.Stored t := by
  have hsucc := executed_succ hnext ht
  constructor
  · rw [hreader]
    exact hs.same
  · intro j'
    rw [hreader]
    exact (executed_other hnext ht (by simp)).trans (hs.counted j')
  · intro j' hdone
    exact hs.room j' ((executed_other hnext ht (by simp)).mp hdone)
  · intro k l b' hl hdone
    by_cases hthis : j = l.toNat ∧ i = k ∧ b = b'
    · -- the byte of this step
      obtain ⟨rfl, rfl, rfl⟩ := hthis
      have he : s.shared.reader.logicalIndex = l :=
        UInt64.toNat_inj.mp (hs.logicalIndex hnext rfl)
      refine ⟨val, hval, ?_⟩
      rw [hmem, he, hs.address, Function.update_self]
    · rw [hmem, hs.other h0 ho hnext hl hthis]
      refine hs.written k l b' hl ((executed_other hnext ht ?_).mp hdone)
      intro he
      cases he
      exact hthis ⟨rfl, rfl, rfl⟩
  · intro k l b' hl hdone
    rw [hsucc, List.mem_append, not_or] at hdone
    have hne : ¬ (j = l.toNat ∧ i = k ∧ b = b') := by
      rintro ⟨rfl, rfl, rfl⟩
      exact hdone.2 List.mem_cons_self
    rw [hmem, hs.other h0 ho hnext hl hne]
    exact hs.untouched k l b' hl hdone.1

theorem stored (h0 : 0 ≤ cfg.channelOffset) (ho : cfg.NoOverflow) (h : usage.Reaches s) :
    usage.Stored s := by
  induction h with
  | start =>
    have hzero := (filled_reader usage).index
    have hnone : ∀ x, x ∉ usage.executed (ForkJoin.State.start _ usage.initial) := by
      simp [ForkJoin.System.executed, ForkJoin.State.start]
    refine ⟨rfl, fun j => ?_, fun j hj => absurd hj (hnone _),
      fun _ _ _ _ hj => absurd hj (hnone _), fun _ _ _ _ _ => rfl⟩
    change _ ↔ j < usage.reader.logicalIndex.toNat
    rw [hzero]
    exact iff_of_false (hnone _) (Nat.not_lt_zero j)
  | @next s label t h hstep ih =>
    cases effect_of_step hstep with
    | spawn hnext | join hnext =>
      exact ih.keep rfl (fun _ _ _ => executed_other hnext rfl (by simp)) ih.same
        (fun j => (executed_other hnext rfl (by simp)).trans (ih.counted j))
        (fun j hj => ih.room j ((executed_other hnext rfl (by simp)).mp hj))
    | work hworker hworks =>
      cases effect_of_worker hworks <;>
        exact ih.keep rfl (fun _ _ _ => Iff.rfl) ih.same ih.counted ih.room
    | act hnext hacts =>
      cases effect_of_act hacts with
      | free =>
        refine ih.keep rfl (fun _ _ _ => executed_other hnext rfl (by simp)) ?_
          (fun j => (executed_other hnext rfl (by simp)).trans (ih.counted j))
          (fun j hj => ih.room j ((executed_other hnext rfl (by simp)).mp hj))
        rw [ih.same]
      | @enter j hpage hroom =>
        refine ih.keep rfl (fun _ _ _ => executed_other hnext rfl (by simp)) ih.same
          (fun j => (executed_other hnext rfl (by simp)).trans (ih.counted j)) ?_
        intro j' hdone
        rw [executed_succ hnext rfl, List.mem_append] at hdone
        rcases hdone with hdone | hdone
        · exact ih.room j' hdone
        · obtain rfl : j' = j := by simpa using hdone
          rw [UInt64.lt_iff_toNat_lt, ih.succ hnext rfl, ih.capacity] at hroom
          exact hroom
      | @advance j =>
        refine ih.keep rfl (fun _ _ _ => executed_other hnext rfl (by simp)) ?_ ?_
          (fun j hj => ih.room j ((executed_other hnext rfl (by simp)).mp hj))
        · rw [ih.same]
        · intro j'
          have hsum : (s.shared.reader.logicalIndex + 1).toNat = j + 1 := ih.succ hnext rfl
          change _ ↔ j' < (s.shared.reader.logicalIndex + 1).toNat
          rw [executed_succ hnext rfl, List.mem_append, ih.counted j', hsum,
            ih.logicalIndex hnext rfl, Nat.lt_succ_iff_lt_or_eq]
          simp
      | store hval hlive hpage => exact ih.store h0 ho hnext hval rfl rfl rfl

/-- A byte of the value under the index: the inserted one, or what the constructor left if the
element was not inserted before the workers were started. -/
def RightByte (usage : Usage cfg) (i : Fin cfg.N.toNat) (index : UInt64)
    (b : Fin cfg.sizeofT.toNat) (byte : UInt8) : Prop :=
  (∃ val, usage.vals[index.toNat]? = some val ∧ byte = val b) ∨
    usage.before.length ≤ index.toNat ∧ byte = usage.mem (usage.reader.address i index + b)

/-- The bytes are right, as far as they go. -/
def RightBytes (usage : Usage cfg) (i : Fin cfg.N.toNat) (index : UInt64) (bytes : List UInt8) :
    Prop :=
  ∀ (b : Fin cfg.sizeofT.toNat) (byte : UInt8), bytes[b.val]? = some byte →
    usage.RightByte i index b byte

/-- What worker `i` may hand to `final_work`. -/
def Right (usage : Usage cfg) (i : Fin cfg.N.toNat) (bytes : List UInt8) : Prop :=
  bytes.length = cfg.sizeofT.toNat ∧ ∃ index, usage.waitWork i = some index ∧
    (index < usage.reader.capacity → usage.RightBytes i index bytes)

/-- The mask that worker `i` installs, if it is defined. -/
def mask (usage : Usage cfg) (i : Fin cfg.N.toNat) : Option UInt64 :=
  setCurrentThreadProcessorID (usage.reader.cores.get i).toUInt32

/-- What a worker did so far. -/
def Informed (usage : Usage cfg) (i : Fin cfg.N.toNat) : WorkerState → Shared cfg → Prop
  | .pinning, v => v.masksOf i = [] ∧ v.workedBy i = []
  | .waiting, v => v.masksOf i = (usage.mask i).toList ∧ v.workedBy i = []
  | .reading index bytes, v => v.masksOf i = (usage.mask i).toList ∧ v.workedBy i = [] ∧
    usage.waitWork i = some index ∧ bytes.length ≤ cfg.sizeofT.toNat ∧
    (index < usage.reader.capacity → usage.RightBytes i index bytes)
  | .working, v => v.masksOf i = (usage.mask i).toList ∧
    ∃ bytes, v.workedBy i = [bytes] ∧ usage.Right i bytes
  | .finished, v => v.masksOf i = (usage.mask i).toList ∧ usage.finalWork i = true ∧
    ∃ bytes, v.workedBy i = [bytes] ∧ usage.Right i bytes

theorem informed_congr (hm : u.masksOf i = v.masksOf i) (hw : u.workedBy i = v.workedBy i)
    (h : usage.Informed i pc v) : usage.Informed i pc u := by
  cases pc <;> simpa only [Informed, hm, hw] using h

/-- A step of a worker is recorded under its own number only. -/
theorem WorkerEffect.other (h : usage.WorkerEffect k v pc pc' u) (hik : i ≠ k) :
    u.masksOf i = v.masksOf i ∧ u.workedBy i = v.workedBy i := by
  cases h <;> simp [Shared.masksOf, Shared.workedBy, hik.symm]

theorem ActionEffect.records (h : usage.ActionEffect v a u) :
    u.masks = v.masks ∧ u.worked = v.worked := by
  cases h <;> exact ⟨rfl, rfl⟩

/-- Nothing is recorded for a worker that was not started. -/
theorem records_of_not_started (h : usage.Reaches s) (hi : .spawn i ∉ usage.executed s) :
    s.shared.masksOf i = [] ∧ s.shared.workedBy i = [] := by
  induction h with
  | start => exact ⟨rfl, rfl⟩
  | next h hstep ih =>
    cases effect_of_step hstep with
    | spawn hnext | join hnext =>
      rw [executed_succ hnext rfl, List.mem_append, not_or] at hi
      exact ih hi.1
    | act hnext hacts =>
      rw [executed_succ hnext rfl, List.mem_append, not_or] at hi
      obtain ⟨hmasks, hworked⟩ := (effect_of_act hacts).records
      simpa only [Shared.masksOf, Shared.workedBy, hmasks, hworked] using ih hi.1
    | @work k _ _ _ hworker hworks =>
      have hne : i ≠ k := by
        rintro rfl
        exact hi ((ForkJoin.System.spawned_iff h).mp ⟨_, hworker⟩)
      obtain ⟨hmasks, hworked⟩ := (effect_of_worker hworks).other hne
      simpa only [hmasks, hworked] using ih hi

/-- What was inserted before the workers were started is there when they read. -/
theorem rightByte_of_read (h0 : 0 ≤ cfg.channelOffset) (ho : cfg.NoOverflow)
    (h : usage.Reaches s) (hstarted : .spawn i ∈ usage.executed s) {index : UInt64}
    (hcap : index < usage.reader.capacity) (b : Fin cfg.sizeofT.toNat) :
    usage.RightByte i index b (s.shared.mem (s.shared.reader.address i index + b)) := by
  have hs := stored h0 ho h
  rw [hs.address]
  by_cases hdone : .act (.store index.toNat i b) ∈ usage.executed s
  · obtain ⟨val, hval, hbyte⟩ := hs.written i index b hcap hdone
    exact .inl ⟨val, hval, hbyte⟩
  · refine .inr ⟨?_, hs.untouched i index b hcap hdone⟩
    by_contra hbefore
    have hlt : index.toNat < usage.before.length := Nat.lt_of_not_le hbefore
    refine hdone (executed_of_key_lt hstarted ?_ ?_)
    · change index.toNat < usage.vals.length
      rw [vals, List.length_append]
      omega
    · rw [lt_iff]
      left
      change usage.group index.toNat < usage.before.length
      rwa [group_of_lt hlt]

theorem RightBytes.nil (index : UInt64) : usage.RightBytes i index [] := by
  intro b byte hbyte
  cases hbyte

theorem RightBytes.snoc {index : UInt64} {bytes : List UInt8} {byte : UInt8}
    (h : usage.RightBytes i index bytes) (hbyte : ∀ b : Fin cfg.sizeofT.toNat,
      b.val = bytes.length → usage.RightByte i index b byte) :
    usage.RightBytes i index (bytes ++ [byte]) := by
  intro b c hc
  rw [List.getElem?_append] at hc
  split at hc
  · exact h b c hc
  · next hge =>
    have hlast := (List.getElem?_eq_some_iff.mp hc).1
    rw [List.length_singleton] at hlast
    have hb : b.val = bytes.length := by omega
    rw [hb, Nat.sub_self] at hc
    obtain rfl : byte = c := Option.some.inj hc
    exact hbyte b hb

theorem knows_informed (h0 : 0 ≤ cfg.channelOffset) (ho : cfg.NoOverflow) (usage : Usage cfg) :
    usage.system.Knows usage.initial usage.Informed where
  spawn s i h hnext := records_of_not_started h (next_not_mem hnext)
  act s a i pc v _ _ _ hJ hacts := by
    obtain ⟨hmasks, hworked⟩ := (effect_of_act hacts).records
    exact informed_congr (by rw [Shared.masksOf, hmasks, Shared.masksOf])
      (by rw [Shared.workedBy, hworked, Shared.workedBy]) hJ
  own s i pc pc' v h hpc hJ hw := by
    have hs := stored h0 ho h
    cases effect_of_worker hw with
    | @pins mask hmask =>
      obtain ⟨hmasks, hworked⟩ := hJ
      have hcores : s.shared.reader.cores = usage.reader.cores := by rw [hs.same]
      have hown : usage.mask i = some mask := by rwa [hcores] at hmask
      refine ⟨?_, hworked⟩
      simp only [Shared.masksOf] at hmasks ⊢
      simp [hmasks, hown]
    | waits hindex => exact ⟨hJ.1, hJ.2, hindex, Nat.zero_le _, fun _ => .nil _⟩
    | @reads index bytes hmore hlive hpage =>
      obtain ⟨hmasks, hworked, hindex, hlen, hright⟩ := hJ
      have hstarted := (ForkJoin.System.spawned_iff h).mp ⟨_, hpc⟩
      refine ⟨hmasks, hworked, hindex, ?_, fun hcap => (hright hcap).snoc fun b hb => ?_⟩
      · rw [List.length_append, List.length_singleton]
        omega
      · rw [← hb]
        exact rightByte_of_read h0 ho h hstarted hcap b
    | @works index bytes hcomplete =>
      obtain ⟨hmasks, hworked, hindex, -, hright⟩ := hJ
      refine ⟨hmasks, bytes, ?_, hcomplete, index, hindex, hright⟩
      simp only [Shared.workedBy] at hworked ⊢
      simp [hworked]
    | returns hdone => exact ⟨hJ.1, hdone, hJ.2⟩
  other s i k pc pc' z v _ hik _ hJ _ hw := by
    obtain ⟨hmasks, hworked⟩ := (effect_of_worker hw).other hik
    exact informed_congr hmasks hworked hJ

/-! The processors of the workers. -/

theorem toInt_of_lt {w : UInt64} (h : w.toNat < 2 ^ 31) : w.toInt64.toInt32.toInt = w.toNat := by
  have hwide : w.toInt64.toInt = w.toNat := by
    change w.toBitVec.toInt = w.toBitVec.toNat
    rw [BitVec.toInt_eq_toNat_of_lt]
    change 2 * w.toNat < 2 ^ 64
    omega
  rw [Int64.toInt_toInt32, hwide, Int.bmod_eq_of_le (by omega) (by omega)]

/-- The workers' processors are numbered from 1 on, without gaps. -/
theorem cores_eq (usage : Usage cfg) (hN : cfg.N.toNat < 2 ^ 31) (i : Fin cfg.N.toNat) :
    (usage.reader.cores.get i).toInt = i + 1 := by
  obtain ⟨hc, g, cores, page, -, hcores, -, he⟩ := construct_eq_ok_iff.mp usage.constructed
  rw [(Prod.mk.inj he).1]
  change (cores.get i).toInt = i + 1
  rw [Config.setupReplicaCores] at hcores
  split at hcores
  · cases hcores
  · cases hcores
    have hle := hc.replicas_le
    have hi := i.isLt
    rw [show ∀ v : Vector Int32 cfg.N.toNat, v.get i = v[i] from fun _ => rfl]
    simp only [Fin.getElem_fin, Vector.getElem_ofFn]
    rcases Nat.lt_or_ge i.val 2 with hlt | hge
    · rcases Nat.lt_or_eq_of_le (Nat.le_of_lt_succ hlt) with hz | hone
      · obtain hz : i.val = 0 := by omega
        simp [hz, kCORE_MEAS_A]
      · have hchannels : 1 < cfg.numChannels := UInt64.lt_iff_toNat_lt.mpr (by
          change 1 < cfg.numChannels.toNat
          omega)
        rw [hone, if_neg Nat.one_ne_zero, if_pos rfl, if_pos hchannels]
        rfl
    · have hword : (kCORE_MEAS_B + UInt64.ofNat i - 1).toNat = i + 1 := by
        have hofNat : (UInt64.ofNat i).toNat = i.val := by
          rw [UInt64.toNat_ofNat']
          exact Nat.mod_eq_of_lt (by omega)
        rw [UInt64.toNat_sub, UInt64.toNat_add, hofNat]
        change (2 ^ 64 - 1 + (2 + i.val) % 2 ^ 64) % 2 ^ 64 = i + 1
        omega
      rw [if_neg (by omega), if_neg (by omega), toInt_of_lt (by omega), hword]
      rfl

/-- Up to 31 the shift is defined; the last of these masks is extended by its sign. -/
theorem mask_eq (usage : Usage cfg) (hN : cfg.N.toNat < 2 ^ 31) (i : Fin cfg.N.toNat) :
    usage.mask i = if i.val + 1 < 31 then some (bit (i + 1))
      else if i.val + 1 = 31 then some 0xffffffff80000000 else none := by
  have hcore : (usage.reader.cores.get i).toUInt32.toNat = i + 1 := by
    have hint := cores_eq usage hN i
    have hle : 0 ≤ usage.reader.cores.get i := by
      rw [Int32.le_iff_toInt_le, hint]
      exact Int.natCast_nonneg (i.val + 1)
    have hwide := Int32.toNat_toUInt32_of_le hle
    change _ = (usage.reader.cores.get i).toInt.toNat at hwide
    rw [hwide, hint]
    rfl
  rw [mask, setCurrentThreadProcessorID, hcore]

/-- Each worker up to the one of processor 30 gets that processor; no worker gets processor 0. -/
theorem mask_sound (hN : cfg.N.toNat < 2 ^ 31) {m : UInt64} (hm : usage.mask i = some m) :
    m.toNat.testBit 0 = false ∧ (i.val + 1 < 31 → m = bit (i + 1)) := by
  rw [mask_eq usage hN] at hm
  split at hm
  · next hlt =>
    obtain rfl := Option.some.inj hm
    refine ⟨?_, fun _ => rfl⟩
    rw [toNat_bit (by omega), Nat.testBit_two_pow]
    simp
  · next hge =>
    refine ⟨?_, fun hlt => absurd hlt hge⟩
    split at hm
    · obtain rfl := Option.some.inj hm
      decide
    · cases hm

/-! The workers at the end. -/

theorem finished_of_joined (h : usage.Reaches s) (hi : .join i ∈ usage.executed s) :
    s.worker i = some .finished := by
  obtain ⟨pc, hpc, hended⟩ := ForkJoin.System.ended_of_joined h hi
  cases pc with
  | finished => exact hpc
  | pinning | waiting | reading | working => cases hended

theorem joined_of_freed (h : .act .free ∈ usage.executed s) (i : Fin cfg.N.toNat) :
    .join i ∈ usage.executed s :=
  executed_of_key_lt h trivial (key_lt_free trivial (by simp))

theorem not_live_iff (h : usage.Reaches s) :
    s.shared.live = false ↔ .act .free ∈ usage.executed s := by
  rw [← Bool.not_eq_true, live_iff h, not_not]

theorem Informed.masks (h : usage.Informed i pc v) : ∀ m ∈ v.masksOf i, usage.mask i = some m := by
  have hcases : v.masksOf i = [] ∨ v.masksOf i = (usage.mask i).toList := by
    cases pc with
    | pinning => exact .inl h.1
    | waiting | reading | working | finished => exact .inr h.1
  rcases hcases with hnone | hmask
  · rw [hnone]
    exact nofun
  · rw [hmask]
    exact fun m hm => Option.mem_toList.mp hm

theorem Informed.worked (h : usage.Informed i pc v) :
    pc ≠ .finished ∧ v.workedBy i = [] ∨ ∃ bytes, v.workedBy i = [bytes] ∧ usage.Right i bytes := by
  cases pc with
  | pinning => exact .inl ⟨nofun, h.2⟩
  | waiting => exact .inl ⟨nofun, h.2⟩
  | reading => exact .inl ⟨nofun, h.2.1⟩
  | working => exact .inr h.2
  | finished => exact .inr h.2.2

theorem masks_installed (h0 : 0 ≤ cfg.channelOffset) (ho : cfg.NoOverflow)
    (h : usage.Reaches s) {m : UInt64} (hm : m ∈ s.shared.masksOf i) : usage.mask i = some m := by
  by_cases hstarted : .spawn i ∈ usage.executed s
  · obtain ⟨pc, hpc⟩ := (ForkJoin.System.spawned_iff h).mpr hstarted
    exact ((knows_informed h0 ho usage).worker h hpc).masks m hm
  · rw [(records_of_not_started h hstarted).1] at hm
    cases hm

/-- Before the page is freed every worker has called `final_work`. -/
theorem worked_cases (h0 : 0 ≤ cfg.channelOffset) (ho : cfg.NoOverflow) (h : usage.Reaches s) :
    s.shared.live = true ∧ s.shared.workedBy i = [] ∨
      ∃ bytes, s.shared.workedBy i = [bytes] ∧ usage.Right i bytes := by
  have hlive : s.worker i ≠ some .finished → s.shared.live = true := by
    intro hpc
    refine (live_iff h).mpr fun hfree => hpc ?_
    exact finished_of_joined h (joined_of_freed hfree i)
  by_cases hstarted : .spawn i ∈ usage.executed s
  · obtain ⟨pc, hpc⟩ := (ForkJoin.System.spawned_iff h).mpr hstarted
    rcases ((knows_informed h0 ho usage).worker h hpc).worked with ⟨hne, hworked⟩ | hworked
    · refine .inl ⟨hlive ?_, hworked⟩
      rw [hpc]
      exact fun he => hne (Option.some.inj he)
    · exact .inr hworked
  · refine .inl ⟨hlive fun hpc => ?_, (records_of_not_started h hstarted).2⟩
    exact hstarted ((ForkJoin.System.spawned_iff h).mp ⟨_, hpc⟩)

end Tailslayer.HedgedReader.Usage
