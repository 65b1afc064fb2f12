import Tailslayer.HedgedReader.Processes

/-! Readers next to each other: their values, their blocks, and the privilege they share. -/
namespace Tailslayer.HedgedReader

open Memory Blocks ByteMemory
open LockMemory (Win32 setLockMemoryPrivilege)

variable {mem m m' : ByteMemory} {s t : Process} {op : Operation} {name : ℕ} {cfg : Config}
  {answers : Answers} {o : Object}

/-! The blocks, which every run keeps apart. -/

/-- The reader has a block of its page's size. -/
structure Object.Owns (o : Object) : Prop where
  nonnull : o.alloc.virtaddr ≠ 0
  large : 2 ^ 30 ≤ o.alloc.sizeInBytes.toNat

def Object.Before (o o' : Object) : Prop :=
  o.alloc.virtaddr.toNat + o.alloc.sizeInBytes.toNat ≤ o'.alloc.virtaddr.toNat

/-- The readers' blocks. -/
def Process.Blocks (s : Process) (live : Finset UInt64) : Prop :=
  ∀ v, v ∈ live ↔ ∃ name o, s.object name = some o ∧ o.alloc.virtaddr = v

structure Process.Owns (s : Process) : Prop where
  objects : ∀ name o, s.object name = some o → o.Owns
  apart : ∀ name o name' o', name ≠ name' → s.object name = some o → s.object name' = some o' →
    o.Before o' ∨ o'.Before o
  flag : ∀ name o, s.object name = some o → s.lock.enabledLockMemoryPrivileges = true
  heap : ∃ live, replay ∅ (events s.calls) = some live ∧ s.Blocks live

theorem owns_initial : (Process.initial mem).Owns where
  objects := nofun
  apart := nofun
  flag := nofun
  heap := ⟨∅, rfl, by simp [Process.Blocks, Process.initial]⟩

/-- What a constructor acquires is apart from the blocks of all readers. -/
theorem fresh_of_region (hd : answers.Documented s) {acquired : Acquired}
    {region : PhysicalMemRegion} (hacq : acquireMemory answers.windows answers.fuel true
      answers.rescan = some acquired) (hregion : acquired.region = some region) :
    ∀ name o, s.object name = some o →
      acquired.alloc.virtaddr.toNat + acquired.alloc.sizeInBytes.toNat ≤ o.alloc.virtaddr.toNat ∨
        o.alloc.virtaddr.toNat + o.alloc.sizeInBytes.toNat ≤ acquired.alloc.virtaddr.toNat := by
  intro name o ho
  obtain ⟨-, -, memMul, hblock, hne⟩ :=
    block_of_region (Or.inr hd.pageSize) hd.blocksFit hacq hregion
  have hap := hd.fresh memMul acquired.alloc.sizeInBytes (by rw [← hblock]; exact hne) name o ho
  rw [← hblock] at hap
  exact hap.2

theorem owns_construct (hk : s.Owns) (hd : answers.Documented s)
    (h : s.Step (.construct name cfg answers) t) : t.Owns := by
  obtain ⟨hname, acquired, region, g, cores, hacq, hregion, -, -, hpriv, rfl⟩ := construct_step h
  obtain ⟨-, hlarge, -, -, hne⟩ := block_of_region (Or.inr hd.pageSize) hd.blocksFit hacq hregion
  have hfresh := fresh_of_region hd hacq hregion
  have hkeep : ∀ name' o, s.object name' = some o → name' ≠ name := by
    rintro name' o ho rfl
    rw [hname] at ho
    cases ho
  refine ⟨?_, ?_, ?_, ?_⟩
  · intro name' o ho
    rcases object_setObject ho with ⟨rfl, he⟩ | ⟨-, ho⟩
    · cases he
      exact ⟨hne, hlarge⟩
    · exact hk.objects name' o ho
  · intro name₁ o₁ name₂ o₂ hne₁₂ ho₁ ho₂
    rcases object_setObject ho₁ with ⟨rfl, he₁⟩ | ⟨-, h₁⟩
    · rcases object_setObject ho₂ with ⟨rfl, -⟩ | ⟨-, h₂⟩
      · exact (hne₁₂ rfl).elim
      · cases he₁
        exact hfresh name₂ o₂ h₂
    · rcases object_setObject ho₂ with ⟨rfl, he₂⟩ | ⟨-, h₂⟩
      · cases he₂
        exact (hfresh name₁ o₁ h₁).symm
      · exact hk.apart name₁ o₁ name₂ o₂ hne₁₂ h₁ h₂
  · intro _ _ _
    exact flag_of_enabled hpriv
  · obtain ⟨live, hlive, hblocks⟩ := hk.heap
    refine ⟨live ∪ {acquired.alloc.virtaddr}, ?_, ?_⟩
    · change replay ∅ (events (s.calls ++ acquired.calls)) = _
      rw [events_append, replay_append, hlive, Option.bind_some]
      apply replay_acquired hacq hregion
      intro memMul size hsome hmem
      obtain ⟨name', o, ho, hv⟩ := (hblocks _).mp hmem
      exact (hd.fresh memMul size hsome name' o ho).1 hv.symm
    · intro v
      rw [Finset.mem_union, Finset.mem_singleton, hblocks]
      constructor
      · rintro (⟨name', o, ho, hv⟩ | hv)
        · exact ⟨name', o, (Function.update_of_ne (hkeep name' o ho) ..).trans ho, hv⟩
        · exact ⟨name, _, Function.update_self .., hv.symm⟩
      · rintro ⟨name', o, ho, hv⟩
        rcases object_setObject ho with ⟨rfl, he⟩ | ⟨-, ho⟩
        · cases he
          exact Or.inr hv.symm
        · exact Or.inl ⟨name', o, ho, hv⟩

/-- An insert changes no block: what a name has afterwards it had before, but for the reader. -/
theorem owns_insert {val : ℕ → UInt8} (hk : s.Owns) (h : s.Step (.insert name val) t) :
    t.Owns := by
  obtain ⟨o, reader, mem', ho, -, rfl⟩ := insert_step h
  have hsame : ∀ name' o', (s.setObject name (some { o with reader := reader })).object name' =
      some o' → ∃ old, s.object name' = some old ∧ o'.alloc = old.alloc := by
    intro name' o' ho'
    rcases object_setObject ho' with ⟨rfl, he⟩ | ⟨-, ho'⟩
    · cases he
      exact ⟨o, ho, rfl⟩
    · exact ⟨o', ho', rfl⟩
  refine ⟨?_, ?_, ?_, ?_⟩
  · intro name' o' ho'
    obtain ⟨old, hold, he⟩ := hsame name' o' ho'
    obtain ⟨hne, hlarge⟩ := hk.objects name' old hold
    exact ⟨he ▸ hne, he ▸ hlarge⟩
  · intro name₁ o₁ name₂ o₂ hne₁₂ ho₁ ho₂
    obtain ⟨old₁, h₁, he₁⟩ := hsame name₁ o₁ ho₁
    obtain ⟨old₂, h₂, he₂⟩ := hsame name₂ o₂ ho₂
    rw [Object.Before, Object.Before, he₁, he₂]
    exact hk.apart name₁ old₁ name₂ old₂ hne₁₂ h₁ h₂
  · intro _ _ _
    exact hk.flag name o ho
  · obtain ⟨live, hlive, hblocks⟩ := hk.heap
    refine ⟨live, hlive, ?_⟩
    intro v
    rw [hblocks]
    constructor
    · rintro ⟨name', o', ho', hv⟩
      by_cases hn : name' = name
      · subst hn
        obtain rfl : o' = o := Option.some.inj (ho'.symm.trans ho)
        exact ⟨name', _, Function.update_self .., hv⟩
      · exact ⟨name', o', (Function.update_of_ne hn ..).trans ho', hv⟩
    · rintro ⟨name', o', ho', hv⟩
      obtain ⟨old, hold, he⟩ := hsame name' o' ho'
      exact ⟨name', old, hold, he ▸ hv⟩

theorem owns_destroy {token : Win32} (hk : s.Owns) (h : s.Step (.destroy name token) t) :
    t.Owns := by
  obtain ⟨o, ho, rfl⟩ := destroy_step h
  have hmine := hk.objects name o ho
  have hsame : ∀ name' o', (s.destroy name o token).object name' = some o' →
      name' ≠ name ∧ s.object name' = some o' := by
    intro name' o' ho'
    rcases object_setObject ho' with ⟨-, he⟩ | ⟨hn, ho'⟩
    · cases he
    · exact ⟨hn, ho'⟩
  refine ⟨?_, ?_, ?_, ?_⟩
  · intro name' o' ho'
    exact hk.objects name' o' (hsame name' o' ho').2
  · intro name₁ o₁ name₂ o₂ hne₁₂ ho₁ ho₂
    exact hk.apart name₁ o₁ name₂ o₂ hne₁₂ (hsame name₁ o₁ ho₁).2 (hsame name₂ o₂ ho₂).2
  · intro _ _ _
    exact flag_setLock token false (hk.flag name o ho)
  · obtain ⟨live, hlive, hblocks⟩ := hk.heap
    have hmem : o.alloc.virtaddr ∈ live := (hblocks _).mpr ⟨name, o, ho, rfl⟩
    refine ⟨live.erase o.alloc.virtaddr, ?_, ?_⟩
    · change replay ∅ (events (s.calls ++ freeLargePage o.alloc)) = _
      rw [events_append, replay_append, hlive, Option.bind_some, freeLargePage,
        if_neg hmine.nonnull]
      exact replay_released_of_mem hmem
    · intro v
      rw [Finset.mem_erase, hblocks]
      constructor
      · rintro ⟨hne, name', o', ho', rfl⟩
        have hn : name' ≠ name := by
          rintro rfl
          rw [ho] at ho'
          cases ho'
          exact hne rfl
        exact ⟨name', o', (Function.update_of_ne hn ..).trans ho', rfl⟩
      · rintro ⟨name', o', ho', rfl⟩
        obtain ⟨hn, ho'⟩ := hsame name' o' ho'
        refine ⟨?_, name', o', ho', rfl⟩
        intro he
        have hap := hk.apart name' o' name o hn ho' ho
        have hbig := hmine.large
        have hbig' := (hk.objects name' o' ho').large
        unfold Object.Before at hap
        rw [he] at hap
        omega

theorem owns_step (hk : s.Owns) (hd : op.Documented s) (h : s.Step op t) : t.Owns := by
  cases op with
  | construct name cfg answers => exact owns_construct hk hd h
  | insert name val => exact owns_insert hk h
  | destroy name token => exact owns_destroy hk h

variable {E : Run Process.Step (Process.initial mem)}

theorem owns_run (hd : ∀ n, n < E.length → (E.event n).Documented (E.state n)) :
    ∀ n, n ≤ E.length → (E.state n).Owns :=
  E.invariant_of_guard owns_initial (fun _ _ _ hk hdoc h => owns_step hk hdoc h) hd

/-- The reader holds these values in its block. -/
structure Object.Keeps (o : Object) (m : ByteMemory) (vals : List (ℕ → UInt8)) : Prop where
  checks : o.cfg.ChecksHold
  sound : o.cfg.Sound
  holds : o.reader.Holds m o.alloc.virtaddr.toNat (o.values vals)

structure Process.Keeps (s : Process) (c : Contents) : Prop where
  objects : ∀ name o, s.object name = some o → ∃ vals, c name = some vals ∧ o.Keeps s.mem vals
  none : ∀ name, s.object name = none → c name = none

theorem keeps_initial : (Process.initial mem).Keeps fun _ => none where
  objects := nofun
  none := fun _ _ => rfl

theorem Object.Keeps.frame {vals : List (ℕ → UInt8)} (h : o.Keeps m vals)
    (hm : AgreeOn o.alloc.virtaddr.toNat (2 ^ 30) m m') : o.Keeps m' vals :=
  ⟨h.checks, h.sound, h.holds.frame h.checks h.sound hm⟩

section Steps

variable {c : Contents}

theorem keeps_construct (ho : s.Owns) (hk : s.Keeps c) (hs : cfg.Sound)
    (hd : answers.Documented s) (h : s.Step (.construct name cfg answers) t) :
    t.Keeps (c.apply (.construct name cfg answers)) := by
  obtain ⟨hname, acquired, region, g, cores, hacq, hregion, hc, hg, hpriv, rfl⟩ :=
    construct_step h
  obtain ⟨hvaddr, hlarge, -⟩ := block_of_region (Or.inr hd.pageSize) hd.blocksFit hacq hregion
  refine ⟨?_, ?_⟩
  · intro name' o hobj
    rcases object_setObject hobj with ⟨rfl, he⟩ | ⟨hn, hobj⟩
    · cases he
      refine ⟨[], Function.update_self .., hc, hs, ?_⟩
      change (setUpReader g cores region.vaddr.toNat).Holds _ acquired.alloc.virtaddr.toNat []
      rw [hvaddr]
      exact ⟨filled_setUpReader hg cores _, nofun⟩
    · obtain ⟨vals, hvals, hold⟩ := hk.objects name' o hobj
      refine ⟨vals, (Function.update_of_ne hn ..).trans hvals, hold.frame ?_⟩
      have hap := fresh_of_region hd hacq hregion name' o hobj
      have hpage : kHUGEPAGE_SIZE.toNat = 2 ^ 30 := rfl
      have hbig := (ho.objects name' o hobj).large
      apply agreeOn_fill
      rw [hvaddr, hpage]
      omega
  · intro name' hobj
    rcases object_setObject hobj with ⟨rfl, he⟩ | ⟨hn, hobj⟩
    · cases he
    · exact (Function.update_of_ne hn ..).trans (hk.none name' hobj)

theorem keeps_insert {val : ℕ → UInt8} (hown : s.Owns) (hk : s.Keeps c)
    (h : s.Step (.insert name val) t) : t.Keeps (c.apply (.insert name val)) := by
  obtain ⟨o, reader, mem', ho, hins, rfl⟩ := insert_step h
  obtain ⟨vals, hvals, hold⟩ := hk.objects name o ho
  have hreader := holds_insert hold.sound.nonneg hold.checks hold.sound.noOverflow hold.holds hins
  have hname : c.apply (.insert name val) name = some (vals ++ [val]) := by
    change Function.update c name _ name = _
    rw [Function.update_self, hvals]
    rfl
  refine ⟨?_, ?_⟩
  · intro name' o' ho'
    rcases object_setObject ho' with ⟨rfl, he⟩ | ⟨hn, ho'⟩
    · cases he
      refine ⟨_, hname, hold.checks, hold.sound, ?_⟩
      rw [Object.values, List.map_append]
      exact hreader
    · obtain ⟨vals', hvals', hold'⟩ := hk.objects name' o' ho'
      refine ⟨vals', (Function.update_of_ne hn ..).trans hvals', hold'.frame ?_⟩
      have hap := hown.apart name' o' name o hn ho' ho
      have hbig := (hown.objects name o ho).large
      have hbig' := (hown.objects name' o' ho').large
      apply agreeOn_insert hold.checks hold.sound hold.holds.filled hins
      unfold Object.Before at hap
      omega
  · intro name' ho'
    rcases object_setObject ho' with ⟨rfl, he⟩ | ⟨hn, ho'⟩
    · cases he
    · exact (Function.update_of_ne hn ..).trans (hk.none name' ho')

theorem keeps_destroy {token : Win32} (hk : s.Keeps c) (h : s.Step (.destroy name token) t) :
    t.Keeps (c.apply (.destroy name token)) := by
  obtain ⟨o, ho, rfl⟩ := destroy_step h
  refine ⟨?_, ?_⟩
  · intro name' o' ho'
    rcases object_setObject ho' with ⟨rfl, he⟩ | ⟨hn, ho'⟩
    · cases he
    · obtain ⟨vals', hvals', hold'⟩ := hk.objects name' o' ho'
      exact ⟨vals', (Function.update_of_ne hn ..).trans hvals', hold'⟩
  · intro name' ho'
    rcases object_setObject ho' with ⟨rfl, -⟩ | ⟨hn, ho'⟩
    · exact Function.update_self ..
    · exact (Function.update_of_ne hn ..).trans (hk.none name' ho')

theorem keeps_step (ho : s.Owns) (hk : s.Keeps c) (hd : op.Documented s) (hs : op.Sound)
    (h : s.Step op t) : t.Keeps (c.apply op) := by
  cases op with
  | construct name cfg answers => exact keeps_construct ho hk hs hd h
  | insert name val => exact keeps_insert ho hk h
  | destroy name token => exact keeps_destroy hk h

end Steps

theorem keeps_contents (hd : ∀ n, n < E.length → (E.event n).Documented (E.state n))
    (hs : ∀ n, n < E.length → (E.event n).Sound) :
    ∀ n, n ≤ E.length → (E.state n).Keeps (contents E n) := by
  intro n
  induction n with
  | zero =>
    intro _
    rw [E.initial]
    exact keeps_initial
  | succ n ih =>
    intro hn
    exact keeps_step (owns_run hd n (by omega)) (ih (by omega)) (hd n hn) (hs n hn) (E.step n hn)

/-- Readers do not disturb each other: whatever constructors, inserts and destructors came before,
every worker of every reader gets the values inserted into that reader, and only a reader that is
alive has values. -/
theorem readers_independent (hd : ∀ n, n < E.length → (E.event n).Documented (E.state n))
    (hs : ∀ n, n < E.length → (E.event n).Sound) {n : ℕ} (hn : n ≤ E.length) (name : ℕ) :
    match (E.state n).object name with
    | none => contents E n name = none
    | some o => ∃ vals, contents E n name = some vals ∧ o.reader.size.toNat = vals.length ∧
        ∀ (w : Fin o.cfg.N.toNat) (j : ℕ) (hj : j < vals.length),
          (o.reader.workerFunc (E.state n).mem w (UInt64.ofNat j)).2 =
            fun i : Fin _ => vals[j] i := by
  have hk := keeps_contents hd hs n hn
  split
  · next hnone => exact hk.none name hnone
  · next o ho =>
    obtain ⟨vals, hvals, hold⟩ := hk.objects name o ho
    have hlen : (o.values vals).length = vals.length := List.length_map _
    refine ⟨vals, hvals, hlen ▸ hold.holds.filled.index, ?_⟩
    intro w j hj
    have hload := hold.holds.values w j (by rw [hlen]; exact hj)
    simp only [Object.values, List.getElem_map] at hload
    exact hload

theorem readers_independent_twoReaders : ∃ E : Run Process.Step (Process.initial fun _ => 0),
    E.length = 4 ∧ contents E 4 1 = some [fun _ => 7] ∧
      ∀ name, match (E.state 4).object name with
      | none => contents E 4 name = none
      | some o => ∃ vals, contents E 4 name = some vals ∧ o.reader.size.toNat = vals.length ∧
          ∀ (w : Fin o.cfg.N.toNat) (j : ℕ) (hj : j < vals.length),
            (o.reader.workerFunc (E.state 4).mem w (UInt64.ofNat j)).2 =
              fun i : Fin _ => vals[j] i := by
  obtain ⟨E, hlen, hd, hs, -, hvals⟩ := twoReaders
  exact ⟨E, hlen, hvals, readers_independent hd hs hlen.ge⟩

/-! The privilege: the first destructor that gives it up is the end of all constructors. -/

theorem privilege_setLock_removed {lock : LockMemory.State} (token : Win32) (enable : Bool)
    (h : lock.privilege = .removed) :
    (setLockMemoryPrivilege token enable lock).2.privilege = .removed := by
  rcases LockMemory.step_cases (lock_step token enable lock) with
    ⟨heq, -⟩ | ⟨heq, -⟩ | ⟨-, -, hne⟩ | ⟨-, -, hne⟩
  · rwa [heq]
  · rwa [heq]
  · exact (hne h).elim
  · exact (hne h).elim

theorem privilege_succeeding (lock : LockMemory.State) :
    (setLockMemoryPrivilege .succeeding false lock).2.privilege = .removed := by
  have hrem : LockMemory.Removes
      ⟨.succeeding, false, (setLockMemoryPrivilege .succeeding false lock).1⟩ :=
    ⟨rfl, rfl, rfl, rfl⟩
  rcases LockMemory.step_cases (lock_step .succeeding false lock) with
    ⟨heq, -, hgone⟩ | ⟨-, -, hen⟩ | ⟨-, hen, -⟩ | ⟨heq, -⟩
  · rw [heq]
    exact hgone hrem
  · cases hen
  · cases hen
  · rw [heq]

theorem lock_step_cases (h : s.Step op t) :
    t.lock = s.lock ∨ ∃ token enable, t.lock = (setLockMemoryPrivilege token enable s.lock).2 := by
  cases op with
  | construct name cfg answers =>
    obtain ⟨-, _, _, _, _, -, -, -, -, -, rfl⟩ := construct_step h
    exact Or.inr ⟨_, _, rfl⟩
  | insert name val =>
    obtain ⟨_, _, _, -, -, rfl⟩ := insert_step h
    exact Or.inl rfl
  | destroy name token =>
    obtain ⟨_, -, rfl⟩ := destroy_step h
    exact Or.inr ⟨_, _, rfl⟩

/-- The flag stays up, and a privilege once removed stays removed. -/
theorem removed_step (h : s.Step op t) (hs : s.lock = ⟨true, .removed⟩) :
    t.lock = ⟨true, .removed⟩ := by
  rcases lock_step_cases h with heq | ⟨token, enable, heq⟩
  · exact heq.trans hs
  · have hflag := flag_setLock token enable
      (congrArg LockMemory.State.enabledLockMemoryPrivileges hs)
    have hgone := privilege_setLock_removed token enable (congrArg LockMemory.State.privilege hs)
    rw [heq]
    generalize (setLockMemoryPrivilege token enable s.lock).2 = lock at hflag hgone
    obtain ⟨flag, privilege⟩ := lock
    cases hflag
    cases hgone
    rfl

theorem removed_after_destroy (hd : ∀ n, n < E.length → (E.event n).Documented (E.state n))
    {n : ℕ} (hn : n < E.length) (he : E.event n = .destroy name .succeeding) {k : ℕ}
    (hnk : n < k) (hk : k ≤ E.length) : (E.state k).lock = ⟨true, .removed⟩ := by
  induction k, hnk using Nat.le_induction with
  | base =>
    have hs := E.step n hn
    rw [he] at hs
    obtain ⟨o, ho, heq⟩ := destroy_step hs
    have hflag := flag_setLock .succeeding false ((owns_run hd n hn.le).flag name o ho)
    have hgone := privilege_succeeding (E.state n).lock
    rw [heq]
    change (setLockMemoryPrivilege .succeeding false (E.state n).lock).2 = _
    generalize (setLockMemoryPrivilege .succeeding false (E.state n).lock).2 = lock at hflag hgone
    obtain ⟨flag, privilege⟩ := lock
    cases hflag
    cases hgone
    rfl
  | succ k hnk ih => exact removed_step (E.step k hk) (ih (by omega))

/-- Without the privilege `setup_memory` comes to an end without a region. -/
theorem acquireMemory_removed (hd : answers.Documented s) (hs : s.lock.privilege = .removed)
    (hfuel : 2 ^ 64 < answers.fuel) (privileged : Bool) : ∃ acquired,
      acquireMemory answers.windows answers.fuel privileged answers.rescan = some acquired ∧
        acquired.region = none := by
  cases privileged with
  | false => exact ⟨_, rfl, rfl⟩
  | true =>
    obtain ⟨l, hl⟩ := allocateLargePageMin_returns hd.pageSize hfuel pageRequest
    have hnull : l.out.virtaddr = 0 := by
      by_contra hne
      obtain ⟨memMul, -, haddr, -⟩ := (allocated_allocateLargePageMin hl).good hne
      rw [haddr] at hne
      refine hne (hd.privilege ?_ memMul _)
      rw [privilege_setLock_removed answers.token true hs]
      nofun
    refine ⟨⟨none, l.out, l.calls⟩, ?_, rfl⟩
    simp [acquireMemory, hl, hnull]

theorem construct_without_region (cfg : Config) (mem : ByteMemory) :
    ∃ fault, HedgedReader.construct .debug cfg none mem = .error fault ∧
      (cfg.ChecksHold → (∃ g, cfg.geometry = .ok g) → cfg.N ≠ 0 →
        fault = .assertion "HedgedReader Couldn't Setup Memory Region\n") := by
  cases hcon : HedgedReader.construct .debug cfg none mem with
  | error fault =>
    refine ⟨fault, rfl, ?_⟩
    rintro ⟨hmultiple, hreplicas⟩ ⟨g, hg⟩ hN
    have hcores : ∃ cores, cfg.setupReplicaCores = .ok cores := ⟨_, if_neg hN⟩
    obtain ⟨cores, hcores⟩ := hcores
    simp only [HedgedReader.construct, check, hmultiple, hreplicas, hg, hcores] at hcon
    cases hcon
    rfl
  | ok res =>
    obtain ⟨-, _, _, _, -, -, hnone, -⟩ := construct_eq_ok_iff.mp hcon
    cases hnone

end Tailslayer.HedgedReader
