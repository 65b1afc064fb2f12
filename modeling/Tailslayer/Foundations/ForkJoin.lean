import Mathlib.Data.List.Nodup
import Mathlib.Data.Prod.Lex
import Mathlib.Order.WellFoundedSet
import Tailslayer.Foundations.Fairness

/-! A coordinator that forks workers, joins them, and acts on what they share. -/
namespace ForkJoin

open Fairness

inductive Command (ι α : Type*)
  | spawn (i : ι)
  | join (i : ι)
  | act (a : α)
  deriving DecidableEq

/-- A straight-line program in which no command occurs twice, and the steps of its workers. An
action or a step of a worker may fault. -/
structure System (ι α σ : Type*) (l : ι → Type*) where
  program : List (Command ι α)
  act : α → σ → Option σ
  entry : (i : ι) → l i
  ended : (i : ι) → l i → Bool
  work : (i : ι) → l i → σ → Option (l i × σ)
  nodup : program.Nodup
  work_of_ended : ∀ i x v, ended i x = true → work i x v = none

/-- How many commands are done, what is shared, and where the workers are. -/
structure State (ι σ : Type*) (l : ι → Type*) where
  done : ℕ
  shared : σ
  worker : (i : ι) → Option (l i)

def State.start {ι σ : Type*} (l : ι → Type*) (v : σ) : State ι σ l := ⟨0, v, fun _ => none⟩

variable {ι α σ : Type*} {l : ι → Type*} [DecidableEq ι]

namespace System

/-- A step of the coordinator (`none`) or of a worker. A join waits for the worker's end. -/
def step (S : System ι α σ l) (s : State ι σ l) : Option ι → Option (State ι σ l)
  | none =>
    match S.program[s.done]? with
    | none => none
    | some (.spawn i) =>
      some ⟨s.done + 1, s.shared, Function.update s.worker i (some (S.entry i))⟩
    | some (.join i) =>
      match s.worker i with
      | none => none
      | some x => if S.ended i x then some { s with done := s.done + 1 } else none
    | some (.act a) => (S.act a s.shared).map fun v => { s with done := s.done + 1, shared := v }
  | some i =>
    match s.worker i with
    | none => none
    | some x =>
      (S.work i x s.shared).map fun (y, v) =>
        { s with shared := v, worker := Function.update s.worker i (some y) }

/-- What a step does, by what it is a step of. -/
inductive Effect (S : System ι α σ l) (s : State ι σ l) : Option ι → State ι σ l → Prop
  | spawn {i : ι} (next : S.program[s.done]? = some (.spawn i)) :
    Effect S s none ⟨s.done + 1, s.shared, Function.update s.worker i (some (S.entry i))⟩
  | join {i : ι} {x : l i} (next : S.program[s.done]? = some (.join i))
    (worker : s.worker i = some x) (ended : S.ended i x = true) :
    Effect S s none { s with done := s.done + 1 }
  | act {a : α} {v : σ} (next : S.program[s.done]? = some (.act a))
    (acts : S.act a s.shared = some v) :
    Effect S s none { s with done := s.done + 1, shared := v }
  | work {i : ι} {x y : l i} {v : σ} (worker : s.worker i = some x)
    (works : S.work i x s.shared = some (y, v)) :
    Effect S s (some i) { s with shared := v, worker := Function.update s.worker i (some y) }

abbrev Reaches (S : System ι α σ l) (v : σ) : State ι σ l → Prop :=
  Reachable S.step (State.start l v)

/-- The commands that are done. -/
def executed (S : System ι α σ l) (s : State ι σ l) : List (Command ι α) := S.program.take s.done

/-- The first command stands before the second one. -/
def Before (S : System ι α σ l) (c d : Command ι α) : Prop := [c, d].Sublist S.program

/-- The worker runs. -/
def Active (S : System ι α σ l) (s : State ι σ l) (i : ι) : Prop :=
  ∃ x, s.worker i = some x ∧ S.ended i x = false

def Finished (S : System ι α σ l) (s : State ι σ l) : Prop := S.program.length ≤ s.done

variable {S : System ι α σ l} {s t : State ι σ l} {v₀ : σ} {c d : Command ι α} {i : ι}
  {label : Option ι}

theorem effect_of_step (h : S.step s label = some t) : S.Effect s label t := by
  cases label with
  | none =>
    simp only [step] at h
    split at h
    · cases h
    · next hnext =>
      cases h
      exact .spawn hnext
    · next hnext =>
      split at h
      · cases h
      · next hworker =>
        split at h
        · next hended =>
          cases h
          exact .join hnext hworker hended
        · cases h
    · next hnext =>
      obtain ⟨v, hv, rfl⟩ := Option.map_eq_some_iff.mp h
      exact .act hnext hv
  | some i =>
    simp only [step] at h
    split at h
    · cases h
    · next hworker =>
      obtain ⟨⟨y, v⟩, hv, rfl⟩ := Option.map_eq_some_iff.mp h
      exact .work hworker hv

/-! The order of the commands. -/

omit [DecidableEq ι] in
theorem executed_next (hnext : S.program[s.done]? = some c) :
    S.program.take (s.done + 1) = S.executed s ++ [c] := by
  rw [List.take_add_one, hnext]
  rfl

omit [DecidableEq ι] in
theorem next_not_mem (hnext : S.program[s.done]? = some c) : c ∉ S.executed s := by
  have hnodup : (S.program.take (s.done + 1)).Nodup := S.nodup.sublist (List.take_sublist _ _)
  rw [executed_next hnext, List.nodup_append] at hnodup
  intro hc
  exact hnodup.2.2 c hc c (List.mem_singleton_self c) rfl

omit [DecidableEq ι] in
theorem Before.ne (h : S.Before c d) : c ≠ d := by
  have hnodup := S.nodup.sublist h
  simpa using hnodup

omit [DecidableEq ι] in
/-- Who reached a command reached those before it. -/
theorem Before.mem_take (h : S.Before c d) {n : ℕ} (hd : d ∈ S.program.take n) :
    c ∈ S.program.take n := by
  have hnodup : (S.program.take n ++ S.program.drop n).Nodup := by
    rw [List.take_append_drop]
    exact S.nodup
  have hlater : d ∉ S.program.drop n := by
    intro hd'
    exact (List.nodup_append.mp hnodup).2.2 d hd d hd' rfl
  have hsub : [c, d].Sublist (S.program.take n ++ S.program.drop n) := by
    rw [List.take_append_drop]
    exact h
  obtain ⟨l₁, l₂, he, h₁, h₂⟩ := List.sublist_append_iff.mp hsub
  cases l₁ with
  | nil =>
    rw [List.nil_append] at he
    subst he
    exact absurd (h₂.subset (by simp)) hlater
  | cons e l₁ =>
    obtain ⟨rfl, -⟩ := List.cons.inj he
    exact h₁.subset List.mem_cons_self

omit [DecidableEq ι] in
theorem Before.executed (h : S.Before c d) (hd : d ∈ S.executed s) : c ∈ S.executed s :=
  h.mem_take hd

omit [DecidableEq ι] in
theorem Before.executed_of_next (h : S.Before c d) (hnext : S.program[s.done]? = some d) :
    c ∈ S.executed s := by
  have hd : d ∈ S.program.take (s.done + 1) := by
    rw [executed_next hnext]
    exact List.mem_append_right _ (List.mem_singleton_self d)
  have hc := h.mem_take hd
  rw [executed_next hnext, List.mem_append] at hc
  rcases hc with hc | hc
  · exact hc
  · exact absurd (List.mem_singleton.mp hc) h.ne

omit [DecidableEq ι] in
/-- Increasing keys tell which command stands before which. -/
theorem before_of_key {κ : Type*} [LinearOrder κ] {key : Command ι α → κ}
    (hkey : S.program.Pairwise (fun c d => key c < key d)) (hc : c ∈ S.program)
    (hd : d ∈ S.program) (hlt : key c < key d) : S.Before c d := by
  obtain ⟨l₁, l₂, he⟩ := List.append_of_mem hd
  have hmem : c ∈ l₁ := by
    rw [he] at hc hkey
    rcases List.mem_append.mp hc with hc | hc
    · exact hc
    · rcases List.mem_cons.mp hc with rfl | hc
      · exact absurd hlt (lt_irrefl _)
      · have hback := (List.pairwise_cons.mp (List.pairwise_append.mp hkey).2.1).1 c hc
        exact absurd hlt hback.not_gt
  rw [Before, he]
  exact List.sublist_append_iff.mpr
    ⟨[c], [d], rfl, List.singleton_sublist.mpr hmem, List.singleton_sublist.mpr (by simp)⟩

/-- An action that is done did not fault. -/
theorem acts_of_executed (h : S.Reaches v₀ s) {a : α} (ha : .act a ∈ S.executed s) :
    ∃ v w, S.act a v = some w := by
  induction h with
  | start => simp [executed, State.start] at ha
  | next h hstep ih =>
    cases effect_of_step hstep with
    | spawn hnext | join hnext =>
      rw [executed, executed_next hnext, List.mem_append] at ha
      exact ih (ha.resolve_right (by simp))
    | @act b v hnext hacts =>
      rw [executed, executed_next hnext, List.mem_append] at ha
      rcases ha with ha | ha
      · exact ih ha
      · obtain rfl : a = b := by simpa using ha
        exact ⟨_, v, hacts⟩
    | work => exact ih ha

theorem spawned_iff (h : S.Reaches v₀ s) :
    (∃ x, s.worker i = some x) ↔ .spawn i ∈ S.executed s := by
  induction h with
  | start => simp [State.start, executed]
  | next h hstep ih =>
    cases effect_of_step hstep with
    | @spawn j hnext =>
      rw [executed, executed_next hnext]
      by_cases hj : i = j
      · subst hj
        simp
      · simp [hj, ih]
    | join hnext => simp [executed, executed_next hnext, ih]
    | act hnext => simp [executed, executed_next hnext, ih]
    | @work j x y v hworker hworks =>
      refine Iff.trans ?_ ih
      by_cases hj : i = j
      · subst hj
        simp [hworker]
      · simp [Function.update_of_ne hj]

/-- A join is only passed by a worker that ended, and that worker stays at its end. -/
theorem ended_of_joined (h : S.Reaches v₀ s) (hjoin : .join i ∈ S.executed s) :
    ∃ x, s.worker i = some x ∧ S.ended i x = true := by
  induction h with
  | start => cases hjoin
  | next h hstep ih =>
    cases effect_of_step hstep with
    | @spawn j hnext =>
      rw [executed, executed_next hnext, List.mem_append] at hjoin
      have hjoin' := hjoin.resolve_right (by simp)
      obtain ⟨x, hx, hended⟩ := ih hjoin'
      refine ⟨x, ?_, hended⟩
      -- the worker is already there, and no worker is forked twice
      have hj : i ≠ j := by
        rintro rfl
        exact next_not_mem hnext ((spawned_iff h).mp ⟨x, hx⟩)
      simpa only [Function.update_of_ne hj] using hx
    | @join j x hnext hworker hended =>
      rw [executed, executed_next hnext, List.mem_append] at hjoin
      rcases hjoin with hjoin | hjoin
      · exact ih hjoin
      · obtain rfl : i = j := by simpa using hjoin
        exact ⟨x, hworker, hended⟩
    | act hnext =>
      rw [executed, executed_next hnext, List.mem_append] at hjoin
      exact ih (hjoin.resolve_right (by simp))
    | @work j x y v hworker hworks =>
      obtain ⟨z, hz, hended⟩ := ih hjoin
      refine ⟨z, ?_, hended⟩
      have hj : i ≠ j := by
        rintro rfl
        rw [hworker] at hz
        cases hz
        rw [S.work_of_ended _ _ _ hended] at hworks
        cases hworks
      simpa only [Function.update_of_ne hj] using hz

/-- A worker runs only between its fork and its join. -/
theorem Active.between (h : S.Reaches v₀ s) (ha : S.Active s i) :
    .spawn i ∈ S.executed s ∧ .join i ∉ S.executed s := by
  obtain ⟨x, hx, hrunning⟩ := ha
  refine ⟨(spawned_iff h).mp ⟨x, hx⟩, ?_⟩
  intro hjoin
  obtain ⟨y, hy, hended⟩ := ended_of_joined h hjoin
  rw [hx] at hy
  cases hy
  rw [hrunning] at hended
  cases hended

omit [DecidableEq ι] in
theorem Active.of_work {x : l i} (hx : s.worker i = some x) {p : l i × σ}
    (hw : S.work i x s.shared = some p) : S.Active s i := by
  refine ⟨x, hx, ?_⟩
  cases hended : S.ended i x with
  | false => rfl
  | true =>
    rw [S.work_of_ended _ _ _ hended] at hw
    cases hw

omit [DecidableEq ι] in
theorem Finished.executed (h : S.Finished s) : S.executed s = S.program :=
  List.take_of_length_le h

/-- What all actions and all workers keep. -/
theorem invariant_shared {P : σ → Prop} (h₀ : P v₀)
    (hact : ∀ a v w, P v → S.act a v = some w → P w)
    (hwork : ∀ i x v y w, P v → S.work i x v = some (y, w) → P w) (h : S.Reaches v₀ s) :
    P s.shared := by
  induction h with
  | start => exact h₀
  | next h hstep ih =>
    cases effect_of_step hstep with
    | spawn | join => exact ih
    | act hnext hacts => exact hact _ _ _ ih hacts
    | work hworker hworks => exact hwork _ _ _ _ _ ih hworks

/-- The actions that make a proposition about what is shared hold, and those that end it. -/
structure Latch (S : System ι α σ l) (P : σ → Prop) (sets clears : α → Prop) : Prop where
  act : ∀ a v w, S.act a v = some w → (P w ↔ sets a ∨ P v ∧ ¬ clears a)
  work : ∀ i x v y w, S.work i x v = some (y, w) → (P w ↔ P v)

namespace Latch

variable {P : σ → Prop} {sets clears : α → Prop} {a b : α}

/-- It holds when it was set and has not been cleared since. -/
theorem iff_executed (hL : S.Latch P sets clears) (h₀ : ¬ P v₀) (h : S.Reaches v₀ s) :
    P s.shared ↔ ∃ before a after, S.executed s = before ++ .act a :: after ∧ sets a ∧
      ∀ b, .act b ∈ after → ¬ clears b := by
  have hother : ∀ {s : State ι σ l} {c : Command ι α}, (∀ a, c ≠ .act a) →
      ((∃ before a after, S.executed s ++ [c] = before ++ .act a :: after ∧ sets a ∧
          ∀ b, .act b ∈ after → ¬ clears b) ↔
        ∃ before a after, S.executed s = before ++ .act a :: after ∧ sets a ∧
          ∀ b, .act b ∈ after → ¬ clears b) := by
    intro s c hc
    constructor
    · rintro ⟨before, a, after, he, hset, hclear⟩
      rcases List.eq_nil_or_concat after with rfl | ⟨after, d, rfl⟩
      · exact absurd (List.append_inj_right' he rfl) (by simpa using hc a)
      · rw [List.concat_eq_append, ← List.cons_append, ← List.append_assoc] at he
        exact ⟨before, a, after, List.append_inj_left' he rfl, hset,
          fun b hb => hclear b (by simp [hb])⟩
    · rintro ⟨before, a, after, he, hset, hclear⟩
      refine ⟨before, a, after ++ [c], by simp [he], hset, ?_⟩
      intro b hb
      rcases List.mem_append.mp hb with hb | hb
      · exact hclear b hb
      · exact absurd (List.mem_singleton.mp hb).symm (hc b)
  induction h with
  | start =>
    refine iff_of_false h₀ ?_
    rintro ⟨before, a, after, he, -⟩
    simp [executed, State.start] at he
  | next h hstep ih =>
    cases effect_of_step hstep with
    | spawn hnext =>
      rw [executed, executed_next hnext, hother (by simp)]
      exact ih
    | join hnext =>
      rw [executed, executed_next hnext, hother (by simp)]
      exact ih
    | @act c v hnext hacts =>
      rw [executed, executed_next hnext]
      refine (hL.act _ _ _ hacts).trans ?_
      constructor
      · rintro (hset | ⟨hP, hkeep⟩)
        · exact ⟨_, c, [], rfl, hset, by simp⟩
        · obtain ⟨before, a, after, he, hset, hclear⟩ := ih.mp hP
          refine ⟨before, a, after ++ [.act c], by simp [he], hset, ?_⟩
          intro b hb
          rcases List.mem_append.mp hb with hb | hb
          · exact hclear b hb
          · obtain rfl : b = c := by simpa using hb
            exact hkeep
      · rintro ⟨before, a, after, he, hset, hclear⟩
        rcases List.eq_nil_or_concat after with rfl | ⟨after, d, rfl⟩
        · obtain rfl : c = a := by simpa using List.append_inj_right' he rfl
          exact .inl hset
        · rw [List.concat_eq_append, ← List.cons_append, ← List.append_assoc] at he
          obtain rfl : .act c = d := by simpa using List.append_inj_right' he rfl
          exact .inr ⟨ih.mpr ⟨before, a, after, List.append_inj_left' he rfl, hset,
            fun b hb => hclear b (by simp [hb])⟩, hclear c (by simp)⟩
    | work hworker hworks => exact (hL.work _ _ _ _ _ hworks).trans ih

/-- A switch that nothing turns off. -/
theorem iff_set (hL : S.Latch P (· = a) (fun _ => False)) (h₀ : ¬ P v₀) (h : S.Reaches v₀ s) :
    P s.shared ↔ .act a ∈ S.executed s := by
  rw [hL.iff_executed h₀ h]
  constructor
  · rintro ⟨before, b, after, he, rfl, -⟩
    simp [he]
  · intro ha
    obtain ⟨before, after, he⟩ := List.append_of_mem ha
    exact ⟨before, a, after, he, rfl, fun _ _ hf => hf⟩

/-- A switch that one command turns on and a later one off. -/
theorem iff_set_not_cleared (hL : S.Latch P (· = a) (· = b)) (hab : S.Before (.act a) (.act b))
    (h₀ : ¬ P v₀) (h : S.Reaches v₀ s) :
    P s.shared ↔ .act a ∈ S.executed s ∧ .act b ∉ S.executed s := by
  rw [hL.iff_executed h₀ h]
  constructor
  · rintro ⟨before, c, after, he, rfl, hkeep⟩
    refine ⟨by simp [he], ?_⟩
    intro hb
    -- the second command would stand in front of the first
    rw [he, List.mem_append, List.mem_cons] at hb
    rcases hb with hb | hb | hb
    · have htake : S.program.take before.length = before := by
        have hhead : before <+: S.executed s := he ▸ List.prefix_append _ _
        exact (List.prefix_iff_eq_take.mp (hhead.trans (List.take_prefix _ _))).symm
      have hc : .act c ∈ before := htake ▸ hab.mem_take (htake.symm ▸ hb)
      have hnodup : (S.executed s).Nodup := S.nodup.sublist (List.take_sublist _ _)
      rw [he, List.nodup_append] at hnodup
      exact hnodup.2.2 _ hc _ List.mem_cons_self rfl
    · exact hab.ne hb.symm
    · exact hkeep b hb rfl
  · rintro ⟨ha, hb⟩
    obtain ⟨before, after, he⟩ := List.append_of_mem ha
    refine ⟨before, a, after, he, rfl, ?_⟩
    rintro c hc rfl
    exact hb (by simp [he, hc])

end Latch

/-- What a worker knows of the shared state: it has to hold at its start, be kept by its own steps,
and be left alone by everybody else while it runs and after it. -/
structure Knows (S : System ι α σ l) (v₀ : σ) (J : (i : ι) → l i → σ → Prop) : Prop where
  spawn : ∀ s i, S.Reaches v₀ s → S.program[s.done]? = some (.spawn i) →
    J i (S.entry i) s.shared
  act : ∀ s a i x v, S.Reaches v₀ s → S.program[s.done]? = some (.act a) →
    s.worker i = some x → J i x s.shared → S.act a s.shared = some v → J i x v
  own : ∀ s i x y v, S.Reaches v₀ s → s.worker i = some x → J i x s.shared →
    S.work i x s.shared = some (y, v) → J i y v
  other : ∀ s i j x y z v, S.Reaches v₀ s → i ≠ j → s.worker i = some x → J i x s.shared →
    s.worker j = some y → S.work j y s.shared = some (z, v) → J i x v

theorem Knows.worker {J : (i : ι) → l i → σ → Prop} (hJ : S.Knows v₀ J) (h : S.Reaches v₀ s)
    {x : l i} (hx : s.worker i = some x) : J i x s.shared := by
  induction h generalizing i x with
  | start => cases hx
  | @next u _ _ h hstep ih =>
    cases effect_of_step hstep with
    | @spawn j hnext =>
      by_cases hj : i = j
      · subst hj
        obtain rfl : S.entry i = x := by simpa using hx
        exact hJ.spawn u i h hnext
      · exact ih (by simpa only [Function.update_of_ne hj] using hx)
    | join => exact ih hx
    | act hnext hacts => exact hJ.act _ _ _ _ _ h hnext hx (ih hx) hacts
    | @work j y z v hworker hworks =>
      by_cases hj : i = j
      · subst hj
        obtain rfl : z = x := by simpa using hx
        exact hJ.own _ _ _ _ _ h hworker (ih hworker) hworks
      · have hx' : u.worker i = some x := by simpa only [Function.update_of_ne hj] using hx
        exact hJ.other _ _ _ _ _ _ _ h hj hx' (ih hx') hworker hworks

/-- Actions never fault, and a worker that is waited for comes closer to its end. -/
structure Progresses (S : System ι α σ l) (v₀ : σ) (ρ : (i : ι) → l i → ℕ) : Prop where
  forked : ∀ i, .join i ∈ S.program → S.Before (.spawn i) (.join i)
  act : ∀ s a, S.Reaches v₀ s → S.program[s.done]? = some (.act a) →
    ∃ v, S.act a s.shared = some v
  join : ∀ s i x, S.Reaches v₀ s → S.program[s.done]? = some (.join i) → s.worker i = some x →
    S.ended i x = false → ∃ y v, S.work i x s.shared = some (y, v) ∧ ρ i y < ρ i x

/-- How far the worker is from its end for which the coordinator waits. -/
def waiting (S : System ι α σ l) (ρ : (i : ι) → l i → ℕ) (s : State ι σ l) : ℕ :=
  match S.program[s.done]? with
  | some (.join i) => (s.worker i).elim 0 (ρ i)
  | _ => 0

/-- Who takes the program further. -/
def helper (S : System ι α σ l) (s : State ι σ l) : Option ι :=
  match S.program[s.done]? with
  | some (.join i) => (s.worker i).elim none fun x => if S.ended i x then none else some i
  | _ => none

variable {ρ : (i : ι) → l i → ℕ}

omit [DecidableEq ι] in
theorem lt_length (h : ¬ S.Finished s) : ∃ c, S.program[s.done]? = some c :=
  ⟨_, List.getElem?_eq_getElem (Nat.lt_of_not_le h)⟩

/-- The coordinator's rank: its remaining commands, and then the wait at a join. -/
def rank (S : System ι α σ l) (ρ : (i : ι) → l i → ℕ) (s : State ι σ l) : ℕ ×ₗ ℕ :=
  toLex (S.program.length - s.done, S.waiting ρ s)

omit [DecidableEq ι] in
theorem rank_lt_of_done (h : ¬ S.Finished s) (ht : t.done = s.done + 1) :
    S.rank ρ t < S.rank ρ s := by
  rw [Finished] at h
  rw [rank, rank, Prod.Lex.toLex_lt_toLex]
  left
  change S.program.length - t.done < S.program.length - s.done
  omega

theorem helper_steps (hp : S.Progresses v₀ ρ) (h : S.Reaches v₀ s) (hn : ¬ S.Finished s) :
    ∃ t, S.step s (S.helper s) = some t ∧ S.rank ρ t < S.rank ρ s := by
  obtain ⟨c, hnext⟩ := lt_length hn
  cases c with
  | spawn i =>
    have hhelper : S.helper s = none := by simp only [helper, hnext]
    rw [hhelper, step, hnext]
    exact ⟨_, rfl, rank_lt_of_done hn rfl⟩
  | act a =>
    have hhelper : S.helper s = none := by simp only [helper, hnext]
    obtain ⟨v, hv⟩ := hp.act s a h hnext
    simp only [hhelper, step, hnext, hv]
    exact ⟨_, rfl, rank_lt_of_done hn rfl⟩
  | join i =>
    have hspawn := (hp.forked i (List.mem_of_getElem? hnext)).executed_of_next hnext
    obtain ⟨x, hx⟩ := (spawned_iff h).mpr hspawn
    cases hended : S.ended i x with
    | true =>
      have hhelper : S.helper s = none := by simp [helper, hnext, hx, hended]
      simp only [hhelper, step, hnext, hx, hended, if_true]
      exact ⟨_, rfl, rank_lt_of_done hn rfl⟩
    | false =>
      have hhelper : S.helper s = some i := by simp [helper, hnext, hx, hended]
      obtain ⟨y, v, hw, hlt⟩ := hp.join s i x h hnext hx hended
      simp only [hhelper, step, hx, hw]
      refine ⟨_, rfl, ?_⟩
      rw [rank, rank, Prod.Lex.toLex_lt_toLex]
      right
      simp [waiting, hnext, hx, hlt]

theorem step_keeps (hp : S.Progresses v₀ ρ) (h : S.Reaches v₀ s) (hn : ¬ S.Finished s)
    (hstep : S.step s label = some t) : S.rank ρ t < S.rank ρ s ∨
      S.rank ρ t = S.rank ρ s ∧ S.helper t = S.helper s := by
  cases effect_of_step hstep with
  | spawn => exact .inl (rank_lt_of_done hn rfl)
  | join => exact .inl (rank_lt_of_done hn rfl)
  | act => exact .inl (rank_lt_of_done hn rfl)
  | @work j x y v hworker hworks =>
    by_cases hj : S.program[s.done]? = some (.join j)
    · -- the step of the worker that is waited for
      obtain ⟨x', hx', hrunning⟩ := Active.of_work hworker hworks
      obtain rfl : x = x' := Option.some.inj (hworker.symm.trans hx')
      obtain ⟨y', v', hw, hlt⟩ := hp.join s j x h hj hworker hrunning
      rw [hworks] at hw
      cases hw
      left
      rw [rank, rank, Prod.Lex.toLex_lt_toLex]
      right
      simp [waiting, hj, hworker, hlt]
    · right
      have hsame : ∀ i, S.program[s.done]? = some (.join i) →
          Function.update s.worker j (some y) i = s.worker i := by
        intro i hi
        have hne : i ≠ j := by
          rintro rfl
          exact hj hi
        rw [Function.update_of_ne hne]
      obtain ⟨c, hnext⟩ := lt_length hn
      cases c with
      | join i => simp [rank, waiting, helper, hnext, hsame i hnext]
      | spawn i => simp [rank, waiting, helper, hnext]
      | act a => simp [rank, waiting, helper, hnext]

/-- Under weak fairness the coordinator gets through its program. -/
theorem finishes (hp : S.Progresses v₀ ρ) {E : Execution S.step (State.start l v₀)}
    (hf : E.Fair) : ∃ n, S.Finished (E.state n) := by
  have hhelp : ∀ s, S.Reaches v₀ s → ¬ S.Finished s →
      ∃ t, S.step s (S.helper s) = some t ∧ (S.Finished t ∨ S.rank ρ t < S.rank ρ s) := by
    intro s h hn
    obtain ⟨t, ht, hlt⟩ := helper_steps hp h hn
    exact ⟨t, ht, .inr hlt⟩
  obtain ⟨n, -, hn⟩ := Execution.eventually_of_rank hhelp
    (fun s a t h hn hstep => .inr (step_keeps hp h hn hstep)) hf 0
  exact ⟨n, hn⟩

/-- The coordinator and all workers that are ever forked. -/
def labels (S : System ι α σ l) : List (Option ι) :=
  none :: S.program.filterMap fun c =>
    match c with
    | .spawn i => some (some i)
    | .join _ | .act _ => none

theorem mem_labels (h : S.Reaches v₀ s) (hstep : S.step s label = some t) : label ∈ S.labels := by
  cases effect_of_step hstep with
  | spawn | join | act => exact List.mem_cons_self
  | @work i x y v hworker =>
    refine List.mem_cons_of_mem _ (List.mem_filterMap.mpr ⟨.spawn i, ?_, rfl⟩)
    exact List.mem_of_mem_take ((spawned_iff h).mp ⟨x, hworker⟩)

/-- Taking turns is fair. -/
theorem fair_roundRobin (S : System ι α σ l) (v₀ : σ) :
    (roundRobin S.step S.labels (State.start l v₀)).Fair :=
  Fairness.fair_roundRobin fun _ _ _ h hstep => mem_labels h hstep

theorem exists_finished (hp : S.Progresses v₀ ρ) : ∃ s, S.Reaches v₀ s ∧ S.Finished s := by
  obtain ⟨n, hn⟩ := finishes hp (S.fair_roundRobin v₀)
  exact ⟨_, Execution.reachable _ n, hn⟩

end System

end ForkJoin
