import Mathlib.Order.WellFounded
import Mathlib.Data.Nat.Notation
import Mathlib.Tactic.Common

/-! Weakly fair executions of a step function with labelled steps, and what they reach. -/
namespace Fairness

variable {σ α W : Type*} {step : σ → α → Option σ} {s₀ : σ}

/-- What steps reach, from a first state. -/
inductive Reachable (step : σ → α → Option σ) (s₀ : σ) : σ → Prop
  | start : Reachable step s₀ s₀
  | next {s t : σ} {a : α} : Reachable step s₀ s → step s a = some t → Reachable step s₀ t

/-- An infinite execution; an idle event leaves the state as it is. -/
structure Execution (step : σ → α → Option σ) (s₀ : σ) where
  state : ℕ → σ
  event : ℕ → Option α
  initial : state 0 = s₀
  idle : ∀ n, event n = none → state (n + 1) = state n
  step : ∀ n a, event n = some a → step (state n) a = some (state (n + 1))

namespace Execution

variable (E : Execution step s₀)

/-- A label that can always step from some time on is taken. -/
def Fair : Prop :=
  ∀ a m, (∀ n, m ≤ n → ∃ t, step (E.state n) a = some t) → ∃ n, m ≤ n ∧ E.event n = some a

theorem reachable (n : ℕ) : Reachable step s₀ (E.state n) := by
  induction n with
  | zero =>
    rw [E.initial]
    exact .start
  | succ n ih =>
    cases he : E.event n with
    | none =>
      rw [E.idle n he]
      exact ih
    | some a => exact .next ih (E.step n a he)

variable {E}

/-- Without a step that lowers the rank, rank and helper stay as they are. -/
theorem stays {goal : σ → Prop} [LT W] {rank : σ → W} {helper : σ → α} {m : ℕ}
    (hkeep : ∀ s a t, Reachable step s₀ s → ¬ goal s → step s a = some t →
      goal t ∨ rank t < rank s ∨ rank t = rank s ∧ helper t = helper s)
    (hgoal : ∀ n, m ≤ n → ¬ goal (E.state n))
    (hdrop : ∀ n, m ≤ n → rank (E.state n) = rank (E.state m) →
      ¬ rank (E.state (n + 1)) < rank (E.state n)) :
    ∀ n, m ≤ n →
      rank (E.state n) = rank (E.state m) ∧ helper (E.state n) = helper (E.state m) := by
  intro n hn
  induction n, hn using Nat.le_induction with
  | base => exact ⟨rfl, rfl⟩
  | succ n hn ih =>
    obtain ⟨hrank, hhelper⟩ := ih
    cases he : E.event n with
    | none =>
      rw [E.idle n he]
      exact ⟨hrank, hhelper⟩
    | some a =>
      rcases hkeep _ _ _ (E.reachable n) (hgoal n hn) (E.step n a he) with hg | hlt | ⟨hr, hh⟩
      · exact absurd hg (hgoal (n + 1) (by omega))
      · exact absurd hlt (hdrop n hn hrank)
      · exact ⟨hr.trans hrank, hh.trans hhelper⟩

/-- The leads-to rule: in every state short of the goal some label is helpful. Its step lowers the
rank, and no other step raises the rank or, at the same rank, makes another label helpful. -/
theorem eventually_of_rank [Preorder W] [WellFoundedLT W] {goal : σ → Prop} {rank : σ → W}
    {helper : σ → α}
    (hhelp : ∀ s, Reachable step s₀ s → ¬ goal s →
      ∃ t, step s (helper s) = some t ∧ (goal t ∨ rank t < rank s))
    (hkeep : ∀ s a t, Reachable step s₀ s → ¬ goal s → step s a = some t →
      goal t ∨ rank t < rank s ∨ rank t = rank s ∧ helper t = helper s)
    (hf : E.Fair) (m : ℕ) : ∃ n, m ≤ n ∧ goal (E.state n) := by
  -- by induction on the rank that is reached
  induction hw : rank (E.state m) using WellFoundedLT.induction generalizing m with
  | ind w ih =>
    by_contra hnever
    have hgoal : ∀ n, m ≤ n → ¬ goal (E.state n) := fun n hn hg => hnever ⟨n, hn, hg⟩
    have hdrop : ∀ n, m ≤ n → rank (E.state n) = rank (E.state m) →
        ¬ rank (E.state (n + 1)) < rank (E.state n) := by
      intro n hn hrank hlt
      obtain ⟨k, hk, hg⟩ := ih _ (hw ▸ hrank ▸ hlt) (n + 1) rfl
      exact hgoal k (by omega) hg
    have hstays := stays hkeep hgoal hdrop
    have henabled : ∀ n, m ≤ n → ∃ t, step (E.state n) (helper (E.state m)) = some t := by
      intro n hn
      obtain ⟨t, ht, -⟩ := hhelp _ (E.reachable n) (hgoal n hn)
      exact ⟨t, (hstays n hn).2 ▸ ht⟩
    obtain ⟨n, hn, he⟩ := hf _ m henabled
    obtain ⟨t, ht, hlower⟩ := hhelp _ (E.reachable n) (hgoal n hn)
    have htaken := E.step n _ he
    rw [(hstays n hn).2, htaken] at ht
    cases ht
    rcases hlower with hg | hlt
    · exact hgoal (n + 1) (by omega) hg
    · exact hdrop n hn (hstays n hn).1 hlt

end Execution

/-! The scheduler that asks one label after the other. -/

variable {labels : List α}

/-- The steps of a schedule, one after the other. -/
def follow (step : σ → α → Option σ) : List α → σ → Option σ
  | [], s => some s
  | a :: schedule, s => (step s a).bind (follow step schedule)

theorem reachable_follow {schedule : List α} {s t : σ} (hs : Reachable step s₀ s)
    (h : follow step schedule s = some t) : Reachable step s₀ t := by
  induction schedule generalizing s with
  | nil =>
    cases h
    exact hs
  | cons a schedule ih =>
    obtain ⟨u, hu, h⟩ := Option.bind_eq_some_iff.mp h
    exact ih (.next hs hu) h

/-- A turn: the label whose turn it is, if it can step, and the state after it. -/
def turn (step : σ → α → Option σ) (labels : List α) (n : ℕ) (s : σ) : Option α × σ :=
  match labels[n % labels.length]? with
  | none => (none, s)
  | some a =>
    match step s a with
    | none => (none, s)
    | some t => (some a, t)

def turns (step : σ → α → Option σ) (labels : List α) (s₀ : σ) : ℕ → σ
  | 0 => s₀
  | n + 1 => (turn step labels n (turns step labels s₀ n)).2

theorem turn_cases (step : σ → α → Option σ) (labels : List α) (n : ℕ) (s : σ) :
    (turn step labels n s = (none, s) ∧
      ∀ a, labels[n % labels.length]? = some a → step s a = none) ∨
    ∃ a t, turn step labels n s = (some a, t) ∧ labels[n % labels.length]? = some a ∧
      step s a = some t := by
  unfold turn
  cases hl : labels[n % labels.length]? with
  | none => exact .inl ⟨rfl, by simp⟩
  | some a =>
    cases hs : step s a with
    | none => exact .inl ⟨by simp [hs], by simpa using hs⟩
    | some t => exact .inr ⟨a, t, by simp [hs], rfl, hs⟩

def roundRobin (step : σ → α → Option σ) (labels : List α) (s₀ : σ) : Execution step s₀ where
  state := turns step labels s₀
  event := fun n => (turn step labels n (turns step labels s₀ n)).1
  initial := rfl
  idle := by
    intro n he
    rcases turn_cases step labels n (turns step labels s₀ n) with
      ⟨ht, -⟩ | ⟨a, t, ht, -, -⟩
    · rw [turns, ht]
    · rw [ht] at he
      cases he
  step := by
    intro n a he
    rcases turn_cases step labels n (turns step labels s₀ n) with
      ⟨ht, -⟩ | ⟨b, t, ht, -, hs⟩
    · rw [ht] at he
      cases he
    · rw [ht] at he
      cases he
      rw [turns, ht]
      exact hs

/-- It is fair if it asks every label that can ever step. -/
theorem fair_roundRobin
    (hlabels : ∀ s a t, Reachable step s₀ s → step s a = some t → a ∈ labels) :
    (roundRobin step labels s₀).Fair := by
  intro a m henabled
  obtain ⟨t, ht⟩ := henabled m le_rfl
  obtain ⟨i, hi, rfl⟩ := List.mem_iff_getElem.mp
    (hlabels _ _ _ ((roundRobin step labels s₀).reachable m) ht)
  have hpos : 0 < labels.length := Nat.zero_lt_of_lt hi
  have hle : m ≤ labels.length * m + i := by
    have := Nat.le_mul_of_pos_left m hpos
    omega
  have hturn : (labels.length * m + i) % labels.length = i := by
    rw [Nat.mul_add_mod, Nat.mod_eq_of_lt hi]
  refine ⟨labels.length * m + i, hle, ?_⟩
  rcases turn_cases step labels (labels.length * m + i)
    (turns step labels s₀ (labels.length * m + i)) with ⟨-, hnone⟩ | ⟨b, u, hb, hget, -⟩
  · obtain ⟨u, hu⟩ := henabled _ hle
    have hstep := hnone labels[i] (by rw [hturn, List.getElem?_eq_getElem hi])
    exact absurd (hu.symm.trans hstep) (by simp)
  · rw [hturn, List.getElem?_eq_getElem hi] at hget
    cases hget
    exact congrArg Prod.fst hb

end Fairness
