import Mathlib.Data.Nat.Notation
import Mathlib.Tactic.Common

/-! Finite runs of a labelled transition relation, observed state by state. -/

/-- Only the first `length` events are steps of the relation; the rest is padding. -/
structure Run {σ α : Type*} (Tr : σ → α → σ → Prop) (s₀ : σ) where
  length : ℕ
  state : ℕ → σ
  event : ℕ → α
  initial : state 0 = s₀
  step : ∀ n, n < length → Tr (state n) (event n) (state (n + 1))

namespace Run

variable {σ α : Type*} {Tr : σ → α → σ → Prop} {s₀ : σ}

/-- The run rule: what the guarded steps preserve holds all along the run. -/
theorem invariant_of_guard {I : σ → Prop} {G : σ → α → Prop} (hi : I s₀)
    (hs : ∀ s a t, I s → G s a → Tr s a t → I t) (E : Run Tr s₀)
    (hg : ∀ n, n < E.length → G (E.state n) (E.event n)) :
    ∀ n, n ≤ E.length → I (E.state n) := by
  intro n
  induction n with
  | zero => intro _; rw [E.initial]; exact hi
  | succ n ih =>
    intro hn
    exact hs _ _ _ (ih (by omega)) (hg n hn) (E.step n hn)

theorem invariant {I : σ → Prop} (hi : I s₀) (hs : ∀ s a t, I s → Tr s a t → I t)
    (E : Run Tr s₀) : ∀ n, n ≤ E.length → I (E.state n) :=
  invariant_of_guard (G := fun _ _ => True) hi (fun s a t h _ => hs s a t h) E
    (fun _ _ => trivial)

/-- The run that takes no step; its events are padding. -/
def start (a : α) (s₀ : σ) : Run Tr s₀ where
  length := 0
  state := fun _ => s₀
  event := fun _ => a
  initial := rfl
  step := by intro n hn; omega

/-- A run extended by one step. -/
def extend (E : Run Tr s₀) (a : α) (t : σ) (h : Tr (E.state E.length) a t) : Run Tr s₀ where
  length := E.length + 1
  state := fun n => if n ≤ E.length then E.state n else t
  event := fun n => if n < E.length then E.event n else a
  initial := by simp [E.initial]
  step := by
    intro n hn
    by_cases hl : n < E.length
    · simpa [hl, Nat.le_of_lt hl, Nat.succ_le_of_lt hl] using E.step n hl
    · have he : n = E.length := by omega
      subst n
      simp only [Nat.le_refl, if_true, Nat.lt_irrefl, if_false, Nat.not_succ_le_self]
      exact h

end Run
