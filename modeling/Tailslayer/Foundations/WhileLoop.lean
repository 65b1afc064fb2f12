import Mathlib.Tactic.Common

/-! Loops `while (true)` whose body stops, goes on or faults, run with fuel. -/
namespace WhileLoop

variable {ε σ : Type} {body : σ → Except ε (Option σ)}

/-- `none` means that the fuel ran out; a body that yields `none` leaves the loop. -/
def run (body : σ → Except ε (Option σ)) : ℕ → σ → Option (Except ε σ)
  | 0, _ => none
  | fuel + 1, s =>
    match body s with
    | .error e => some (.error e)
    | .ok none => some (.ok s)
    | .ok (some t) => run body fuel t

/-- The body keeps `I`, never faults under it, and decreases `μ` when it goes on. -/
def Progresses (body : σ → Except ε (Option σ)) (I : σ → Prop) (μ : σ → ℕ) : Prop :=
  ∀ s, I s → body s = .ok none ∨ ∃ t, body s = .ok (some t) ∧ I t ∧ μ t < μ s

/-- The loop rule for total correctness. -/
theorem run_total {I : σ → Prop} {μ : σ → ℕ} (hb : Progresses body I μ) :
    ∀ fuel s, I s → μ s < fuel →
      ∃ t, run body fuel s = some (.ok t) ∧ I t ∧ body t = .ok none := by
  intro fuel
  induction fuel with
  | zero => intro s _ hμ; omega
  | succ fuel ih =>
    intro s hs hμ
    rcases hb s hs with hstop | ⟨t, hnext, ht, hlt⟩
    · exact ⟨s, by simp [run, hstop], hs, hstop⟩
    · obtain ⟨u, hu, hI, hstop⟩ := ih t ht (by omega)
      exact ⟨u, by simp [run, hnext, hu], hI, hstop⟩

/-- The loop goes on for so many iterations, from one state to another. -/
inductive Reaches (body : σ → Except ε (Option σ)) (s : σ) : ℕ → σ → Prop
  | start : Reaches body s 0 s
  | next {k t u} : Reaches body s k t → body t = .ok (some u) → Reaches body s (k + 1) u

/-- Along the way the measure pays for every iteration. -/
theorem Reaches.measure_add_le {I : σ → Prop} {μ : σ → ℕ} (hb : Progresses body I μ) {s t : σ}
    {k : ℕ} (h : Reaches body s k t) (hs : I s) : I t ∧ μ t + k ≤ μ s := by
  induction h with
  | start => exact ⟨hs, Nat.le_refl _⟩
  | next _ hnext ih =>
    obtain ⟨ht, hle⟩ := ih
    rcases hb _ ht with hstop | ⟨u, hu, hI, hlt⟩
    · rw [hnext] at hstop
      cases hstop
    · rw [hnext] at hu
      cases hu
      exact ⟨hI, by omega⟩

end WhileLoop
