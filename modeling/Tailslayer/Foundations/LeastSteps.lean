import Mathlib.Order.Bounds.Basic
import Mathlib.Order.Hom.Basic
import Mathlib.Tactic.Common

/-! Greedy selections: again and again the least admissible element that is left. -/
namespace LeastSteps

variable {α α' β : Type*} {P : α → Prop} {next : α → α} {V : α → β → Prop}

/-- The values read off the least admissible elements from `a` on, each search starting where
`next` of the last one says; the list ends where no admissible element is left. -/
inductive Greedy [LE α] (P : α → Prop) (next : α → α) (V : α → β → Prop) : α → List β → Prop
  | done {a : α} (h : ∀ t, P t → ¬ a ≤ t) : Greedy P next V a []
  | step {a t : α} {v : β} {vs : List β} (h : IsLeast {t | P t ∧ a ≤ t} t) (hv : V t v)
      (rest : Greedy P next V (next t) vs) : Greedy P next V a (v :: vs)

/-- Starting points with the same admissible elements above them select the same values. -/
theorem greedy_congr [LE α] {a b : α} {vs : List β} (h : ∀ t, P t → (a ≤ t ↔ b ≤ t))
    (hg : Greedy P next V a vs) : Greedy P next V b vs := by
  cases hg with
  | done hno => exact .done (fun t ht hb => hno t ht ((h t ht).mpr hb))
  | step hl hv rest =>
    have hset : {t | P t ∧ a ≤ t} = {t | P t ∧ b ≤ t} := by
      ext t
      exact and_congr_right (h t)
    exact .step (hset ▸ hl) hv rest

/-- A starting point determines the values it selects. -/
theorem greedy_unique [PartialOrder α] (hV : ∀ t v w, V t v → V t w → v = w) {a : α}
    {vs ws : List β} (hv : Greedy P next V a vs) (hw : Greedy P next V a ws) : vs = ws := by
  induction hv generalizing ws with
  | done hno =>
    cases hw with
    | done _ => rfl
    | step hl _ _ => exact (hno _ hl.1.1 hl.1.2).elim
  | step hl hval rest ih =>
    cases hw with
    | done hno => exact (hno _ hl.1.1 hl.1.2).elim
    | step hl' hval' rest' =>
      obtain rfl := hl.unique hl'
      obtain rfl := hV _ _ _ hval hval'
      rw [ih rest']

/-- Selections carry over along an isomorphism of everything they depend on. -/
theorem greedy_map [LE α] [LE α'] (e : α ≃o α') {P' : α' → Prop} {next' : α' → α'}
    {V' : α' → β → Prop} (hP : ∀ t, P' (e t) ↔ P t) (hn : ∀ t, next' (e t) = e (next t))
    (hV : ∀ t v, V t v → V' (e t) v) {a : α} {vs : List β} (hg : Greedy P next V a vs) :
    Greedy P' next' V' (e a) vs := by
  induction hg with
  | done hno =>
    refine .done ?_
    intro t ht hle
    obtain ⟨s, rfl⟩ := e.surjective t
    exact hno s ((hP s).mp ht) (e.le_iff_le.mp hle)
  | step hl hval rest ih =>
    refine .step ⟨⟨(hP _).mpr hl.1.1, e.le_iff_le.mpr hl.1.2⟩, ?_⟩ (hV _ _ hval) ?_
    · rintro t ⟨ht, hle⟩
      obtain ⟨s, rfl⟩ := e.surjective t
      exact e.le_iff_le.mpr (hl.2 ⟨(hP s).mp ht, e.le_iff_le.mp hle⟩)
    · rw [hn]
      exact ih

end LeastSteps
