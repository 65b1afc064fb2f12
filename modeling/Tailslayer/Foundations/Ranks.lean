import Mathlib.Data.List.Forall2
import Mathlib.Order.Lattice
import Mathlib.Tactic.Common

/-! Ranks in sorted lists, and how pointwise bounds between lists survive sorting. -/
namespace Ranks

variable {α : Type*} [LinearOrder α] {xs ys xs' ys' : List α}

/-- Everything up to a position of a sorted list is at most what the position's entry is. -/
theorem lt_countP_of_getElem_le (h : xs.Pairwise (· ≤ ·)) {b : α} {k : ℕ} (hk : k < xs.length)
    (hb : xs[k] ≤ b) : k < xs.countP (· ≤ b) := by
  induction xs generalizing k with
  | nil => cases hk
  | cons x xs ih =>
    obtain ⟨hx, hxs⟩ := List.pairwise_cons.mp h
    cases k with
    | zero => simp_all
    | succ k =>
      have hk' : k < xs.length := by simpa using hk
      have hlt := ih hxs hk' hb
      have hxb : x ≤ b := (hx _ (List.getElem_mem hk')).trans hb
      simp only [List.countP_cons, hxb, decide_true, if_true]
      omega

/-- Everything from a position of a sorted list on is above what the position's entry is above. -/
theorem countP_le_of_lt_getElem (h : xs.Pairwise (· ≤ ·)) {b : α} {k : ℕ} (hk : k < xs.length)
    (hb : b < xs[k]) : xs.countP (· ≤ b) ≤ k := by
  induction xs generalizing k with
  | nil => cases hk
  | cons x xs ih =>
    obtain ⟨hx, hxs⟩ := List.pairwise_cons.mp h
    cases k with
    | zero =>
      have hnone : ∀ y ∈ x :: xs, ¬ y ≤ b := by
        intro y hy
        rcases List.mem_cons.mp hy with rfl | hy
        · exact not_le_of_gt hb
        · exact not_le_of_gt (lt_of_lt_of_le hb (hx y hy))
      have hzero : (x :: xs).countP (· ≤ b) = 0 := by
        simpa [List.countP_eq_zero] using hnone
      omega
    | succ k =>
      have hle := ih hxs (by simpa using hk) hb
      rw [List.countP_cons]
      split <;> omega

/-- Everything from a position of a sorted list on is at least what the position's entry is. -/
theorem length_le_countP_add (h : xs.Pairwise (· ≤ ·)) {k : ℕ} (hk : k < xs.length) :
    xs.length ≤ xs.countP (xs[k] ≤ ·) + k := by
  induction xs generalizing k with
  | nil => cases hk
  | cons x xs ih =>
    obtain ⟨hx, hxs⟩ := List.pairwise_cons.mp h
    cases k with
    | zero =>
      have hall : ∀ y ∈ x :: xs, decide (x ≤ y) = true := by
        intro y hy
        rcases List.mem_cons.mp hy with rfl | hy
        · exact decide_eq_true le_rfl
        · exact decide_eq_true (hx y hy)
      exact (List.countP_eq_length.mpr hall).ge
    | succ k =>
      have hle := ih hxs (by simpa using hk)
      rw [List.getElem_cons_succ, List.countP_cons, List.length_cons]
      omega

theorem countP_le_of_forall₂ (h : List.Forall₂ (· ≤ ·) xs ys) (b : α) :
    ys.countP (· ≤ b) ≤ xs.countP (· ≤ b) := by
  induction h with
  | nil => exact Nat.le_refl _
  | cons hxy _ ih =>
    simp only [List.countP_cons, decide_eq_true_eq]
    split
    · next hy =>
      rw [if_pos (hxy.trans hy)]
      omega
    · omega

/-- Entry by entry bounds between two lists hold between their sorted rearrangements. -/
theorem getElem_le_of_forall₂ (h : List.Forall₂ (· ≤ ·) xs ys) (hx : xs'.Perm xs)
    (hy : ys'.Perm ys) (hxs : xs'.Pairwise (· ≤ ·)) (hys : ys'.Pairwise (· ≤ ·)) {k : ℕ}
    (hkx : k < xs'.length) (hky : k < ys'.length) : xs'[k] ≤ ys'[k] := by
  by_contra hlt
  -- more than `k` entries of the larger list lie below the smaller list's entry of rank `k`
  have hcount := countP_le_of_forall₂ h ys'[k]
  have hbelow := lt_countP_of_getElem_le hys hky le_rfl
  have habove := countP_le_of_lt_getElem hxs hkx (lt_of_not_ge hlt)
  rw [hy.countP_eq] at hbelow
  rw [hx.countP_eq] at habove
  omega

end Ranks
