import Mathlib.Data.List.Range
import Mathlib.Data.Prod.Lex
import Mathlib.Tactic.Common

/-! Lists put together from phases, in the order of keys: a group, a phase and a number. -/

variable {α : Type*} {key : α → ℕ ×ₗ ℕ ×ₗ ℕ} {k a b d g m : ℕ} {x : α} {l l₁ l₂ : List α}

/-- Increasing keys of a group, of the phases from `a` up to `b`. -/
def Phases (key : α → ℕ ×ₗ ℕ ×ₗ ℕ) (k a b : ℕ) (l : List α) : Prop :=
  l.Pairwise (fun x y => key x < key y) ∧
    ∀ x ∈ l, (ofLex (key x)).1 = k ∧ a ≤ (ofLex (ofLex (key x)).2).1 ∧
      (ofLex (ofLex (key x)).2).1 < b

/-- Increasing keys, of the groups from `a` up to `b`. -/
def Groups (key : α → ℕ ×ₗ ℕ ×ₗ ℕ) (a b : ℕ) (l : List α) : Prop :=
  l.Pairwise (fun x y => key x < key y) ∧
    ∀ x ∈ l, a ≤ (ofLex (key x)).1 ∧ (ofLex (key x)).1 < b

namespace Phases

theorem lt_iff {p q : ℕ ×ₗ ℕ ×ₗ ℕ} : p < q ↔ (ofLex p).1 < (ofLex q).1 ∨
    (ofLex p).1 = (ofLex q).1 ∧ ((ofLex (ofLex p).2).1 < (ofLex (ofLex q).2).1 ∨
      (ofLex (ofLex p).2).1 = (ofLex (ofLex q).2).1 ∧
        (ofLex (ofLex p).2).2 < (ofLex (ofLex q).2).2) := by
  rw [Prod.Lex.lt_iff, Prod.Lex.lt_iff]

theorem nil (key : α → ℕ ×ₗ ℕ ×ₗ ℕ) (k a b : ℕ) : Phases key k a b [] := ⟨.nil, by simp⟩

theorem append (h₁ : Phases key k a b l₁) (h₂ : Phases key k b d l₂) (hab : a ≤ b) (hbd : b ≤ d) :
    Phases key k a d (l₁ ++ l₂) := by
  refine ⟨List.pairwise_append.mpr ⟨h₁.1, h₂.1, ?_⟩, ?_⟩
  · intro x hx y hy
    obtain ⟨hkx, -, hx⟩ := h₁.2 x hx
    obtain ⟨hky, hy, -⟩ := h₂.2 y hy
    exact lt_iff.mpr (.inr ⟨hkx.trans hky.symm, .inl (by omega)⟩)
  · intro x hx
    rcases List.mem_append.mp hx with hx | hx
    · obtain ⟨hk, ha, hb⟩ := h₁.2 x hx
      exact ⟨hk, ha, by omega⟩
    · obtain ⟨hk, ha, hb⟩ := h₂.2 x hx
      exact ⟨hk, by omega, hb⟩

theorem single (key : α → ℕ ×ₗ ℕ ×ₗ ℕ) (h : key x = toLex (k, toLex (a, 0))) :
    Phases key k a (a + 1) [x] := by
  refine ⟨List.pairwise_singleton _ _, ?_⟩
  intro y hy
  obtain rfl := List.mem_singleton.mp hy
  rw [h]
  exact ⟨rfl, le_rfl, Nat.lt_succ_self a⟩

theorem map_range (key : α → ℕ ×ₗ ℕ ×ₗ ℕ) {f : ℕ → α}
    (h : ∀ i, i < m → key (f i) = toLex (k, toLex (a, i))) :
    Phases key k a (a + 1) ((List.range m).map f) := by
  constructor
  · rw [List.pairwise_map]
    refine List.pairwise_lt_range.imp_of_mem ?_
    intro i j hi hj hij
    rw [h i (List.mem_range.mp hi), h j (List.mem_range.mp hj)]
    exact lt_iff.mpr (.inr ⟨rfl, .inr ⟨rfl, hij⟩⟩)
  · intro x hx
    obtain ⟨i, hi, rfl⟩ := List.mem_map.mp hx
    rw [h i (List.mem_range.mp hi)]
    exact ⟨rfl, le_rfl, Nat.lt_succ_self a⟩

/-- Pieces of one phase, each with its own share of the numbers. -/
theorem flatMap_range (key : α → ℕ ×ₗ ℕ ×ₗ ℕ) {w : ℕ} {f : ℕ → List α}
    (hsorted : ∀ i < m, (f i).Pairwise (fun x y => key x < key y))
    (h : ∀ i < m, ∀ x ∈ f i, ∃ n, key x = toLex (k, toLex (a, n)) ∧ i * w ≤ n ∧ n < (i + 1) * w) :
    Phases key k a (a + 1) ((List.range m).flatMap f) := by
  constructor
  · rw [List.pairwise_flatMap]
    refine ⟨fun i hi => hsorted i (List.mem_range.mp hi), ?_⟩
    refine List.pairwise_lt_range.imp_of_mem ?_
    intro i j hi hj hij x hx y hy
    obtain ⟨n, hn, -, hlt⟩ := h i (List.mem_range.mp hi) x hx
    obtain ⟨n', hn', hle, -⟩ := h j (List.mem_range.mp hj) y hy
    have hshare : (i + 1) * w ≤ j * w := Nat.mul_le_mul_right w hij
    rw [hn, hn']
    exact lt_iff.mpr (.inr ⟨rfl, .inr ⟨rfl, by simpa using by omega⟩⟩)
  · intro x hx
    obtain ⟨i, hi, hx⟩ := List.mem_flatMap.mp hx
    obtain ⟨n, hn, -⟩ := h i (List.mem_range.mp hi) x hx
    rw [hn]
    exact ⟨rfl, le_rfl, Nat.lt_succ_self a⟩

theorem map_finRange (key : α → ℕ ×ₗ ℕ ×ₗ ℕ) {f : Fin m → α}
    (h : ∀ i : Fin m, key (f i) = toLex (k, toLex (a, i.val))) :
    Phases key k a (a + 1) ((List.finRange m).map f) := by
  constructor
  · rw [List.pairwise_map]
    refine (List.pairwise_lt_finRange m).imp ?_
    intro i j hij
    rw [h i, h j]
    exact lt_iff.mpr (.inr ⟨rfl, .inr ⟨rfl, hij⟩⟩)
  · intro x hx
    obtain ⟨i, -, rfl⟩ := List.mem_map.mp hx
    rw [h i]
    exact ⟨rfl, le_rfl, Nat.lt_succ_self a⟩

/-- Pieces of one phase each. -/
theorem flatMap_finRange {f : Fin m → List α}
    (h : ∀ i : Fin m, Phases key k (a + i) (a + i + 1) (f i)) :
    Phases key k a (a + m) ((List.finRange m).flatMap f) := by
  constructor
  · rw [List.pairwise_flatMap]
    refine ⟨fun i _ => (h i).1, (List.pairwise_lt_finRange m).imp ?_⟩
    intro i j hij x hx y hy
    obtain ⟨hkx, -, hlt⟩ := (h i).2 x hx
    obtain ⟨hky, hle, -⟩ := (h j).2 y hy
    have hij : i.val < j.val := hij
    exact lt_iff.mpr (.inr ⟨hkx.trans hky.symm, .inl (by omega)⟩)
  · intro x hx
    obtain ⟨i, -, hx⟩ := List.mem_flatMap.mp hx
    obtain ⟨hk, hle, hlt⟩ := (h i).2 x hx
    have hi := i.isLt
    exact ⟨hk, by omega, by omega⟩

theorem groups (h : Phases key k a b l) : Groups key k (k + 1) l := by
  refine ⟨h.1, fun x hx => ?_⟩
  obtain ⟨hk, -, -⟩ := h.2 x hx
  omega

end Phases

namespace Groups

theorem append (h₁ : Groups key a b l₁) (h₂ : Groups key b d l₂) (hab : a ≤ b) (hbd : b ≤ d) :
    Groups key a d (l₁ ++ l₂) := by
  refine ⟨List.pairwise_append.mpr ⟨h₁.1, h₂.1, ?_⟩, ?_⟩
  · intro x hx y hy
    obtain ⟨-, hx⟩ := h₁.2 x hx
    obtain ⟨hy, -⟩ := h₂.2 y hy
    exact Phases.lt_iff.mpr (.inl (by omega))
  · intro x hx
    rcases List.mem_append.mp hx with hx | hx
    · obtain ⟨ha, hb⟩ := h₁.2 x hx
      omega
    · obtain ⟨ha, hb⟩ := h₂.2 x hx
      omega

/-- A group for each number. -/
theorem flatMap_range {f : ℕ → List α} (h : ∀ i < m, Groups key (g + i) (g + i + 1) (f i)) :
    Groups key g (g + m) ((List.range m).flatMap f) := by
  constructor
  · rw [List.pairwise_flatMap]
    refine ⟨fun i hi => (h i (List.mem_range.mp hi)).1, ?_⟩
    refine List.pairwise_lt_range.imp_of_mem ?_
    intro i j hi hj hij x hx y hy
    obtain ⟨-, hltx⟩ := (h i (List.mem_range.mp hi)).2 x hx
    obtain ⟨hley, -⟩ := (h j (List.mem_range.mp hj)).2 y hy
    exact Phases.lt_iff.mpr (.inl (by omega))
  · intro x hx
    obtain ⟨i, hi, hx⟩ := List.mem_flatMap.mp hx
    have hi := List.mem_range.mp hi
    obtain ⟨hle, hlt⟩ := (h i hi).2 x hx
    omega

end Groups
