import Mathlib.Data.Set.Lattice
import Mathlib.Order.CompletePartialOrder
import Mathlib.Data.List.Basic
import Mathlib.Tactic.Common
import Mathlib.Tactic.Tauto

/-! A pool of items that are handed out and taken back, and the books kept about it. -/
namespace Ledger

variable {ι : Type*} {U : Set ι} {free : ℕ → Set ι} {N : ℕ}

/-- One movement of the pool: the items handed out and the items taken back. -/
structure Movement (ι : Type*) where
  out : Set ι
  back : Set ι

/-- A movement hands out only free items. -/
def Moves (m : Movement ι) (f f' : Set ι) : Prop :=
  m.out ⊆ f ∧ f' = (f \ m.out) ∪ m.back

/-- The items handed out and not taken back after a number of movements. -/
def held (m : ℕ → Movement ι) : ℕ → Set ι
  | 0 => ∅
  | n + 1 => (held m n ∪ (m n).out) \ (m n).back

variable {m : ℕ → Movement ι}

theorem held_not_free (free : ℕ → Set ι) (h0 : free 0 = U)
    (hm : ∀ n, n < N → Moves (m n) (free n) (free (n + 1)))
    (hb : ∀ n, n < N → (m n).back ⊆ U) : ∀ n, n ≤ N → free n = U \ held m n := by
  intro n
  induction n with
  | zero => intro _; simp [held, h0]
  | succ n ih =>
    intro hn
    obtain ⟨hout, he⟩ := hm n hn
    have hf := ih (by omega)
    rw [he, hf]
    have hbU := hb n hn
    ext x
    have hx := @hbU x
    simp only [held, Set.mem_union, Set.mem_sdiff]
    tauto

/-- An item that is held is never handed out again. -/
theorem out_not_held (h0 : free 0 = U) (hm : ∀ n, n < N → Moves (m n) (free n) (free (n + 1)))
    (hb : ∀ n, n < N → (m n).back ⊆ U) {n : ℕ} (hn : n < N) {x : ι} (hx : x ∈ (m n).out) :
    x ∉ held m n := by
  have hf := (hm n hn).1 hx
  rw [held_not_free free h0 hm hb n (by omega)] at hf
  exact hf.2

/-! Balanced books: every movement is a grant or takes back one outstanding grant. -/

/-- The outstanding grants, most recent first. -/
structure Balanced (m : ℕ → Movement ι) (N : ℕ) (grants : ℕ → List (Set ι)) : Prop where
  initial : grants 0 = []
  step : ∀ n, n < N →
    ((m n).back = ∅ ∧ ((m n).out = ∅ ∧ grants (n + 1) = grants n ∨
      grants (n + 1) = (m n).out :: grants n)) ∨
    ((m n).out = ∅ ∧ ∃ pre post, grants n = pre ++ (m n).back :: post ∧
      grants (n + 1) = pre ++ post)

/-- The books balance: what is held is the disjoint union of the outstanding grants. -/
theorem held_eq_grants (free : ℕ → Set ι) {grants : ℕ → List (Set ι)} (h0 : free 0 = U)
    (hm : ∀ n, n < N → Moves (m n) (free n) (free (n + 1)))
    (hb : ∀ n, n < N → (m n).back ⊆ U) (hg : Balanced m N grants) :
    ∀ n, n ≤ N → (grants n).Pairwise Disjoint ∧ held m n = {x | ∃ g ∈ grants n, x ∈ g} := by
  intro n
  induction n with
  | zero => intro _; simp [hg.initial, held]
  | succ n ih =>
    intro hn
    obtain ⟨hp, hh⟩ := ih (by omega)
    obtain ⟨hback, ⟨hout, he⟩ | he⟩ | ⟨hout, pre, post, hs, he⟩ := hg.step n hn
    · rw [he]
      refine ⟨hp, ?_⟩
      simp [held, hback, hout, hh]
    · rw [he]
      refine ⟨List.pairwise_cons.mpr ⟨?_, hp⟩, ?_⟩
      · intro g hgm
        rw [Set.disjoint_left]
        intro x hx hxg
        apply out_not_held h0 hm hb hn hx
        rw [hh]
        exact ⟨g, hgm, hxg⟩
      · ext x
        simp only [held, hback, hh, Set.sdiff_empty, Set.mem_union, Set.mem_ofPred_eq,
          List.mem_cons, exists_eq_or_imp]
        exact or_comm
    · rw [hs] at hp
      have hsplit := List.pairwise_append.mp hp
      obtain ⟨hback, hpost⟩ := List.pairwise_cons.mp hsplit.2.1
      rw [he]
      refine ⟨hp.sublist (by simp), ?_⟩
      ext x
      have hpre : ∀ g ∈ pre, x ∈ g → x ∉ (m n).back := by
        intro g hgm hx
        exact Set.disjoint_left.mp (hsplit.2.2 g hgm _ (by simp)) hx
      have hpst : ∀ g ∈ post, x ∈ g → x ∉ (m n).back := by
        intro g hgm hx hxb
        exact Set.disjoint_left.mp (hback g hgm) hxb hx
      simp only [held, hout, hh, hs, Set.union_empty, Set.mem_sdiff, Set.mem_ofPred_eq,
        List.mem_append, List.mem_cons]
      constructor
      · rintro ⟨⟨g, hgm | rfl | hgm, hx⟩, hnb⟩
        · exact ⟨g, Or.inl hgm, hx⟩
        · exact (hnb hx).elim
        · exact ⟨g, Or.inr hgm, hx⟩
      · rintro ⟨g, hgm | hgm, hx⟩
        · exact ⟨⟨g, Or.inl hgm, hx⟩, hpre g hgm hx⟩
        · exact ⟨⟨g, Or.inr (Or.inr hgm), hx⟩, hpst g hgm hx⟩

end Ledger
