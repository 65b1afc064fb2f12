import Tailslayer.Foundations.FiniteMap

/-! Keys numbered from zero in the order of their first appearance. -/

open FiniteMap

/-- The ids given out so far, and the next one. -/
structure Enrollment (κ : Type*) where
  ids : Map κ UInt32
  next : UInt32

namespace Enrollment

variable {κ : Type*} [DecidableEq κ] {n : Enrollment κ} {k : κ} {xs : List κ}

def start : Enrollment κ := ⟨∅, 0⟩

/-- A key that has no id yet gets the next one. -/
def enroll (n : Enrollment κ) (k : κ) : Enrollment κ :=
  if k ∈ n.ids then n else ⟨n.ids.insert k n.next, n.next + 1⟩

def id (n : Enrollment κ) (k : κ) : UInt32 := value k n.ids

theorem enroll_of_notMem (h : k ∉ n.ids) :
    n.enroll k = ⟨n.ids.insert k n.next, n.next + 1⟩ := by
  simp [enroll, h]

/-- Distinct new keys get consecutive ids. -/
theorem foldl_enroll (hx : xs.Nodup) (hn : ∀ k ∈ xs, k ∉ n.ids) :
    (xs.foldl enroll n).next = n.next + UInt32.ofNat xs.length ∧
      ∀ k, (xs.foldl enroll n).ids.lookup k =
        if k ∈ xs then some (n.next + UInt32.ofNat (xs.idxOf k)) else n.ids.lookup k := by
  induction xs generalizing n with
  | nil => simp
  | cons x xs ih =>
    obtain ⟨hnot, hnodup⟩ := List.nodup_cons.mp hx
    have hnew : ∀ k ∈ xs, k ∉ (n.enroll x).ids := by
      intro k hk hm
      simp only [enroll_of_notMem (hn x List.mem_cons_self), Finmap.mem_insert] at hm
      rcases hm with rfl | hm
      · exact hnot hk
      · exact hn k (List.mem_cons_of_mem _ hk) hm
    have hone : ∀ i, n.next + 1 + UInt32.ofNat i = n.next + UInt32.ofNat (i + 1) := by
      intro i
      rw [UInt32.ofNat_add, UInt32.add_assoc, UInt32.add_comm 1]
      rfl
    obtain ⟨hnext, hids⟩ := ih hnodup hnew
    simp only [enroll_of_notMem (hn x List.mem_cons_self)] at hnext hids
    refine ⟨?_, ?_⟩
    · simpa [enroll_of_notMem (hn x List.mem_cons_self), hone] using hnext
    · intro k
      rw [List.foldl_cons, enroll_of_notMem (hn x List.mem_cons_self), hids k, lookup_insert_ite]
      by_cases hk : k = x
      · subst k
        simp [hnot]
      · by_cases hm : k ∈ xs
        · simp [hk, hm, List.idxOf_cons_ne xs (Ne.symm hk), hone]
        · simp [hk, hm]

theorem next_enroll_all (hx : xs.Nodup) :
    (xs.foldl enroll start).next = UInt32.ofNat xs.length := by
  obtain ⟨hnext, -⟩ := foldl_enroll (n := start) hx (fun k _ => Finmap.notMem_empty)
  simpa [start] using hnext

/-- A list of distinct keys is numbered by position. -/
theorem id_enroll_all (hx : xs.Nodup) (hk : k ∈ xs) :
    (xs.foldl enroll start).id k = UInt32.ofNat (xs.idxOf k) := by
  obtain ⟨-, hids⟩ := foldl_enroll (n := start) hx (fun k _ => Finmap.notMem_empty)
  apply value_of_lookup
  rw [hids k, if_pos hk]
  simp [start]

end Enrollment
