import Mathlib.Data.Finset.Basic
import Mathlib.Data.Finset.Lattice.Lemmas

/-! Traces of blocks that are obtained and released, replayed on the set of live blocks. -/
namespace Blocks

inductive Event (α : Type*)
  | obtained (a : α)
  | released (a : α)
  deriving DecidableEq, Repr

variable {α : Type*} [DecidableEq α]

/-- `none` when a live block is obtained again, or a block released that is not live. -/
def step (live : Finset α) : Event α → Option (Finset α)
  | .obtained a => if a ∈ live then none else some (insert a live)
  | .released a => if a ∈ live then some (live.erase a) else none

def replay (live : Finset α) (es : List (Event α)) : Option (Finset α) := es.foldlM step live

/-- Every block obtained is released once after that, and nothing else is released. -/
def ReleasedOnce (es : List (Event α)) : Prop := replay ∅ es = some ∅

instance (es : List (Event α)) : Decidable (ReleasedOnce es) :=
  inferInstanceAs (Decidable (replay ∅ es = some ∅))

@[simp] theorem replay_nil (live : Finset α) : replay live [] = some live := rfl

theorem replay_append (live : Finset α) (es es' : List (Event α)) :
    replay live (es ++ es') = (replay live es).bind (fun live => replay live es') :=
  List.foldlM_append

@[simp] theorem replay_obtained (a : α) : replay ∅ [.obtained a] = some {a} := rfl

/-- A live block can be released, and no other. -/
@[simp] theorem replay_released (a : α) : replay {a} [.released a] = some ∅ := by
  simp [replay, step]

@[simp] theorem replay_released_empty (a : α) : replay ∅ [.released a] = none := by
  simp [replay, step]

theorem replay_released_of_mem {a : α} {live : Finset α} (h : a ∈ live) :
    replay live [.released a] = some (live.erase a) := by
  simp [replay, step, h]

/-- A trace of blocks of its own runs the same next to other live blocks. -/
theorem replay_union {es : List (Event α)} {live live' others : Finset α}
    (h : replay live es = some live') (hd : Disjoint others live)
    (hnew : ∀ a, .obtained a ∈ es → a ∉ others) :
    replay (others ∪ live) es = some (others ∪ live') ∧ Disjoint others live' := by
  induction es generalizing live with
  | nil =>
    cases h
    exact ⟨rfl, hd⟩
  | cons e es ih =>
    obtain ⟨next, hstep, hrest⟩ := Option.bind_eq_some_iff.mp h
    have hrest' : ∀ a, .obtained a ∈ es → a ∉ others :=
      fun a ha => hnew a (List.mem_cons_of_mem e ha)
    cases e with
    | obtained a =>
      have ha := hnew a List.mem_cons_self
      simp only [step] at hstep
      split at hstep
      · cases hstep
      · next hlive =>
        cases hstep
        obtain ⟨hrun, hd'⟩ := ih hrest (Finset.disjoint_insert_right.mpr ⟨ha, hd⟩) hrest'
        refine ⟨?_, hd'⟩
        rw [replay, List.foldlM_cons, step, if_neg (by simp [ha, hlive]), ← Finset.union_insert]
        exact hrun
    | released a =>
      simp only [step] at hstep
      split at hstep
      · next hlive =>
        cases hstep
        have ha : a ∉ others := fun ho => (Finset.disjoint_left.mp hd ho) hlive
        obtain ⟨hrun, hd'⟩ := ih hrest (hd.mono_right (Finset.erase_subset a live)) hrest'
        refine ⟨?_, hd'⟩
        rw [replay, List.foldlM_cons, step, if_pos (Finset.mem_union_right others hlive),
          Finset.erase_union_distrib, Finset.erase_eq_of_notMem ha]
        exact hrun
      · cases hstep

end Blocks
