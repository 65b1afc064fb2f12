import Mathlib.Data.List.Basic

/-! Passes over a list: element-wise updates, and loops that overwrite a value. -/
namespace List

variable {α β : Type*}

/-- Updating all elements once for each `r` is updating each element for every `r`. -/
theorem foldl_map_comm (f : β → α → α) (rs : List β) (xs : List α) :
    rs.foldl (fun xs r => xs.map (f r)) xs = xs.map (fun x => rs.foldl (fun x r => f r x) x) := by
  induction rs generalizing xs with
  | nil => simp
  | cons r rs ih => simp [ih]

/-- A loop that overwrites a value at some elements, always with the same one. -/
theorem foldl_overwrite {p : α → Prop} [DecidablePred p] {f : α → β} {w : β} {xs : List α}
    (hw : ∀ x ∈ xs, p x → f x = w) (b : β) :
    xs.foldl (fun b x => if p x then f x else b) b = if ∃ x ∈ xs, p x then w else b := by
  induction xs generalizing b with
  | nil => simp
  | cons x xs ih =>
    have ih := ih (fun y hy => hw y (List.mem_cons_of_mem _ hy))
    by_cases hx : p x
    · simp [ih, hx, hw x List.mem_cons_self hx]
    · simp [ih, hx]

end List
