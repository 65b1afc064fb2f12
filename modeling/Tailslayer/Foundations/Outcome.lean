import Mathlib.Data.List.Basic
import Mathlib.Tactic.Common

/-! Computations that may fault, and loops that break off. -/

namespace Except

variable {ε α β : Type}

theorem bind_eq_ok_iff {x : Except ε α} {f : α → Except ε β} {b : β} :
    x >>= f = .ok b ↔ ∃ a, x = .ok a ∧ f a = .ok b := by
  cases x with
  | error e => simp [bind, Except.bind]
  | ok a => simp [bind, Except.bind]

/-- A loop that collects one result for each element. -/
theorem mapM_ok {f : α → Except ε β} {xs : List α} {ys : List β} (h : xs.mapM f = .ok ys) :
    ys.length = xs.length ∧
      ∀ i (hi : i < xs.length) (hi' : i < ys.length), f xs[i] = .ok ys[i] := by
  induction xs generalizing ys with
  | nil =>
    cases h
    exact ⟨rfl, by intro i hi; cases hi⟩
  | cons x xs ih =>
    rw [List.mapM_cons] at h
    obtain ⟨y, hy, h⟩ := bind_eq_ok_iff.mp h
    obtain ⟨zs, hzs, h⟩ := bind_eq_ok_iff.mp h
    cases h
    obtain ⟨hlen, hget⟩ := ih hzs
    refine ⟨congrArg Nat.succ hlen, ?_⟩
    intro i hi hi'
    cases i with
    | zero => exact hy
    | succ i => exact hget i (Nat.lt_of_succ_lt_succ hi) (Nat.lt_of_succ_lt_succ hi')

theorem mapM_of_ok {f : α → Except ε β} {g : α → β} {xs : List α}
    (h : ∀ x ∈ xs, f x = .ok (g x)) : xs.mapM f = .ok (xs.map g) := by
  induction xs with
  | nil => rfl
  | cons x xs ih =>
    rw [List.mapM_cons, h x List.mem_cons_self, ih fun y hy => h y (List.mem_cons_of_mem x hy)]
    rfl

theorem mem_mapM {f : α → Except ε β} {xs : List α} {ys : List β} (h : xs.mapM f = .ok ys) :
    (∀ x ∈ xs, ∃ y ∈ ys, f x = .ok y) ∧ ∀ y ∈ ys, ∃ x ∈ xs, f x = .ok y := by
  obtain ⟨hlen, hget⟩ := mapM_ok h
  constructor
  · intro x hx
    obtain ⟨i, hi, rfl⟩ := List.mem_iff_getElem.mp hx
    exact ⟨ys.get ⟨i, hlen ▸ hi⟩, List.getElem_mem _, hget i hi (hlen ▸ hi)⟩
  · intro y hy
    obtain ⟨i, hi, rfl⟩ := List.mem_iff_getElem.mp hy
    exact ⟨xs.get ⟨i, hlen ▸ hi⟩, List.getElem_mem _, hget i (hlen ▸ hi) hi⟩

theorem mapError_eq_ok_iff {ε' : Type} {g : ε → ε'} {x : Except ε α} {a : α} :
    x.mapError g = .ok a ↔ x = .ok a := by
  cases x <;> simp [Except.mapError]

/-- A loop whose body faults on some elements and otherwise updates the state. -/
theorem foldlM_guarded {p : α → Prop} [DecidablePred p] (e : ε) (f : β → α → β) (xs : List α)
    (b : β) :
    xs.foldlM (fun b a => if p a then (.error e : Except ε β) else .ok (f b a)) b =
      if ∃ a ∈ xs, p a then .error e else .ok (xs.foldl f b) := by
  induction xs generalizing b with
  | nil => simp [pure, Except.pure]
  | cons x xs ih =>
    by_cases hx : p x
    · simp [hx, bind, Except.bind]
    · simp [hx, bind, Except.bind, ih]

end Except

/-- A loop that breaks off at some elements and otherwise updates the state. -/
theorem Option.foldlM_guarded {α β : Type} {p : α → Prop} [DecidablePred p] (f : β → α → β)
    (xs : List α) (b : β) :
    xs.foldlM (fun b a => if p a then none else some (f b a)) b =
      if ∃ a ∈ xs, p a then none else some (xs.foldl f b) := by
  induction xs generalizing b with
  | nil => simp
  | cons x xs ih =>
    by_cases hx : p x
    · simp [hx]
    · simp [hx, ih]

theorem Option.mapM_of_some {α β : Type} {f : α → Option β} {g : α → β} {xs : List α}
    (h : ∀ x ∈ xs, f x = some (g x)) : xs.mapM f = some (xs.map g) := by
  induction xs with
  | nil => rfl
  | cons x xs ih =>
    rw [List.mapM_cons, h x List.mem_cons_self, ih fun y hy => h y (List.mem_cons_of_mem x hy)]
    rfl
