import Mathlib.Algebra.GroupWithZero.Nat
import Mathlib.Data.List.Basic
import Mathlib.Tactic.Common

/-! Histograms as lists of counters, and the first of several greatest values. -/
namespace Histogram

/-- `hist[b]++` -/
def increment (hist : List ℕ) (b : ℕ) : List ℕ := hist.modify b (· + 1)

variable {hist : List ℕ} {b n : ℕ}

@[simp] theorem length_increment : (increment hist b).length = hist.length :=
  List.length_modify _ _ _

theorem sum_increment (hb : b < hist.length) : (increment hist b).sum = hist.sum + 1 := by
  induction hist generalizing b with
  | nil => cases hb
  | cons count hist ih =>
    cases b with
    | zero =>
      simp only [increment, List.modify_zero_cons, List.sum_cons]
      omega
    | succ b =>
      have hrest := ih (Nat.lt_of_succ_lt_succ hb)
      simp only [increment, List.modify_succ_cons, List.sum_cons] at hrest ⊢
      omega

theorem getD_increment (hb : b < hist.length) (c : ℕ) :
    (increment hist b).getD c 0 = hist.getD c 0 + if b = c then 1 else 0 := by
  rw [increment, List.getD_eq_getElem?_getD, List.getElem?_modify, List.getD_eq_getElem?_getD]
  by_cases h : b = c
  · subst h
    simp [List.getElem?_eq_getElem hb]
  · simp [h]

/-- Entries that fall into `m` neighbouring bins are at most `m` times those of the fullest. -/
theorem countP_le_of_bins {α : Type*} {l : List α} {p : α → Bool} (bin : α → ℕ) {lo m c : ℕ}
    (hbins : ∀ x ∈ l, p x → lo ≤ bin x ∧ bin x < lo + m)
    (hle : ∀ b, l.countP (fun x => p x && bin x = b) ≤ c) : l.countP p ≤ m * c := by
  induction m generalizing p with
  | zero =>
    have hnone : l.countP p = 0 := by
      rw [List.countP_eq_zero]
      intro x hx hp
      have hbin := hbins x hx hp
      omega
    rw [hnone]
    exact Nat.zero_le _
  | succ m ih =>
    -- the last bin, and the others
    have hsplit := List.length_eq_countP_add_countP (fun x => decide (bin x = lo + m))
      (l := l.filter p)
    rw [← List.countP_eq_length_filter, List.countP_filter, List.countP_filter] at hsplit
    have hlast := hle (lo + m)
    simp only [Bool.and_comm (p _)] at hlast
    have hothers := ih (p := fun x => decide (¬ decide (bin x = lo + m) = true) && p x) ?_ ?_
    · rw [hsplit, Nat.succ_mul]
      omega
    · intro x hx hp
      obtain ⟨hne, hp⟩ := Bool.and_eq_true_iff.mp hp
      have hbin := hbins x hx hp
      simp only [decide_eq_true_eq] at hne
      omega
    · intro b
      refine Nat.le_trans (List.countP_mono_left fun x _ hx => ?_) (hle b)
      simp only [Bool.and_eq_true] at hx ⊢
      exact ⟨hx.1.2, hx.2⟩

/-- Of the values at `0, …, n - 1` the one at `b` is greatest, and the first that is. -/
structure FirstMaximum (value : ℕ → ℕ) (n b : ℕ) : Prop where
  lt : b < n
  le : ∀ c < n, value c ≤ value b
  first : ∀ c < b, value c < value b

/-- The index and the value kept by a scan that only a greater value changes. -/
def raise (value : ℕ → ℕ) (s : ℕ × ℕ) (b : ℕ) : ℕ × ℕ :=
  if s.2 < value b then (b, value b) else s

/-- After some indices: nothing has been kept of zeros, or the first maximum. -/
theorem raise_range (value : ℕ → ℕ) (n : ℕ) :
    let s := (List.range n).foldl (raise value) (0, 0)
    (s = (0, 0) ∧ ∀ c < n, value c = 0) ∨ (FirstMaximum value n s.1 ∧ s.2 = value s.1) := by
  induction n with
  | zero => exact Or.inl ⟨rfl, fun c hc => absurd hc (Nat.not_lt_zero c)⟩
  | succ n ih =>
    simp only [List.range_succ, List.foldl_append, List.foldl_cons, List.foldl_nil]
    generalize (List.range n).foldl (raise value) (0, 0) = s at ih ⊢
    by_cases hraise : s.2 < value n
    · right
      rw [raise, if_pos hraise]
      have hbelow : ∀ c < n, value c < value n := by
        intro c hc
        rcases ih with ⟨rfl, hzero⟩ | ⟨hmax, hs⟩
        · rw [hzero c hc]
          exact hraise
        · have hle := hmax.le c hc
          omega
      refine ⟨⟨Nat.lt_succ_self n, fun c hc => ?_, hbelow⟩, rfl⟩
      rcases Nat.lt_succ_iff_lt_or_eq.mp hc with hlt | rfl
      · exact Nat.le_of_lt (hbelow c hlt)
      · exact Nat.le_refl _
    · rw [raise, if_neg hraise]
      rcases ih with ⟨rfl, hzero⟩ | ⟨hmax, hs⟩
      · refine Or.inl ⟨rfl, fun c hc => ?_⟩
        rcases Nat.lt_succ_iff_lt_or_eq.mp hc with hlt | rfl
        · exact hzero c hlt
        · exact Nat.eq_zero_of_not_pos hraise
      · refine Or.inr ⟨⟨Nat.lt_succ_of_lt hmax.lt, fun c hc => ?_, hmax.first⟩, hs⟩
        rcases Nat.lt_succ_iff_lt_or_eq.mp hc with hlt | rfl
        · exact hmax.le c hlt
        · omega

theorem firstMaximum_raise (value : ℕ → ℕ) (hn : 0 < n) :
    FirstMaximum value n ((List.range n).foldl (raise value) (0, 0)).1 ∧
      ((List.range n).foldl (raise value) (0, 0)).2 =
        value ((List.range n).foldl (raise value) (0, 0)).1 := by
  rcases raise_range value n with ⟨hs, hzero⟩ | h
  · rw [hs]
    refine ⟨⟨hn, fun c hc => ?_, fun c hc => absurd hc (Nat.not_lt_zero c)⟩, (hzero 0 hn).symm⟩
    rw [hzero c hc]
    exact Nat.zero_le _
  · exact h

variable {α : Type*} {l : List α} {p window : α → Bool} {bin : α → ℕ} {value : ℕ → ℕ} {lo m : ℕ}

/-- The fullest bin holds its share of entries that fall into `m` neighbouring bins. -/
theorem countP_le_of_firstMaximum (hmax : FirstMaximum value n b)
    (hvalue : ∀ c < n, value c = l.countP (fun x => window x && bin x = c))
    (hwindow : ∀ x ∈ l, p x → window x = true ∧ bin x < n)
    (hbins : ∀ x ∈ l, p x → lo ≤ bin x ∧ bin x < lo + m) : l.countP p ≤ m * value b := by
  refine countP_le_of_bins bin hbins fun c => ?_
  by_cases hc : c < n
  · refine Nat.le_trans ?_ (hmax.le c hc)
    rw [hvalue c hc]
    refine List.countP_mono_left fun x hx hin => ?_
    obtain ⟨hp, hbin⟩ := Bool.and_eq_true_iff.mp hin
    exact Bool.and_eq_true_iff.mpr ⟨(hwindow x hx hp).1, hbin⟩
  · have hnone : l.countP (fun x => p x && bin x = c) = 0 := by
      rw [List.countP_eq_zero]
      intro x hx hin
      obtain ⟨hp, hbin⟩ := Bool.and_eq_true_iff.mp hin
      exact hc (of_decide_eq_true hbin ▸ (hwindow x hx hp).2)
    rw [hnone]
    exact Nat.zero_le _

/-- It holds one of them, if they outnumber the others `m` times. -/
theorem exists_of_firstMaximum (hmax : FirstMaximum value n b)
    (hvalue : ∀ c < n, value c = l.countP (fun x => window x && bin x = c))
    (hall : l.countP p ≤ m * value b) (hmost : m * l.countP (fun x => !p x) < l.countP p) :
    ∃ x ∈ l, p x ∧ window x = true ∧ bin x = b := by
  by_contra hno
  push Not at hno
  have hothers : value b ≤ l.countP (fun x => !p x) := by
    rw [hvalue b hmax.lt]
    refine List.countP_mono_left fun x hx hin => ?_
    simp only [Bool.and_eq_true, decide_eq_true_eq] at hin
    cases hp : p x with
    | true => exact (hno x hx hp hin.1 hin.2).elim
    | false => rfl
  have hmul := Nat.mul_le_mul_left m hothers
  omega

end Histogram
